import SolverLog.Main
import SolverLog.Proofs.Ownership
import SolverLog.Proofs.Assembly
import SolverLog.Proofs.Brackets
import SolverLog.Proofs.Conservation
import SolverLog.Proofs.Path
import SolverLog.Proofs.Replay
import SolverLog.Proofs.Clash
import SolverLog.Proofs.Likeness
import SolverLog.Proofs.Finality
import SolverLog.Proofs.Growth
import SolverLog.Proofs.Joining
import SolverLog.Proofs.Behind
import SolverLog.Proofs.Concatenation
import SolverLog.Proofs.Draft
import SolverLog.Proofs.Refinement
import SolverLog.Proofs.Preorder
import SolverLog.Proofs.Visits
import SolverLog.Proofs.Course
import SolverLog.Proofs.Stamps
import SolverLog.Proofs.Arrivals
import SolverLog.Proofs.Additions
import SolverLog.Proofs.Tracking
import SolverLog.Proofs.LogOrder
import SolverLog.Proofs.Attempt
import SolverLog.Proofs.Permanence
import SolverLog.Proofs.Register
import SolverLog.Proofs.Skeleton
import SolverLog.Proofs.Inside
import SolverLog.Proofs.Digits
import SolverLog.Proofs.Levels
import SolverLog.Proofs.Reachable
import SolverLog.Proofs.Rounding
import SolverLog.Proofs.ReadBack
import SolverLog.Proofs.Numerals
import SolverLog.Proofs.JsonText
import SolverLog.Proofs.Decoded
import SolverLog.Proofs.Unambiguous
import SolverLog.Proofs.Grammar
import SolverLog.Proofs.Literals
import SolverLog.Proofs.RoundTrip
import SolverLog.Proofs.Gathering
import SolverLog.Proofs.Relining
import SolverLog.Proofs.Stacking
import SolverLog.Proofs.Reopening
import SolverLog.Proofs.Commentary
import SolverLog.Proofs.LineEnds
import SolverLog.Proofs.MarkerFields
import SolverLog.Proofs.Depths
import SolverLog.Proofs.Messages
import SolverLog.Proofs.Tracing
import SolverLog.Proofs.LiteralGrammar
import SolverLog.Proofs.PayloadMeaning
import SolverLog.Proofs.HistoryJson
import SolverLog.Proofs.Nesting
import SolverLog.Proofs.Origins
import SolverLog.Proofs.Schema
import SolverLog.Proofs.TableRows
import SolverLog.Proofs.JsonGrammar
import SolverLog.Proofs.ParseModes
import SolverLog.Proofs.CommandLines
import SolverLog.Proofs.Nearest
import SolverLog.Proofs.NumberLine
