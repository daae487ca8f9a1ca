import LoopStride.Func.Builder
import LoopStride.Access.Pass
import LoopStride.Pipeline
import LoopStride.Proofs.Loops.Nesting
import LoopStride.Proofs.Evolution.Soundness
import LoopStride.Proofs.Passes.Calls
import LoopStride.Proofs.Layout.Report
import LoopStride.Proofs.Evolution.Extent
import LoopStride.Proofs.Access.Place
import LoopStride.Proofs.Func.Built
import LoopStride.Proofs.Expr.Stepping
import LoopStride.Proofs.Evolution.Placeholders
import LoopStride.Proofs.Expr.Depth
import LoopStride.Proofs.Evolution.Form
import LoopStride.Proofs.Evolution.Counters
import LoopStride.Proofs.Evolution.Widths
import LoopStride.Proofs.Access.Visits
import LoopStride.Proofs.Dominators.Placement
import LoopStride.Proofs.Dominators.Settling
import LoopStride.Proofs.Expr.Ending
import LoopStride.Proofs.Evolution.Complete
import LoopStride.Proofs.Access.Verdict
import LoopStride.Proofs.Flow.Predecessors
import LoopStride.Proofs.Func.Valid
import LoopStride.Proofs.Func.Extending
import LoopStride.Proofs.Passes.Rounds
import LoopStride.Proofs.Instruction.Substitution
import LoopStride.Proofs.Cost.Layers
import LoopStride.Proofs.Expr.Text
import LoopStride.Proofs.Evolution.Sources
