import LoopStride.Expr
import LoopStride.LoopForest

/-! What stays the same while a loop runs. -/
namespace LoopStride

/-- The loops of a function and the blocks its instructions were put into. -/
structure Scope where
  forest : LoopForest
  home : InstId → Option BlockId

namespace Scope
variable (S : Scope)

/-- A value that no round of loop `l` computes anew. -/
def fixesValue (l : LoopId) : Value → Bool
  | .result id => ((S.home id).map fun b => !S.forest.contains l b).getD true
  | _ => true

def runsWithin (l : LoopId) (header : BlockId) : Bool :=
  ((S.forest.ofHeader? header).map fun m => S.forest.isNestedIn m l).getD false

mutual

def isInvariant (l : LoopId) : Expr → Bool
  | .const _ => true
  | .unknown v => S.fixesValue l v
  | .sum ts => areInvariant l ts
  | .product ts => areInvariant l ts
  | .recurrence h ts => !S.runsWithin l h && areInvariant l ts

def areInvariant (l : LoopId) : List Expr → Bool
  | [] => true
  | t :: ts => isInvariant l t && areInvariant l ts

end

theorem areInvariant_iff {l : LoopId} {ts : List Expr} :
    S.areInvariant l ts = true ↔ ∀ t ∈ ts, S.isInvariant l t = true := by
  induction ts with
  | nil => simp [areInvariant]
  | cons t ts ih => simp [areInvariant, ih]

/-- The depth of the loop with this header, zero if there is none. -/
def depthOf (header : BlockId) : Nat :=
  ((S.forest.ofHeader? header).map S.forest.depthOf).getD 0

end Scope
end LoopStride
