import LoopStride.Flow

/-! Reverse postorder: a depth-first search numbers each block after all that it leads to for the
first time. -/
namespace LoopStride

/-- The state of a depth-first search: the blocks entered so far, and those left so far with
the latest first. -/
structure Survey where
  entered : List BlockId
  order : List BlockId

namespace Flow
variable (g : Flow)

/-- Searches from `b`, successors in order; `depth` bounds the nesting. -/
def survey : Nat → BlockId → Survey → Survey
  | 0, _, s => s
  | depth + 1, b, s =>
    if b ∈ s.entered then s
    else
      let s := (g.next b).foldl (fun s v => survey depth v s) ⟨b :: s.entered, s.order⟩
      ⟨s.entered, b :: s.order⟩

/-- The blocks reachable from the entry in reverse postorder. Only existing blocks are entered
from within one another, and at most one missing block below them. -/
def reversePostorder : List BlockId := (g.survey (g.size + 2) g.entry ⟨[], []⟩).order

end Flow
end LoopStride
