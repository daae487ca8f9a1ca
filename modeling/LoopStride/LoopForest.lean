import LoopStride.Dominators

/-! Natural loops. An edge whose target dominates its source closes a loop around the target, the
header; the body is the header and all that reaches such a source without passing through it. -/
namespace LoopStride

abbrev LoopId := Nat

structure Loop where
  header : BlockId
  latches : List BlockId
  /-- The blocks of the loop, ascending. -/
  body : List BlockId
  parent : Option LoopId
  /-- One for the outermost loops. -/
  depth : Nat
  deriving DecidableEq, Repr

/-- The loops of a graph, numbered by the place of their headers in the reverse postorder. -/
structure LoopForest where
  loops : List Loop
  deriving DecidableEq, Repr

namespace Flow
variable (g : Flow) (d : Dominators)

/-- The edges that close a loop, as latch and header. -/
def backEdges : List (BlockId × BlockId) :=
  d.order.flatMap fun b => ((g.next b).filter fun h => d.dominates h b).map (b, ·)

def headers : List BlockId :=
  let closing := g.backEdges d
  d.order.filter fun h => closing.any fun e => e.2 == h

def latches (h : BlockId) : List BlockId :=
  ((g.backEdges d).filter fun e => e.2 == h).map (·.1)

/-- The header and what a backward search from the latches finds among the reachable blocks; it
does not pass the header, which counts as seen from the start. -/
def loopBody (h : BlockId) : List BlockId :=
  let back := fun b => (g.predecessors b).filter d.isReachable
  let found := closure back (g.searchBound (g.latches d h)) [h] (g.latches d h)
  (List.range g.size).filter found.contains

end Flow

/-- Among the numbered bodies, the first smallest one other than number `i` that holds `h`. -/
def parentAmong (bodies : List (List BlockId)) (i : LoopId) (h : BlockId) : Option LoopId :=
  let around := (List.range bodies.length).filter fun j =>
    j != i && (bodies.getD j []).contains h
  let size := fun j => (bodies.getD j []).length
  around.foldl (fun best j =>
    match best with
    | none => some j
    | some k => if size j < size k then some j else some k) none

/-- Depths from the parents, in one pass: a loop without a parent has depth one, any other is one
deeper than its parent. -/
def depthsOf (parents : List (Option LoopId)) : List Nat :=
  parents.foldl (fun ds p =>
    ds ++ [match p with
      | none => 1
      | some p => ds.getD p 1 + 1]) []

def Flow.loopForest (g : Flow) (d : Dominators) : LoopForest :=
  let headers := g.headers d
  let bodies := headers.map (g.loopBody d)
  let parents := headers.zipIdx.map fun (h, i) => parentAmong bodies i h
  let depths := depthsOf parents
  ⟨headers.zipIdx.map fun (h, i) =>
    { header := h
      latches := g.latches d h
      body := bodies.getD i []
      parent := parents.getD i none
      depth := depths.getD i 1 }⟩

namespace LoopForest
variable (F : LoopForest)

def size : Nat := F.loops.length

def get? (l : LoopId) : Option Loop := F.loops[l]?

def ofHeader? (b : BlockId) : Option LoopId := F.loops.findIdx? fun l => l.header == b

def contains (l : LoopId) (b : BlockId) : Bool :=
  ((F.get? l).map fun lp => lp.body.contains b).getD false

/-- The deepest loop around a block, the last one if there are several. -/
def innermost? (b : BlockId) : Option LoopId :=
  let depth := fun l => ((F.get? l).map Loop.depth).getD 0
  ((List.range F.size).filter fun l => F.contains l b).foldl (fun best l =>
    match best with
    | none => some l
    | some k => if depth k ≤ depth l then some l else some k) none

/-- A loop and the loops around it, from the inside out, at most `n` of these. -/
def enclosing : Nat → LoopId → List LoopId
  | 0, l => [l]
  | n + 1, l =>
    match (F.get? l).bind Loop.parent with
    | some p => l :: enclosing n p
    | none => [l]

def isNestedIn (inner outer : LoopId) : Bool := (F.enclosing F.size inner).contains outer

def depthOf (l : LoopId) : Nat := ((F.get? l).map Loop.depth).getD 0

end LoopForest
end LoopStride
