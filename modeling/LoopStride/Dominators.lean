import LoopStride.Flow.Order

/-! Dominators by iteration over the reverse postorder: each block is linked to the meeting point
of the links of its predecessors, until no link changes. -/
namespace LoopStride

/-- The immediate dominator found so far for each block; the entry is linked to itself. -/
abbrev Links := List (BlockId × BlockId)

namespace Links

def get? (m : Links) (b : BlockId) : Option BlockId := m.lookup b

def set (b up : BlockId) : Links → Links
  | [] => [(b, up)]
  | (c, u) :: m => if c = b then (b, up) :: m else (c, u) :: set b up m

end Links

/-- Where the link chains of `a` and `b` meet: the later one in the order moves up, step by
step. `none` if a number or a link is missing. -/
def meet (number link : BlockId → Option Nat) : Nat → BlockId → BlockId → Option BlockId
  | 0, _, _ => none
  | fuel + 1, a, b =>
    if a = b then some a
    else
      match number a, number b with
      | some i, some j =>
        if j < i then (link a).bind fun a => meet number link fuel a b
        else if i < j then (link b).bind fun b => meet number link fuel a b
        else none
      | _, _ => none

/-- The meeting point under the links found so far, blocks numbered by their place in `order`. Each
step lowers the number of one side. -/
def meetAt (order : List BlockId) (m : Links) (a b : BlockId) : Option BlockId :=
  meet order.idxOf? m.get? (2 * order.length + 1) a b

namespace Flow
variable (g : Flow)

def relink (order : List BlockId) (m : Links) (b : BlockId) : Links :=
  match (g.predecessors b).filter fun p => (m.get? p).isSome with
  | [] => m
  | p :: ps =>
    match ps.foldlM (fun d q => meetAt order m q d) p with
    | some d => m.set b d
    | none => m

/-- One pass over the reverse postorder, without the entry. -/
def sweep (order : List BlockId) (m : Links) : Links :=
  (order.drop 1).foldl (g.relink order) m

def settle (order : List BlockId) : Nat → Links → Links
  | 0, m => m
  | fuel + 1, m =>
    let m' := g.sweep order m
    if m' = m then m else settle order fuel m'

end Flow

structure Dominators where
  entry : BlockId
  order : List BlockId
  /-- The immediate dominator of each of them but the entry. -/
  links : Links
  deriving DecidableEq, Repr

/-- The dominators of a graph. A sweep that changes a link lowers its number, so `order.length`
squared and one more sweeps are enough. -/
def Flow.dominators (g : Flow) : Dominators :=
  let order := g.reversePostorder
  let links := g.settle order (order.length * order.length + 2) [(g.entry, g.entry)]
  ⟨g.entry, order, links.filter fun l => l.1 != g.entry⟩

namespace Dominators
variable (d : Dominators)

def immediate? (b : BlockId) : Option BlockId := d.links.get? b

def isReachable (b : BlockId) : Bool := b == d.entry || (d.immediate? b).isSome

/-- A block and its immediate dominators upward, at most `n` of them. -/
def chain : Nat → BlockId → List BlockId
  | 0, b => [b]
  | n + 1, b =>
    match d.immediate? b with
    | some up => b :: chain n up
    | none => [b]

/-- Every path from the entry to `b` passes through `a`, and there is one. -/
def dominates (a b : BlockId) : Bool :=
  d.isReachable b && (d.chain d.order.length b).contains a

end Dominators
end LoopStride
