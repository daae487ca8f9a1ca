import LoopStride.Value

/-! Control-flow graphs: an entry block and the successors of each block. A successor need not
exist; a block that does not exist has no successors of its own. -/
namespace LoopStride

structure Flow where
  entry : BlockId
  successors : Array (List BlockId)
  deriving DecidableEq, Repr

/-- Collects all that a work list leads to. Each item is popped from the front; a new one is
added to what was seen and its neighbours are put in front of the rest. -/
def closure (next : Nat → List Nat) : Nat → List Nat → List Nat → List Nat
  | 0, seen, _ => seen
  | _ + 1, seen, [] => seen
  | fuel + 1, seen, a :: work =>
    if a ∈ seen then closure next fuel seen work
    else closure next fuel (a :: seen) (next a ++ work)

namespace Flow
variable (g : Flow)

def size : Nat := g.successors.size

def next (b : BlockId) : List BlockId := g.successors[b]?.getD []

def Edge (u v : BlockId) : Prop := v ∈ g.next u

instance (u v : BlockId) : Decidable (g.Edge u v) := inferInstanceAs (Decidable (_ ∈ _))

/-- All edges, by source block and then by place among its successors. -/
def edges : List (BlockId × BlockId) :=
  (List.range g.size).flatMap fun u => (g.next u).map (u, ·)

/-- The blocks with `b` among their successors, in ascending order. -/
def predecessors (b : BlockId) : List BlockId :=
  (List.range g.size).filter fun u => (g.next u).contains b

def fileEdge (e : BlockId × BlockId) :
    List (BlockId × List BlockId) → List (BlockId × List BlockId)
  | [] => [(e.2, [e.1])]
  | (b, us) :: rest =>
    if b = e.2 then (b, us ++ [e.1]) :: rest else (b, us) :: fileEdge e rest

/-- The sources of the edges into each block that is a target, filed edge by edge. -/
def predecessorMap : List (BlockId × List BlockId) :=
  g.edges.foldl (fun m e => fileEdge e m) []

/-- A bound on the pops of a work list that starts with `roots` and follows each edge at most
once. -/
def searchBound (roots : List BlockId) : Nat := roots.length + g.edges.length + 1

def reached : List BlockId :=
  closure g.next (g.searchBound [g.entry]) [] [g.entry]

def isReachable (b : BlockId) : Bool := g.reached.contains b

end Flow
end LoopStride
