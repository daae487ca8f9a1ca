import LoopStride.InstSet
import LoopStride.Config
import LoopStride.Func.Printer
import LoopStride.Journal

/-! Which instructions take part in computing addresses. From each conversion of an integer to an
address a depth-first walk goes backward along the operands. An instruction is shut to the walk only
while the walk is below it: cycles end, and what two operands share is walked from both. -/
namespace LoopStride

structure Walk where
  found : InstSet
  visits : Nat

namespace Func
variable (f : Func)

/-- Walks backward from `id` below the instructions of `path`. -/
def walk : Nat → List InstId → InstId → Walk → Walk
  | 0, _, _, w => w
  | depth + 1, path, id, w =>
    match f.inst? id with
    | none => w
    | some i =>
      if id ∈ path then w
      else
        i.sources.foldl (fun w v => walk depth (id :: path) v w) ⟨w.found.insert id, w.visits + 1⟩

/-- Adds to a set all that the walk from `root` comes to. The path of a walk holds existing
instructions, each once, so its length is bounded by their number. -/
def walkFrom (root : InstId) (s : InstSet) : Walk := f.walk (f.arena.size + 1) [] root ⟨s, 0⟩

def addressRoots : List InstId :=
  f.listedIds.filter fun id => ((f.inst? id).map Instruction.formsPointer).getD false

def traceRoot (s : InstSet × List Note) (root : InstId) : InstSet × List Note :=
  let w := f.walkFrom root s.1
  (w.found, s.2 ++
    [.diagnostic ("address root [" ++ f.renderInst root ++ "], tracing its operands"),
     .trace ("root " ++ LoopStride.renderInst root ++ " took " ++ toString w.visits ++ " visits")])

/-- The instructions of a function that take part in computing addresses; none of an intrinsic. -/
def traceAccesses (config : Config) : InstSet × List Note :=
  if config.isIntrinsic f.name then
    (∅, [.diagnostic ("skipping intrinsic function '" ++ f.name ++ "'")])
  else
    let (s, notes) := f.addressRoots.foldl f.traceRoot
      (∅, [.diagnostic ("tracing memory accesses in function '" ++ f.name ++ "'")])
    (s, notes ++
      [.diagnostic (toString s.size ++ " access-related instructions in '" ++ f.name ++ "'")])

end Func
end LoopStride
