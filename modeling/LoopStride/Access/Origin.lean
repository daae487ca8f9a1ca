import LoopStride.Evolution
import LoopStride.Fault

/-! The loop variable that a recurrence starts from. -/
namespace LoopStride

/-- An addition whose address follows a recurrence with constant start and step. -/
structure Candidate where
  instruction : InstId
  degree : Degree
  descriptor : Recurrence
  origin : Option InstId
  gain : Int
  deriving DecidableEq, Repr

namespace Func
variable (f : Func)

def followExtensions : Nat → Value → Except Fault (Option InstId)
  | 0, v => .error (.violation .endlessExtensionChain v)
  | fuel + 1, v =>
    match f.definition? v with
    | none => .error (.violation .brokenExtensionChain v)
    | some (id, i) =>
      match i.operation with
      | .cast op source => if op.isWidening then followExtensions fuel source else .ok none
      | .phi _ => .ok (some id)
      | _ => .ok none

/-- The merge at the end of a chain of extensions. A chain longer than the function has
instructions goes round in a circle. -/
def extensionOrigin (v : Value) : Except Fault (Option InstId) :=
  f.followExtensions (f.arena.size + 1) v

def firstOrigin : List InstId → Except Fault (Option InstId)
  | [] => .ok none
  | id :: rest =>
    match f.extensionOrigin (.result id) with
    | .error e => .error e
    | .ok (some phi) => .ok (some phi)
    | .ok none => firstOrigin rest

/-- The factors of the products that an addition adds, as far as they evolve in the loop with this
header. A shift counts as a product. -/
def varyingFactors (oracle : Oracle) (header : BlockId) (addition : Instruction) : List InstId :=
  let products := addition.sources.filterMap f.inst? |>.filter fun p =>
    p.opcode == .arith .mul || p.opcode == .arith .shl
  products.flatMap fun p => p.sources.filter fun id =>
    ((oracle.recurrence? id).map fun r => r.header == header).getD false

def originOf (oracle : Oracle) (header : BlockId) (id : InstId) :
    Except Fault (Option InstId) :=
  match f.inst? id with
  | none => .ok none
  | some addition => f.firstOrigin (f.varyingFactors oracle header addition)

end Func
end LoopStride
