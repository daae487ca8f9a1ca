import LoopStride.Block
import LoopStride.Flow

/-! Functions: an arena of instructions, the blocks that list them, and a log of uses.

The log records each operand slot that holds a result when the slot is filled. It only grows, so
`users` gives the readers of an instruction in the order in which they came to read it. -/
namespace LoopStride

structure Placed where
  instruction : Instruction
  block : BlockId
  deriving DecidableEq, Repr

structure Func where
  name : String
  params : Array Ty
  blocks : Array Block
  entry : BlockId
  arena : Array Placed
  /-- Each use as the instruction read and the instruction that reads it. -/
  uses : Array (InstId × InstId)
  deriving DecidableEq, Repr

inductive GrowthError where
  | missingBlock (b : BlockId)
  | missingInstruction (id : InstId)
  | notPhi (id : InstId)
  deriving DecidableEq, Repr

def GrowthError.message : GrowthError → String
  | .missingBlock b => "Block " ++ toString b ++ " does not exist"
  | .missingInstruction id => "Instruction " ++ toString id ++ " does not exist"
  | .notPhi id => "Instruction " ++ toString id ++ " is not a phi"

namespace Func

def empty (name : String) : Func := ⟨name, #[], #[{}], 0, #[], #[]⟩

variable (f : Func)

def inst? (id : InstId) : Option Instruction := f.arena[id]?.map (·.instruction)

theorem lt_size_of_inst? {f : Func} {id : InstId} {i : Instruction} (hi : f.inst? id = some i) :
    id < f.arena.size := by
  rw [inst?, Option.map_eq_some_iff] at hi
  obtain ⟨p, hp, -⟩ := hi
  exact (Array.getElem?_eq_some_iff.mp hp).1

def block? (b : BlockId) : Option Block := f.blocks[b]?

/-- The block an instruction was put into. -/
def blockOf? (id : InstId) : Option BlockId := f.arena[id]?.map (·.block)

def definition? (v : Value) : Option (InstId × Instruction) :=
  v.result?.bind fun id => (f.inst? id).map (id, ·)

/-- The readers of an instruction, once for each slot, in the order recorded. -/
def users (id : InstId) : List InstId :=
  f.uses.toList.filterMap fun u => if u.1 = id then some u.2 else none

def firstUser? (id : InstId) : Option InstId := (f.users id).head?

def listed : List (BlockId × InstId) :=
  f.blocks.toList.zipIdx.flatMap fun (block, b) => block.listing.map (b, ·)

def listedIds : List InstId := f.listed.map (·.2)

def flow : Flow := ⟨f.entry, f.blocks.map Block.successors⟩

theorem edge_iff {f : Func} {b t : BlockId} :
    f.flow.Edge b t ↔ ∃ block, f.blocks[b]? = some block ∧ t ∈ block.successors := by
  rw [Flow.Edge, Flow.next, flow, Array.getElem?_map]
  cases f.blocks[b]? <;> simp

theorem next_nodup (b : BlockId) : (f.flow.next b).Nodup := by
  rw [Flow.next, flow, Array.getElem?_map]
  cases f.blocks[b]? with
  | none => simp
  | some block => exact block.terminator.targets_nodup

/-! ### Growing a function

An operation that may fail gives the function as it leaves it beside its outcome. -/

def addParam (ty : Ty) : Func × ParamId := ({ f with params := f.params.push ty }, f.params.size)

def addBlock (name : Option String) : Func × BlockId :=
  ({ f with blocks := f.blocks.push { name } }, f.blocks.size)

def recordUse (v : Value) (user : InstId) : Func :=
  match v with
  | .result id => { f with uses := f.uses.push (id, user) }
  | _ => f

/-- Puts an instruction into the arena and at the end of its block, and records its operands as
uses. If the block is missing, the instruction stays in the arena alone: no block lists it, and none
of its operands is recorded. -/
def append (b : BlockId) (i : Instruction) : Func × Except GrowthError InstId :=
  let id := f.arena.size
  let placed := { f with arena := f.arena.push ⟨i, b⟩ }
  match f.block? b with
  | none => (placed, .error (.missingBlock b))
  | some block =>
    let listed := { placed with
      blocks := f.blocks.setIfInBounds b { block with listing := block.listing ++ [id] } }
    (i.operands.foldl (fun f v => f.recordUse v id) listed, .ok id)

/-- Adds an edge to a merge that exists already, as a loop needs for the value of the next round. If
it fails, the function stays as it is. -/
def addIncoming (phi : InstId) (b : BlockId) (v : Value) : Func × Except GrowthError Unit :=
  match f.arena[phi]? with
  | none => (f, .error (.missingInstruction phi))
  | some p =>
    match p.instruction.operation with
    | .phi incoming =>
      let merged := { p.instruction with operation := .phi (incoming ++ [(b, v)]) }
      let grown := { f with arena := f.arena.setIfInBounds phi { p with instruction := merged } }
      (grown.recordUse v phi, .ok ())
    | _ => (f, .error (.notPhi phi))

/-- Ends an existing block with `t`; no effect on a missing one. -/
def setTerminator (b : BlockId) (t : Terminator) : Func :=
  { f with blocks := f.blocks.modify b fun block => { block with terminator := t } }

/-- Lists an instruction once more at the end of an existing block. This bypasses the arena and the
use log. -/
def list? (b : BlockId) (id : InstId) : Option (Func × Nat) :=
  (f.block? b).map fun block =>
    let listing := block.listing ++ [id]
    ({ f with blocks := f.blocks.setIfInBounds b { block with listing } }, listing.length)

end Func
end LoopStride
