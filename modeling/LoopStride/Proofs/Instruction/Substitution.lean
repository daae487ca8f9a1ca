import LoopStride.Instruction

/-! Replacing operands. An instruction is made up of its operands and its frame. A replacement is made
place by place in the operands and leaves the frame, and this determines what it makes. -/
namespace LoopStride

/-- What an instruction is apart from its operands. -/
structure Frame where
  opcode : Opcode
  predicate : Option CompareOp
  callee : Option String
  size : Option Nat
  /-- The blocks that the values of a merge come from, in order. -/
  origins : List BlockId
  ty : Ty
  comment : Option String
  deriving DecidableEq, Repr

namespace Operation
variable {o o' : Operation}

def predicate? : Operation → Option CompareOp
  | compare op _ _ => some op
  | _ => none

def callee? : Operation → Option String
  | call callee _ => some callee
  | _ => none

def size? : Operation → Option Nat
  | alloca size => some size
  | _ => none

def origins : Operation → List BlockId
  | phi incoming => incoming.map (·.1)
  | _ => []

/-- Merges with the same values from the same blocks are the same. -/
theorem eq_of_incoming {incoming incoming' : List (BlockId × Value)}
    (ho : incoming.map (·.1) = incoming'.map (·.1))
    (hv : incoming.map (·.2) = incoming'.map (·.2)) : incoming = incoming' :=
  (List.zip_of_prod ho hv).trans (List.zip_of_prod rfl rfl).symm

/-- Two operations differ in their operands or in something else that can be told of them. -/
theorem eq_of_operands (hv : o.operands = o'.operands) (hop : o.opcode = o'.opcode)
    (hpredicate : o.predicate? = o'.predicate?) (hcallee : o.callee? = o'.callee?)
    (hsize : o.size? = o'.size?) (horigins : o.origins = o'.origins) : o = o' := by
  cases o with
  | phi incoming =>
    cases o' with
    | phi incoming' => exact congrArg phi (eq_of_incoming horigins hv)
    | _ => cases hop
  | _ => cases o' <;> simp_all [operands, opcode, predicate?, callee?, size?]

end Operation

structure Replacement where
  old : Value
  new : Value
  deriving DecidableEq, Repr

def Replacement.apply (r : Replacement) (v : Value) : Value := if v = r.old then r.new else v

namespace Instruction
variable {i j : Instruction} {old new : Value} {rs : List Replacement}

def frame (i : Instruction) : Frame where
  opcode := i.opcode
  predicate := i.operation.predicate?
  callee := i.operation.callee?
  size := i.operation.size?
  origins := i.operation.origins
  ty := i.ty
  comment := i.comment

def substituteAll (rs : List Replacement) (i : Instruction) : Instruction :=
  rs.foldl (fun i r => i.substitute r.old r.new) i

theorem eq_iff : j = i ↔ j.operands = i.operands ∧ j.frame = i.frame := by
  constructor
  · rintro rfl
    exact ⟨rfl, rfl⟩
  · rintro ⟨hv, hframe⟩
    obtain ⟨hop, hpredicate, hcallee, hsize, horigins, hty, hcomment⟩ := Frame.mk.inj hframe
    have ho := Operation.eq_of_operands hv hop hpredicate hcallee hsize horigins
    obtain ⟨o, ty, comment⟩ := i
    exact (Instruction.mk.injEq ..).mpr ⟨ho, hty, hcomment⟩

theorem frame_substitute : (i.substitute old new).frame = i.frame := by
  obtain ⟨o, ty, comment⟩ := i
  cases o with
  | phi incoming =>
    simp [frame, substitute, opcode, Operation.mapOperands, Operation.opcode, Operation.predicate?,
      Operation.callee?, Operation.size?, Operation.origins, Function.comp_def]
  | _ => rfl

theorem frame_substituteAll : (i.substituteAll rs).frame = i.frame := by
  induction rs generalizing i with
  | nil => rfl
  | cons r rs ih => exact ih.trans frame_substitute

theorem operands_substituteAll :
    (i.substituteAll rs).operands = rs.foldl (fun vs r => vs.map r.apply) i.operands := by
  induction rs generalizing i with
  | nil => rfl
  | cons r rs ih =>
    rw [substituteAll, List.foldl_cons, List.foldl_cons, ← substituteAll, ih, operands_substitute]
    rfl

/-- What a replacement makes of an instruction is the one instruction with the same frame whose
operands are those from before, each `old` among them replaced; and what any number of replacements
make of it is the one whose operands come of making them in the list of operands. -/
theorem substitute_exact (i : Instruction) :
    (∀ old new j, j = i.substitute old new ↔
      j.operands = i.operands.map (fun v => if v = old then new else v) ∧ j.frame = i.frame) ∧
    ∀ rs j, j = i.substituteAll rs ↔
      j.operands = rs.foldl (fun vs r => vs.map r.apply) i.operands ∧ j.frame = i.frame := by
  refine ⟨fun old new j => ?_, fun rs j => ?_⟩
  · rw [eq_iff, operands_substitute, frame_substitute]
  · rw [eq_iff, operands_substituteAll, frame_substituteAll]

/-- Numbers of different widths print alike, but one does not stand for the other. -/
example : ((store (.int 1) (.literal (.int 1 32))).substituteAll
    [⟨.int 1, .result 3⟩, ⟨.literal (.int 1 32), .int 1⟩]).operands = [.int 1, .result 3] := by
  decide

end Instruction
end LoopStride
