import LoopStride.Proofs.Layout.Terms
import LoopStride.Evolution

/-! A function with its blocks numbered otherwise: the same instructions and uses, and the same
control-flow graph up to the numbers. -/
namespace LoopStride

/-- A permutation of the numbers of `n` blocks. The numbers of missing blocks stay. -/
structure Renumbering (n : Nat) where
  perm : Equiv.Perm BlockId
  fixes : ∀ b, n ≤ b → perm b = b

theorem Renumbering.lt_iff {n : Nat} (π : Renumbering n) {b : BlockId} : π.perm b < n ↔ b < n := by
  constructor
  · intro h
    by_contra hb
    rw [π.fixes b (Nat.le_of_not_lt hb)] at h
    exact hb h
  · intro h
    by_contra hb
    have hfix := π.perm.injective (π.fixes _ (Nat.le_of_not_lt hb))
    rw [hfix] at hb
    exact hb h

section
variable (π : Equiv.Perm BlockId)

def Terminator.relabel : Terminator → Terminator
  | .jump t => .jump (π t)
  | .branch c t e => .branch c (π t) (π e)
  | t => t

def Operation.relabel : Operation → Operation
  | .phi incoming => .phi (incoming.map fun e => (π e.1, e.2))
  | o => o

def Instruction.relabel (i : Instruction) : Instruction :=
  { i with operation := i.operation.relabel π }

def Block.relabel (b : Block) : Block := { b with terminator := b.terminator.relabel π }

def Placed.relabel (p : Placed) : Placed := ⟨p.instruction.relabel π, π p.block⟩

end

/-- The function in which block `b` has the number `π b`. -/
def Func.renumber (f : Func) (π : Renumbering f.blocks.size) : Func :=
  { f with
    blocks := (Array.range f.blocks.size).map fun b =>
      ((f.block? (π.perm.symm b)).getD {}).relabel π.perm
    entry := π.perm f.entry
    arena := f.arena.map (Placed.relabel π.perm) }

section
variable {π : Equiv.Perm BlockId}

theorem Terminator.targets_relabel (t : Terminator) : (t.relabel π).targets = t.targets.map π := by
  cases t with
  | branch c t e =>
    by_cases he : t = e <;> simp [relabel, targets, he]
  | _ => rfl

@[simp] theorem Operation.opcode_relabel (o : Operation) : (o.relabel π).opcode = o.opcode := by
  cases o <;> rfl

@[simp] theorem Operation.operands_relabel (o : Operation) :
    (o.relabel π).operands = o.operands := by
  cases o <;> simp [relabel, operands]

@[simp] theorem Instruction.ty_relabel (i : Instruction) : (i.relabel π).ty = i.ty := rfl

@[simp] theorem Instruction.operation_relabel (i : Instruction) :
    (i.relabel π).operation = i.operation.relabel π := rfl

@[simp] theorem Instruction.opcode_relabel (i : Instruction) : (i.relabel π).opcode = i.opcode :=
  i.operation.opcode_relabel

@[simp] theorem Instruction.sources_relabel (i : Instruction) :
    (i.relabel π).sources = i.sources := by
  rw [sources, sources, operands, operands, operation_relabel, Operation.operands_relabel]

end

namespace Func
variable (f : Func) (π : Renumbering f.blocks.size)

@[simp] theorem inst?_renumber (id : InstId) :
    (f.renumber π).inst? id = (f.inst? id).map (Instruction.relabel π.perm) := by
  simp [inst?, renumber, Function.comp_def, Placed.relabel]

@[simp] theorem blockOf?_renumber (id : InstId) :
    (f.renumber π).blockOf? id = (f.blockOf? id).map π.perm := by
  simp [blockOf?, renumber, Function.comp_def, Placed.relabel]

@[simp] theorem size_arena_renumber : (f.renumber π).arena.size = f.arena.size :=
  Array.size_map

@[simp] theorem size_blocks_renumber : (f.renumber π).blocks.size = f.blocks.size := by
  simp [renumber]

theorem block?_renumber (b : BlockId) :
    (f.renumber π).block? (π.perm b) = (f.block? b).map (Block.relabel π.perm) := by
  by_cases hb : b < f.blocks.size
  · have hb' : π.perm b < f.blocks.size := π.lt_iff.mpr hb
    simp [block?, renumber, hb, hb']
  · rw [π.fixes b (Nat.le_of_not_lt hb)]
    simp [block?, renumber, hb]

theorem flow_renumber : f.flow.Renames π.perm (f.renumber π).flow where
  entry := rfl
  next b := by
    have hnext : ∀ (k : Func) b, k.flow.next b = ((k.block? b).map Block.successors).getD [] := by
      intro k b
      rw [Flow.next, flow, block?, Array.getElem?_map]
    rw [hnext, hnext, block?_renumber]
    cases f.block? b with
    | none => rfl
    | some block => exact block.terminator.targets_relabel
  size := by simp [Flow.size, flow]

theorem scope_renumber : (f.scope f.flow.loops).Renames π.perm
    ((f.renumber π).scope (f.renumber π).flow.loops) where
  forest := (f.flow_renumber π).loops
  home := f.blockOf?_renumber π

theorem width?_renumber (v : Value) : (f.renumber π).width? v = f.width? v := by
  cases v with
  | result id =>
    rw [width?, width?, inst?_renumber]
    cases f.inst? id <;> rfl
  | literal l => cases l <;> rfl
  | param p => rfl

end Func
end LoopStride
