import Mathlib.Data.List.TakeWhile
import LoopStride.Proofs.Expr.Meaning
import LoopStride.Proofs.Loops.Natural

/-! Runs of a function over 64-bit words. Arithmetic wraps, what memory, calls and comparisons yield
is left open, and the merges of a block read the edge that is taken all at once. -/
namespace LoopStride

namespace Func
variable (f : Func)

/-- The instructions that a block lists, none if it is missing. -/
def listing (b : BlockId) : List InstId := ((f.block? b).map Block.listing).getD []

def isPhi (id : InstId) : Bool := ((f.inst? id).map Instruction.isPhi).getD false

/-- The values of a merge by the block that control comes from. -/
def incoming (id : InstId) : List (BlockId × Value) :=
  match (f.inst? id).map Instruction.operation with
  | some (.phi incoming) => incoming
  | _ => []

/-- The merges at the head of a block. -/
def merges (b : BlockId) : List InstId := (f.listing b).takeWhile f.isPhi

end Func

/-- The word that an operation yields from the words it reads, if that is determined. -/
def Operation.word? (read : Value → Int64) : Operation → Option Int64
  | .arith .add l r => some (read l + read r)
  | .arith .sub l r => some (read l - read r)
  | .arith .mul l r => some (read l * read r)
  | .arith .shl l r => if 0 ≤ read r ∧ read r < 64 then some (read l <<< read r) else none
  | .cast _ source => some (read source)
  | .address base offset => some (read base + read offset)
  | _ => none

/-- What a run is given: its arguments and the word that the null address is. -/
structure Inputs where
  arg : ParamId → Int64
  null : Int64

structure Machine where
  block : BlockId
  /-- How many of the instructions listed in the block are done. -/
  done : Nat
  /-- The word each instruction yielded last. -/
  value : InstId → Int64
  /-- The rounds of each loop since it was last entered. -/
  round : BlockId → Nat

namespace Machine
variable (f : Func) (inp : Inputs) (s : Machine)

def read : Value → Int64
  | .result id => s.value id
  | .literal (.int c _) => c
  | .literal .null => inp.null
  | .param p => inp.arg p

def reading : Reading := ⟨s.read inp, s.round⟩

/-- The next instruction is `id`, and it yields `w`. -/
def yield (id : InstId) (w : Int64) : Machine :=
  { s with done := s.done + 1, value := fun j => if j = id then w else s.value j }

/-- The words of the merges of `t` when control comes along the edge from the current block. -/
def merged (t : BlockId) (id : InstId) : Int64 :=
  if id ∈ f.merges t then
    match (f.incoming id).lookup s.block with
    | some v => s.read inp v
    | none => s.value id
  else s.value id

/-- Control passes to block `t`. The rounds of its loop count on along an edge back to it, and from
zero otherwise. -/
def enter (t : BlockId) : Machine where
  block := t
  done := (f.merges t).length
  value := s.merged f inp t
  round h := if h = t then if f.flow.BackEdge s.block t then s.round t + 1 else 0 else s.round h

end Machine

/-- The machine can get here from the entry along the edges. -/
inductive Func.Runs (f : Func) (inp : Inputs) : Machine → Prop where
  | start (value : InstId → Int64) :
    Runs f inp ⟨f.entry, (f.merges f.entry).length, value, fun _ => 0⟩
  | exec {s : Machine} {id : InstId} {i : Instruction} {w : Int64} (hs : Runs f inp s)
    (hid : (f.listing s.block)[s.done]? = some id) (hi : f.inst? id = some i)
    (hphi : i.isPhi = false) (hw : ∀ x, i.operation.word? (s.read inp) = some x → w = x) :
    Runs f inp (s.yield id w)
  | jump {s : Machine} {t : BlockId} (hs : Runs f inp s)
    (hdone : s.done = (f.listing s.block).length) (he : f.flow.Edge s.block t) :
    Runs f inp (s.enter f inp t)

variable {f : Func} {inp : Inputs} {s : Machine} {id : InstId} {b : BlockId}

theorem Func.Runs.reaches (h : f.Runs inp s) : f.flow.Reaches s.block := by
  induction h with
  | start value => exact Flow.reaches_entry
  | exec _ _ _ _ _ ih => exact ih
  | jump _ _ he ih => exact ih.next he

theorem Func.mem_merges (h : id ∈ f.merges b) : id ∈ f.listing b ∧ f.isPhi id = true :=
  ⟨(List.takeWhile_sublist _).subset h, List.mem_takeWhile_imp h⟩

theorem Func.incoming_of_phi {i : Instruction} {incoming : List (BlockId × Value)}
    (hi : f.inst? id = some i) (ho : i.operation = .phi incoming) : f.incoming id = incoming := by
  simp [Func.incoming, hi, ho]

theorem Func.exists_mem_arena {i : Instruction} (hi : f.inst? id = some i) :
    ∃ p ∈ f.arena.toList, p.instruction = i := by
  rw [Func.inst?, Option.map_eq_some_iff] at hi
  obtain ⟨p, hp, he⟩ := hi
  rw [← Array.getElem?_toList] at hp
  exact ⟨p, List.mem_of_getElem? hp, he⟩

theorem Func.isPhi_of_inst? {i : Instruction} (hi : f.inst? id = some i) :
    f.isPhi id = i.isPhi := by
  simp [Func.isPhi, hi]

end LoopStride
