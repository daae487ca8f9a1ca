import Mathlib.Data.List.Perm.Subperm
import Mathlib.Logic.Function.Iterate
import Mathlib.Logic.Relation
import LoopStride.Access.Trace

/-! The walk backward along the operands comes to an end on every function, whatever cycles its
operands form, and finds exactly what its root draws on. An instruction that a walk passes by because
it is on the path is not lost: the walk is below it, and what it leads to around the path is followed
from there. -/
namespace LoopStride

/-- A path from `a` to another place leaves `a` for the last time. -/
theorem exists_last_departure {α : Type*} {r : α → α → Prop} {a b : α}
    (h : Relation.ReflTransGen r a b) (hne : b ≠ a) :
    ∃ c, r a c ∧ c ≠ a ∧ Relation.ReflTransGen (fun x y => r x y ∧ y ≠ a) c b := by
  induction h with
  | refl => exact absurd rfl hne
  | @tail x y _ hxy ih =>
    by_cases hx : x = a
    · exact ⟨y, hx ▸ hxy, hne, .refl⟩
    · obtain ⟨c, hac, hca, hcx⟩ := ih hx
      exact ⟨c, hac, hca, hcx.tail ⟨hxy, hne⟩⟩

namespace Func

/-- An operand slot of `a` holds the result of `b`, and both exist. -/
def Reads (f : Func) (a b : InstId) : Prop :=
  (∃ i, f.inst? a = some i ∧ b ∈ i.sources) ∧ (f.inst? b).isSome

/-- `a` exists, and `b` is reached from it along operands that exist. -/
def DrawsOn (f : Func) (a b : InstId) : Prop :=
  (f.inst? a).isSome ∧ Relation.ReflTransGen f.Reads a b

/-- The same along operands outside of `path`. -/
def DrawsOnAround (f : Func) (path : List InstId) (a b : InstId) : Prop :=
  (f.inst? a).isSome ∧ a ∉ path ∧
    Relation.ReflTransGen (fun x y => f.Reads x y ∧ y ∉ path) a b

variable {f : Func} {a b id root : InstId} {i : Instruction} {path : List InstId} {depth : Nat}
  {w : Walk} {s : InstSet}

theorem DrawsOn.refl (hi : f.inst? a = some i) : f.DrawsOn a a :=
  ⟨by simp [hi], .refl⟩

theorem DrawsOn.of_source {c : InstId} (h : f.DrawsOn b c) (hi : f.inst? a = some i)
    (hb : b ∈ i.sources) : f.DrawsOn a c :=
  ⟨by simp [hi], h.2.head ⟨⟨i, hi, hb⟩, h.1⟩⟩

/-- A list that holds the operands of all that it holds has all that these draw on. -/
theorem DrawsOn.mem_of_closed {ids : List InstId} (h : f.DrawsOn a b) (ha : a ∈ ids)
    (hclosed : ∀ x ∈ ids, ((f.inst? x).map Instruction.sources).getD [] ⊆ ids) : b ∈ ids := by
  obtain ⟨-, h⟩ := h
  induction h with
  | refl => exact ha
  | tail _ hread ih =>
    obtain ⟨⟨i, hi, hmem⟩, -⟩ := hread
    have hsub := hclosed _ ih
    rw [hi] at hsub
    exact hsub hmem

theorem drawsOnAround_nil : f.DrawsOnAround [] a b ↔ f.DrawsOn a b := by
  simp [DrawsOnAround, DrawsOn]

/-- What an instruction leads to around a path is itself and what its operands lead to around the
path and it. -/
theorem drawsOnAround_iff (hi : f.inst? id = some i) (hid : id ∉ path) :
    f.DrawsOnAround path id b ↔ b = id ∨ ∃ v ∈ i.sources, f.DrawsOnAround (id :: path) v b := by
  constructor
  · rintro ⟨-, -, h⟩
    refine or_iff_not_imp_left.mpr fun hne => ?_
    obtain ⟨v, ⟨hread, hv⟩, hvid, hvb⟩ := exists_last_departure h hne
    obtain ⟨⟨i', hi', hmem⟩, hsome⟩ := hread
    obtain rfl : i = i' := Option.some.inj (hi.symm.trans hi')
    refine ⟨v, hmem, hsome, by simp [hvid, hv], Relation.ReflTransGen.mono ?_ _ _ hvb⟩
    exact fun x y hxy => ⟨hxy.1.1, by simp [hxy.1.2, hxy.2]⟩
  · have hsome : (f.inst? id).isSome := by simp [hi]
    rintro (rfl | ⟨v, hv, hvs, hvp, hvb⟩)
    · exact ⟨hsome, hid, .refl⟩
    · have hvp' : v ∉ path := fun h => hvp (List.mem_cons_of_mem _ h)
      refine ⟨hsome, hid, .head ⟨⟨⟨i, hi, hv⟩, hvs⟩, hvp'⟩ (Relation.ReflTransGen.mono ?_ _ _ hvb)⟩
      exact fun x y hxy => ⟨hxy.1, fun h => hxy.2 (List.mem_cons_of_mem _ h)⟩

/-! ### What a walk finds -/

/-- The path of a walk: instructions that exist, each once. -/
structure IsTrail (f : Func) (path : List InstId) : Prop where
  nodup : path.Nodup
  lt_size : ∀ id ∈ path, id < f.arena.size

theorem IsTrail.nil : f.IsTrail [] := ⟨.nil, by simp⟩

theorem IsTrail.cons (h : f.IsTrail path) (hi : f.inst? id = some i) (hid : id ∉ path) :
    f.IsTrail (id :: path) where
  nodup := List.nodup_cons.mpr ⟨hid, h.nodup⟩
  lt_size := List.forall_mem_cons.mpr ⟨lt_size_of_inst? hi, h.lt_size⟩

theorem IsTrail.length_le (h : f.IsTrail path) : path.length ≤ f.arena.size := by
  have hsub : path ⊆ List.range f.arena.size := fun id hid => List.mem_range.mpr (h.lt_size id hid)
  simpa using (h.nodup.subperm hsub).length_le

theorem mem_foldl_found {step : Walk → InstId → Walk} {leads : InstId → Prop}
    (hstep : ∀ w v, b ∈ (step w v).found ↔ b ∈ w.found ∨ leads v) (vs : List InstId) (w : Walk) :
    b ∈ (vs.foldl step w).found ↔ b ∈ w.found ∨ ∃ v ∈ vs, leads v := by
  induction vs generalizing w with
  | nil => simp
  | cons v vs ih => simp [ih, hstep, or_assoc]

/-- A walk whose bound on the depth leaves room for every instruction adds exactly what its start
leads to around the path. The induction is on the bound: a trail holds each instruction once, so the
bound is not met. -/
theorem mem_walk_iff (hp : f.IsTrail path) (hd : f.arena.size < depth + path.length) :
    b ∈ (f.walk depth path id w).found ↔ b ∈ w.found ∨ f.DrawsOnAround path id b := by
  induction depth generalizing path id w with
  | zero =>
    have := hp.length_le
    omega
  | succ depth ih =>
    rw [walk]
    cases hi : f.inst? id with
    | none => simp [DrawsOnAround, hi]
    | some i =>
      dsimp only
      split
      · next hid => simp [DrawsOnAround, hid]
      · next hid =>
        have hstep : ∀ w v, b ∈ (f.walk depth (id :: path) v w).found ↔
            b ∈ w.found ∨ f.DrawsOnAround (id :: path) v b := fun w v =>
          ih (hp.cons hi hid) (by rw [List.length_cons]; omega)
        rw [mem_foldl_found hstep, InstSet.mem_insert, drawsOnAround_iff hi hid]
        tauto

theorem mem_walkFrom_iff : b ∈ (f.walkFrom root s).found ↔ b ∈ s ∨ f.DrawsOn root b := by
  rw [walkFrom, mem_walk_iff .nil (by simp), drawsOnAround_nil]

/-! ### The walk on a stack -/

/-- An instruction that a walk is below, and the operands that it has still to follow. -/
structure Frame where
  node : InstId
  pending : List Value

/-- A walk in the middle, with the instructions it is below on a stack. -/
structure Descent where
  stack : List Frame
  walk : Walk

/-- Comes to an instruction: one that is missing or on the stack is passed by. -/
def enter (f : Func) (id : InstId) (d : Descent) : Descent :=
  match f.inst? id with
  | none => d
  | some i =>
    if id ∈ d.stack.map Frame.node then d
    else ⟨⟨id, i.operands⟩ :: d.stack, ⟨d.walk.found.insert id, d.walk.visits + 1⟩⟩

/-- Follows the next operand of the frame on top, or takes the frame away if there is none left. -/
def descend (f : Func) (d : Descent) : Descent :=
  match d.stack with
  | [] => d
  | ⟨_, []⟩ :: rest => { d with stack := rest }
  | ⟨node, v :: vs⟩ :: rest =>
    let d := { d with stack := ⟨node, vs⟩ :: rest }
    match v with
    | .result id => f.enter id d
    | _ => d

/-- After some number of steps the stack is down to `stack`, and the walk is at `w`. -/
def ComesTo (f : Func) (d : Descent) (stack : List Frame) (w : Walk) : Prop :=
  ∃ n, f.descend^[n] d = ⟨stack, w⟩

theorem ComesTo.head {d : Descent} {stack : List Frame} (h : f.ComesTo (f.descend d) stack w) :
    f.ComesTo d stack w := by
  obtain ⟨n, hn⟩ := h
  exact ⟨n + 1, hn⟩

theorem ComesTo.trans {d : Descent} {stack stack' : List Frame} {w' : Walk}
    (h : f.ComesTo d stack w) (h' : f.ComesTo ⟨stack, w⟩ stack' w') : f.ComesTo d stack' w' := by
  obtain ⟨m, hm⟩ := h
  obtain ⟨n, hn⟩ := h'
  exact ⟨n + m, by rw [Function.iterate_add_apply, hm, hn]⟩

/-- If each operand that is entered is done with after some steps, so is the whole frame. -/
theorem comesTo_foldl {node : InstId} {stack : List Frame} {step : Walk → InstId → Walk}
    (hstep : ∀ v vs w, f.ComesTo (f.enter v ⟨⟨node, vs⟩ :: stack, w⟩) (⟨node, vs⟩ :: stack)
      (step w v)) (vs : List Value) (w : Walk) :
    f.ComesTo ⟨⟨node, vs⟩ :: stack, w⟩ stack ((vs.filterMap Value.result?).foldl step w) := by
  induction vs generalizing w with
  | nil => exact ⟨1, rfl⟩
  | cons v vs ih =>
    refine .head ?_
    cases v with
    | result id => exact (hstep id vs w).trans (ih _)
    | literal l => exact ih w
    | param p => exact ih w

/-- With its frames on a stack and no bound on the depth, a walk takes finitely many steps and does
the same. -/
theorem comesTo_walk (stack : List Frame) (hp : f.IsTrail (stack.map Frame.node))
    (hd : f.arena.size < depth + stack.length) :
    f.ComesTo (f.enter id ⟨stack, w⟩) stack (f.walk depth (stack.map Frame.node) id w) := by
  induction depth generalizing stack id w with
  | zero =>
    have := hp.length_le
    rw [List.length_map] at this
    omega
  | succ depth ih =>
    rw [walk, enter]
    cases hi : f.inst? id with
    | none => exact ⟨0, rfl⟩
    | some i =>
      dsimp only
      split
      · exact ⟨0, rfl⟩
      · next hid =>
        refine comesTo_foldl (fun v vs w => ?_) i.operands _
        exact ih (⟨id, vs⟩ :: stack) (hp.cons hi hid) (by rw [List.length_cons]; omega)

/-- The walk from `root` on a stack ends with the stack empty. -/
theorem comesTo_walkFrom (f : Func) (root : InstId) (s : InstSet) :
    f.ComesTo (f.enter root ⟨[], ⟨s, 0⟩⟩) [] (f.walkFrom root s) :=
  comesTo_walk [] .nil (by simp)

/-! ### All roots -/

theorem mem_addressRoots_iff :
    root ∈ f.addressRoots ↔ root ∈ f.listedIds ∧ ∃ i, f.inst? root = some i ∧ i.formsPointer := by
  rw [addressRoots, List.mem_filter]
  cases f.inst? root <;> simp

theorem mem_foldl_traceRoot (roots : List InstId) (t : InstSet × List Note) :
    b ∈ (roots.foldl f.traceRoot t).1 ↔ b ∈ t.1 ∨ ∃ root ∈ roots, f.DrawsOn root b := by
  induction roots generalizing t with
  | nil => simp
  | cons root roots ih => simp [ih, traceRoot, mem_walkFrom_iff, or_assoc]

theorem mem_traceAccesses_iff {config : Config} (h : config.isIntrinsic f.name = false) :
    b ∈ (f.traceAccesses config).1 ↔
      ∃ root ∈ f.listedIds, (∃ i, f.inst? root = some i ∧ i.formsPointer) ∧ f.DrawsOn root b := by
  rw [traceAccesses, h]
  simp [mem_foldl_traceRoot, mem_addressRoots_iff, and_assoc]

/-- In a function that is no intrinsic, the trace ends and holds exactly what the listed conversions
to an address draw on; in an intrinsic it is empty. -/
theorem traceAccesses_exact (f : Func) (config : Config) :
    (config.isIntrinsic f.name = true → (f.traceAccesses config).1 = ∅) ∧
    (config.isIntrinsic f.name = false →
      (∀ root s, f.ComesTo (f.enter root ⟨[], ⟨s, 0⟩⟩) [] (f.walkFrom root s)) ∧
      ∀ b, b ∈ (f.traceAccesses config).1 ↔
        ∃ root ∈ f.listedIds, (∃ i, f.inst? root = some i ∧ i.formsPointer) ∧
          f.DrawsOn root b) :=
  ⟨fun h => by rw [traceAccesses, if_pos h],
    fun h => ⟨f.comesTo_walkFrom, fun _ => mem_traceAccesses_iff h⟩⟩

end Func
end LoopStride
