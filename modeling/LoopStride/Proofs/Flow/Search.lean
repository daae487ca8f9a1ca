import Mathlib.Algebra.BigOperators.Group.Finset.Basic
import Mathlib.Algebra.Order.BigOperators.Group.Finset
import LoopStride.Proofs.Flow.Paths

/-! The work list of `closure` collects all that its items lead to, and nothing else, if it may pop
as often as there are items and edges. -/
namespace LoopStride
variable {next : Nat → List Nat} {seen work : List Nat} {fuel a x y : Nat}

/-- The neighbours still to be put on the work list, over the items of `U` not yet seen. -/
def pending (next : Nat → List Nat) (U : Finset Nat) (seen : List Nat) : Nat :=
  ∑ x ∈ U.filter (· ∉ seen), (next x).length

theorem pending_cons {U : Finset Nat} (hU : ∀ x, x ∉ U → next x = []) (ha : a ∉ seen) :
    (next a).length + pending next U (a :: seen) = pending next U seen := by
  have hf : U.filter (· ∉ a :: seen) = (U.filter (· ∉ seen)).erase a := by
    ext x
    simp only [Finset.mem_filter, Finset.mem_erase, List.mem_cons, not_or]
    tauto
  rw [pending, hf]
  by_cases haU : a ∈ U
  · have ha' : a ∈ U.filter (· ∉ seen) := Finset.mem_filter.mpr ⟨haU, ha⟩
    exact Finset.add_sum_erase _ (fun x => (next x).length) ha'
  · rw [Finset.erase_eq_of_notMem (by simp [haU]), hU a haU]
    simp [pending]

theorem subset_closure (hx : x ∈ seen) : x ∈ closure next fuel seen work := by
  fun_induction closure next fuel seen work with
  | case1 => exact hx
  | case2 => exact hx
  | case3 _ _ _ _ _ ih => exact ih hx
  | case4 _ _ _ _ _ ih => exact ih (List.mem_cons_of_mem _ hx)

/-- With enough pops the result holds the work list and, with each item that was not seen from the
start, its neighbours. -/
theorem closure_closed {U : Finset Nat} (hU : ∀ x, x ∉ U → next x = [])
    (hfuel : work.length + pending next U seen < fuel) :
    (∀ x ∈ work, x ∈ closure next fuel seen work) ∧
      ∀ x ∈ closure next fuel seen work, x ∉ seen →
        ∀ y ∈ next x, y ∈ closure next fuel seen work := by
  fun_induction closure next fuel seen work with
  | case1 => omega
  | case2 => exact ⟨by simp, fun x hx hxs => absurd hx hxs⟩
  | case3 fuel seen a work ha ih =>
    have ih := ih (by simp only [List.length_cons] at hfuel; omega)
    refine ⟨?_, ih.2⟩
    intro x hx
    cases hx with
    | head => exact subset_closure ha
    | tail _ hx => exact ih.1 x hx
  | case4 fuel seen a work ha ih =>
    have hp := pending_cons hU ha
    have ih := ih (by simp only [List.length_cons, List.length_append] at hfuel ⊢; omega)
    constructor
    · intro x hx
      cases hx with
      | head => exact subset_closure (by simp)
      | tail _ hx => exact ih.1 x (List.mem_append_right _ hx)
    · intro x hx hxs y hy
      by_cases hxa : x = a
      · subst hxa
        exact ih.1 y (List.mem_append_left _ hy)
      · exact ih.2 x hx (by simp [hxa, hxs]) y hy

/-- What a search finds was seen from the start or follows from the work list. -/
theorem of_mem_closure (h : x ∈ closure next fuel seen work) :
    x ∈ seen ∨ ∃ r ∈ work, r ∉ seen ∧
      Relation.ReflTransGen (fun u v => v ∈ next u ∧ v ∉ seen) r x := by
  fun_induction closure next fuel seen work with
  | case1 => exact .inl h
  | case2 => exact .inl h
  | case3 fuel seen a work ha ih =>
    refine (ih h).imp_right ?_
    rintro ⟨r, hr, hx⟩
    exact ⟨r, List.mem_cons_of_mem _ hr, hx⟩
  | case4 fuel seen a work ha ih =>
    have weaken : ∀ {u}, Relation.ReflTransGen (fun u v => v ∈ next u ∧ v ∉ a :: seen) u x →
        Relation.ReflTransGen (fun u v => v ∈ next u ∧ v ∉ seen) u x :=
      fun h => Relation.ReflTransGen.mono
        (fun _ _ huv => ⟨huv.1, fun hv => huv.2 (List.mem_cons_of_mem _ hv)⟩) _ _ h
    rcases ih h with hx | ⟨r, hr, hrs, hx⟩
    · cases hx with
      | head => exact .inr ⟨x, by simp, ha, .refl⟩
      | tail _ hx => exact .inl hx
    · have hrs' : r ∉ seen := fun hr' => hrs (List.mem_cons_of_mem _ hr')
      cases List.mem_append.mp hr with
      | inl hr => exact .inr ⟨a, by simp, ha, .head ⟨hr, hrs'⟩ (weaken hx)⟩
      | inr hr => exact .inr ⟨r, List.mem_cons_of_mem _ hr, hrs', weaken hx⟩

/-- The search finds exactly what was seen from the start and what the work list leads to outside
of that. -/
theorem mem_closure_iff {U : Finset Nat} (hU : ∀ x, x ∉ U → next x = [])
    (hfuel : work.length + pending next U seen < fuel) :
    x ∈ closure next fuel seen work ↔ x ∈ seen ∨ ∃ r ∈ work, r ∉ seen ∧
      Relation.ReflTransGen (fun u v => v ∈ next u ∧ v ∉ seen) r x := by
  refine ⟨of_mem_closure, ?_⟩
  have hc := closure_closed hU hfuel
  rintro (hx | ⟨r, hr, hrs, hx⟩)
  · exact subset_closure hx
  · suffices x ∈ closure next fuel seen work ∧ x ∉ seen from this.1
    induction hx with
    | refl => exact ⟨hc.1 r hr, hrs⟩
    | tail _ he ih => exact ⟨hc.2 _ ih.1 ih.2 _ he.1, he.2⟩

namespace Flow
variable {g : Flow} {b u v : BlockId}

theorem mem_edges : (u, v) ∈ g.edges ↔ g.Edge u v := by
  simp only [edges, List.mem_flatMap, List.mem_range, List.mem_map, Prod.mk.injEq, Edge]
  constructor
  · rintro ⟨u', _, v', hv', rfl, rfl⟩
    exact hv'
  · intro h
    refine ⟨u, ?_, v, h, rfl, rfl⟩
    by_contra hu
    simp [next, Array.getElem?_eq_none (by simpa [size] using hu)] at h

theorem Edge.lt_size (h : g.Edge u v) : u < g.size := by
  by_contra hu
  simp [Edge, next, Array.getElem?_eq_none (by simpa [size] using hu)] at h

theorem mem_predecessors : u ∈ g.predecessors b ↔ g.Edge u b := by
  simp only [predecessors, List.mem_filter, List.mem_range, List.contains_iff_mem]
  exact ⟨fun h => h.2, fun h => ⟨h.lt_size, h⟩⟩

/-- Against the edges the neighbours to come are no more than there are edges. -/
theorem pending_back_le {back : BlockId → List BlockId} {seen : List BlockId}
    (hb : ∀ b, (back b).length ≤ (g.predecessors b).length) :
    pending back (g.edges.map (·.2)).toFinset seen ≤ g.edges.length := by
  have hcount : ∀ b, (back b).length ≤ (g.edges.map (·.2)).count b := by
    intro b
    refine (hb b).trans ?_
    simp only [predecessors, edges, List.map_flatMap, List.map_map, Function.comp_def,
      List.map_id', List.count_flatMap]
    induction List.range g.size with
    | nil => simp
    | cons u us ih =>
      rw [List.filter_cons, List.map_cons, List.sum_cons]
      by_cases hu : b ∈ g.next u
      · have := List.count_pos_iff.mpr hu
        simp only [List.contains_iff_mem.mpr hu, if_true, List.length_cons]
        omega
      · simp only [List.contains_eq_mem, hu, decide_false, Bool.false_eq_true, if_false] at ih ⊢
        omega
  calc pending back (g.edges.map (·.2)).toFinset seen
      ≤ ∑ b ∈ (g.edges.map (·.2)).toFinset, (back b).length :=
        Finset.sum_le_sum_of_subset (Finset.filter_subset _ _)
    _ ≤ ∑ b ∈ (g.edges.map (·.2)).toFinset, (g.edges.map (·.2)).count b :=
        Finset.sum_le_sum fun b _ => hcount b
    _ = g.edges.length := by rw [List.sum_toFinset_count_eq_length, List.length_map]

/-- Along the edges the neighbours to come are at first as many as there are edges. -/
theorem pending_next : pending g.next (Finset.range g.size) [] = g.edges.length := by
  simp only [pending, edges, List.length_flatMap, List.length_map, List.not_mem_nil, not_false_eq_true,
    Finset.filter_true]
  rfl

theorem mem_reached : b ∈ g.reached ↔ g.Reaches b := by
  have houtside : ∀ x, x ∉ Finset.range g.size → g.next x = [] := by
    intro x hx
    refine List.eq_nil_iff_forall_not_mem.mpr fun y hy => hx (Finset.mem_range.mpr ?_)
    exact Edge.lt_size (v := y) hy
  have hfuel : [g.entry].length + pending g.next (Finset.range g.size) [] <
      g.searchBound [g.entry] := by
    rw [pending_next, searchBound]
    exact Nat.lt_succ_self _
  rw [reached, mem_closure_iff houtside hfuel, reaches_iff, leads_iff]
  simp [Edge]

theorem isReachable_eq_true_iff : g.isReachable b = true ↔ g.Reaches b := by
  rw [isReachable, List.contains_iff_mem, mem_reached]

end Flow
end LoopStride
