import Mathlib.Data.List.Basic
import LoopStride.Dominators
import LoopStride.Proofs.Flow.Order

/-! Links as a tree: each linked block but the entry is linked to a linked block that comes earlier
in the order. Two chains then meet in their lowest common block, and no lookup on the way fails. -/
namespace LoopStride
variable {m : Links} {order : List BlockId} {entry a b c d p q u v : BlockId}

theorem Links.get?_cons (e : BlockId × BlockId) (m : Links) (c : BlockId) :
    Links.get? (e :: m) c = if c = e.1 then some e.2 else m.get? c := by
  obtain ⟨x, y⟩ := e
  by_cases h : c = x
  · simp [Links.get?, h]
  · have hc : (c == x) = false := by simpa using h
    simp [Links.get?, List.lookup_cons, h, hc]

theorem Links.get?_set (m : Links) (b up c : BlockId) :
    (m.set b up).get? c = if c = b then some up else m.get? c := by
  induction m with
  | nil => simp [Links.set, Links.get?_cons]
  | cons e m ih =>
    by_cases hx : e.1 = b
    · by_cases h : c = b <;> simp [Links.set, Links.get?_cons, hx, h]
    · by_cases h : c = e.1
      · simp [Links.set, Links.get?_cons, hx, h]
      · simp [Links.set, Links.get?_cons, hx, h, ih]

theorem idxOf?_eq_some_idxOf {l : List Nat} (h : a ∈ l) : l.idxOf? a = some (l.idxOf a) := by
  induction l with
  | nil => simp at h
  | cons x l ih =>
    by_cases hx : x = a
    · simp [List.idxOf?_cons, hx]
    · have ha := (List.mem_cons.mp h).resolve_left (Ne.symm hx)
      simp [List.idxOf?_cons, hx, ih ha]

namespace Links

/-- The links lead from `b` to `u`, in any number of steps. -/
def Climbs (m : Links) (b u : BlockId) : Prop :=
  Relation.ReflTransGen (fun x y => m.get? x = some y) b u

/-- The entry is linked to itself, and any other linked block to an earlier one. -/
structure Rooted (m : Links) (entry : BlockId) (order : List BlockId) : Prop where
  root : m.get? entry = some entry
  first : order.idxOf entry = 0
  mem_order : ∀ {b u}, m.get? b = some u → b ∈ order
  earlier : ∀ {b u}, m.get? b = some u → b ≠ entry →
    (m.get? u).isSome ∧ order.idxOf u < order.idxOf b

/-- `d` is the lowest block that the links lead to from all blocks with property `S`. -/
structure Meets (m : Links) (S : BlockId → Prop) (d : BlockId) : Prop where
  common : ∀ {q}, S q → m.Climbs q d
  lowest : ∀ {v}, (∀ q, S q → m.Climbs q v) → m.Climbs d v

theorem Climbs.cases (h : m.Climbs b v) : b = v ∨ ∃ u, m.get? b = some u ∧ m.Climbs u v := by
  rcases Relation.ReflTransGen.cases_head h with h | ⟨u, hu, h⟩
  · exact .inl h
  · exact .inr ⟨u, hu, h⟩

theorem Meets.swap (h : m.Meets (fun q => q = a ∨ q = b) d) : m.Meets (fun q => q = b ∨ q = a) d :=
  ⟨fun hq => h.common hq.symm, fun hv => h.lowest fun q hq => hv q hq.symm⟩

namespace Rooted
variable (hm : m.Rooted entry order)
include hm

theorem climbs_isSome (hb : (m.get? b).isSome) (h : m.Climbs b u) : (m.get? u).isSome := by
  induction h with
  | refl => exact hb
  | @tail x y _ he ih =>
    by_cases hx : x = entry
    · subst hx
      rw [hm.root, Option.some.injEq] at he
      exact he ▸ ih
    · exact (hm.earlier he hx).1

theorem idxOf_le (h : m.Climbs b u) : order.idxOf u ≤ order.idxOf b := by
  induction h with
  | refl => exact le_rfl
  | @tail x y _ he ih =>
    by_cases hx : x = entry
    · subst hx
      rw [hm.root, Option.some.injEq] at he
      exact he ▸ ih
    · exact (hm.earlier he hx).2.le.trans ih

theorem eq_of_climbs_entry (h : m.Climbs entry u) : u = entry := by
  induction h with
  | refl => rfl
  | tail _ he ih =>
    subst ih
    rw [hm.root, Option.some.injEq] at he
    exact he.symm

/-- The later of two blocks is not above the other, so it may move up. -/
theorem meets_up (hu : m.get? a = some u) (hlt : order.idxOf b < order.idxOf a)
    (h : m.Meets (fun q => q = u ∨ q = b) d) : m.Meets (fun q => q = a ∨ q = b) d := by
  refine ⟨?_, fun {v} hv => h.lowest ?_⟩
  · rintro q (rfl | rfl)
    · exact .head hu (h.common (.inl rfl))
    · exact h.common (.inr rfl)
  · rintro q (rfl | rfl)
    · cases (hv a (.inl rfl)).cases with
      | inl hav =>
        have := hm.idxOf_le (hv b (.inr rfl))
        rw [hav] at hlt
        omega
      | inr hc =>
        obtain ⟨x, hx, hc⟩ := hc
        rw [hu, Option.some.injEq] at hx
        exact hx ▸ hc
    · exact hv q (.inr rfl)

theorem meet_eq_some (fuel : Nat) : ∀ (a b : BlockId), (m.get? a).isSome → (m.get? b).isSome →
    order.idxOf a + order.idxOf b < fuel →
    ∃ d, meet order.idxOf? m.get? fuel a b = some d ∧ m.Meets (fun q => q = a ∨ q = b) d := by
  -- each move takes one of the two to an earlier place in the order
  induction fuel with
  | zero => simp
  | succ fuel ih =>
    intro a b ha hb hfuel
    obtain ⟨up, hup⟩ := Option.isSome_iff_exists.mp ha
    obtain ⟨vp, hvp⟩ := Option.isSome_iff_exists.mp hb
    have hia := idxOf?_eq_some_idxOf (hm.mem_order hup)
    have hib := idxOf?_eq_some_idxOf (hm.mem_order hvp)
    rw [meet]
    by_cases hab : a = b
    · refine ⟨a, by simp [hab], ?_, fun h => h a (.inl rfl)⟩
      rintro q (rfl | rfl)
      · exact .refl
      · exact hab ▸ .refl
    · rcases Nat.lt_trichotomy (order.idxOf b) (order.idxOf a) with hlt | heq | hlt
      · have hne : a ≠ entry := by rintro rfl; have := hm.first; omega
        obtain ⟨hs, hi⟩ := hm.earlier hup hne
        obtain ⟨d, hd, hmeet⟩ := ih up b hs hb (by omega)
        exact ⟨d, by simp [hab, hia, hib, hlt, hup, hd], hm.meets_up hup hlt hmeet⟩
      · have := (List.idxOf_inj (hm.mem_order hvp)).mp heq
        exact absurd this.symm hab
      · have hne : b ≠ entry := by rintro rfl; have := hm.first; omega
        have hnlt : ¬ order.idxOf b < order.idxOf a := by omega
        obtain ⟨hs, hi⟩ := hm.earlier hvp hne
        obtain ⟨d, hd, hmeet⟩ := ih a vp ha hs (by omega)
        exact ⟨d, by simp [hab, hia, hib, hlt, hnlt, hvp, hd], (hm.meets_up hvp hlt hmeet.swap).swap⟩

theorem meetAt_eq_some (ha : (m.get? a).isSome) (hb : (m.get? b).isSome) :
    ∃ d, meetAt order m a b = some d ∧ m.Meets (fun q => q = a ∨ q = b) d := by
  have bound : ∀ {x}, (m.get? x).isSome → order.idxOf x < order.length := by
    intro x hx
    obtain ⟨u, hu⟩ := Option.isSome_iff_exists.mp hx
    exact List.idxOf_lt_length_of_mem (hm.mem_order hu)
  have hia := bound ha
  have hib := bound hb
  exact hm.meet_eq_some _ a b ha hb (by omega)

theorem foldlM_meetAt (ps : List BlockId) : ∀ (p : BlockId), (∀ q ∈ p :: ps, (m.get? q).isSome) →
    ∃ d, ps.foldlM (fun d q => meetAt order m q d) p = some d ∧ m.Meets (· ∈ p :: ps) d := by
  induction ps with
  | nil =>
    intro p _
    refine ⟨p, rfl, fun hq => ?_, fun h => h p (by simp)⟩
    rw [List.mem_singleton.mp hq]
    exact .refl
  | cons q ps ih =>
    intro p hs
    obtain ⟨e, he, hq⟩ := hm.meetAt_eq_some (hs q (by simp)) (hs p (by simp))
    have hes : (m.get? e).isSome := hm.climbs_isSome (hs q (by simp)) (hq.common (.inl rfl))
    obtain ⟨d, hd, hmeet⟩ := ih e (by
      intro x hx
      rcases List.mem_cons.mp hx with rfl | hx
      · exact hes
      · exact hs x (by simp [hx]))
    have hed := hmeet.common (q := e) (by simp)
    refine ⟨d, by simp [List.foldlM_cons, he, hd], fun {x} hx => ?_, fun {v} h => ?_⟩
    · cases hx with
      | head => exact (hq.common (.inr rfl)).trans hed
      | tail _ hx =>
        cases hx with
        | head => exact (hq.common (.inl rfl)).trans hed
        | tail _ hx => exact hmeet.common (List.mem_cons_of_mem _ hx)
    · refine hmeet.lowest fun x hx => ?_
      rcases List.mem_cons.mp hx with rfl | hx
      · refine hq.lowest ?_
        rintro y (rfl | rfl)
        · exact h _ (by simp)
        · exact h _ (by simp)
      · exact h x (by simp [hx])

/-- A block with a linked predecessor is linked to the meeting point of all linked predecessors. -/
theorem relink_eq_set {g : Flow} (hp : g.Edge p b) (hs : (m.get? p).isSome) :
    ∃ d, g.relink order m b = m.set b d ∧
      m.Meets (fun q => g.Edge q b ∧ (m.get? q).isSome) d := by
  have hmem : ∀ q, q ∈ (g.predecessors b).filter (fun q => (m.get? q).isSome) ↔
      g.Edge q b ∧ (m.get? q).isSome := by
    simp [Flow.mem_predecessors]
  rw [Flow.relink]
  cases hl : (g.predecessors b).filter (fun q => (m.get? q).isSome) with
  | nil => simpa [hl] using (hmem p).mpr ⟨hp, hs⟩
  | cons q qs =>
    rw [hl] at hmem
    obtain ⟨d, hd, hmeet⟩ := hm.foldlM_meetAt qs q fun x hx => ((hmem x).mp hx).2
    refine ⟨d, by simp [hd], fun hx => hmeet.common ((hmem _).mpr hx), fun h => ?_⟩
    exact hmeet.lowest fun x hx => h x ((hmem x).mp hx)

end Rooted
end Links
end LoopStride
