import LoopStride.Func
import LoopStride.Proofs.Dominators.Sweeps

/-! The links that the sweeps settle on are the immediate dominators, on every graph, so that the
check along a chain of links is dominance itself. -/
namespace LoopStride
variable {g : Flow} {m : Links} {a b d u v : BlockId}

theorem Links.get?_filter_ne (m : Links) (e b : BlockId) :
    Links.get? (m.filter fun l => l.1 != e) b = if b = e then none else m.get? b := by
  induction m with
  | nil => simp [Links.get?]
  | cons l m ih =>
    by_cases hl : l.1 = e
    · rw [List.filter_cons_of_neg (by simp [hl]), ih, Links.get?_cons]
      by_cases hb : b = e <;> simp [hb, hl]
    · rw [List.filter_cons_of_pos (by simp [hl]), Links.get?_cons, Links.get?_cons, ih]
      by_cases hb : b = l.1
      · simp [hb, hl]
      · simp [hb]

namespace Flow

/-- The links after the last sweep, the one from the entry to itself included. -/
theorem exists_settled (g : Flow) : ∃ m : Links, m.Sound g ∧
    (∀ c, g.Reaches c → (m.get? c).isSome) ∧
    (∀ c, m.Passes g g.reversePostorder.length c) ∧
    ∀ b, g.dominators.immediate? b = if b = g.entry then none else m.get? b := by
  set n := g.reversePostorder.length with hn
  obtain ⟨hs, hall, hp⟩ := g.iterate_sweep (n * n + 1)
  refine ⟨_, hs, hall, fun c u hu hw => ?_, fun b => ?_⟩
  · exact hp c u hu (hw.mono ((Nat.le_mul_self n).trans (Nat.le_succ _)))
  · rw [Dominators.immediate?, dominators, settle_eq_iterate, Links.get?_filter_ne]

theorem immediate?_eq_some_iff :
    g.dominators.immediate? b = some d ↔ g.ImmediatelyDominates d b := by
  obtain ⟨m, hm, hall, hp, himm⟩ := g.exists_settled
  have key : ∀ u, b ≠ g.entry → m.get? b = some u → g.ImmediatelyDominates u b :=
    fun u hne hu => hm.immediatelyDominates (hp b) hne hu
  rw [himm]
  constructor
  · intro h
    by_cases hne : b = g.entry
    · simp [hne] at h
    · exact key d hne (by simpa [hne] using h)
  · intro h
    have hne := h.1.ne_entry
    obtain ⟨u, hu⟩ := Option.isSome_iff_exists.mp (hall b h.1.1.1)
    rw [if_neg hne, hu, (key u hne hu).unique h]

theorem immediate?_isSome_iff :
    (g.dominators.immediate? b).isSome ↔ g.Reaches b ∧ b ≠ g.entry := by
  obtain ⟨m, hm, hall, -, himm⟩ := g.exists_settled
  rw [himm]
  by_cases hne : b = g.entry
  · simp [hne]
  · rw [if_neg hne]
    exact ⟨fun h => ⟨hm.reaches h, hne⟩, fun h => hall b h.1⟩

theorem isReachable_iff : g.dominators.isReachable b = true ↔ g.Reaches b := by
  rw [Dominators.isReachable, Bool.or_eq_true, beq_iff_eq, immediate?_isSome_iff]
  refine ⟨?_, fun h => ?_⟩
  · rintro (h | h)
    · exact h ▸ reaches_entry
    · exact h.1
  · by_cases hne : b = g.entry
    · exact .inl hne
    · exact .inr ⟨h, hne⟩

theorem StrictlyDominates.idxOf_lt (h : g.StrictlyDominates a b) :
    g.reversePostorder.idxOf a < g.reversePostorder.idxOf b := by
  obtain ⟨m, hm, hall, -, -⟩ := g.exists_settled
  have hle := hm.rooted.idxOf_le (hm.climbs_dominator h.1 (hall b h.1.1)).1
  refine lt_of_le_of_ne hle fun he => h.2 ?_
  exact (List.idxOf_inj (mem_reversePostorder.mpr h.1.reaches_left)).mp he

theorem mem_chain_iff (n : Nat) : ∀ b, g.Reaches b → g.reversePostorder.idxOf b ≤ n →
    (a ∈ g.dominators.chain n b ↔ g.Dominates a b) := by
  induction n with
  | zero =>
    intro b hb hn
    by_cases hne : g.entry = b
    · subst hne
      simp [Dominators.chain, dominates_entry_iff]
    · have := StrictlyDominates.idxOf_lt ⟨hb.entry_dominates, hne⟩
      omega
  | succ n ih =>
    intro b hb hn
    rw [Dominators.chain]
    cases himm : g.dominators.immediate? b with
    | none =>
      have he : b = g.entry := by
        by_contra hne
        simpa [himm] using immediate?_isSome_iff.mpr ⟨hb, hne⟩
      simp [he, dominates_entry_iff]
    | some up =>
      have hup := immediate?_eq_some_iff.mp himm
      have hlt := hup.1.idxOf_lt
      rw [List.mem_cons, ih up hup.1.1.reaches_left (by omega)]
      constructor
      · rintro (rfl | h)
        · exact hb.dominates_self
        · exact h.trans hup.1.1
      · intro h
        by_cases hab : a = b
        · exact .inl hab
        · exact .inr (hup.2 a ⟨h, hab⟩)

theorem dominates_eq_true_iff : g.dominators.dominates a b = true ↔ g.Dominates a b := by
  rw [Dominators.dominates, Bool.and_eq_true, isReachable_iff, List.contains_iff_mem]
  refine ⟨fun h => ?_, fun h => ⟨h.1, ?_⟩⟩
  · exact (mem_chain_iff _ b h.1 List.idxOf_le_length).mp h.2
  · exact (mem_chain_iff _ b h.1 List.idxOf_le_length).mpr h

instance : Decidable (g.Reaches b) := decidable_of_iff _ isReachable_iff

instance : Decidable (g.Dominates a b) := decidable_of_iff _ dominates_eq_true_iff

end Flow

/-- The check is dominance told by paths, on every graph and for all blocks; and exactly the
reachable blocks but the entry have an immediate dominator, the closest one. -/
theorem Func.dominators_exact (f : Func) (a b : BlockId) :
    (f.flow.dominators.dominates a b = true ↔ f.flow.Dominates a b) ∧
    (∀ d, f.flow.dominators.immediate? b = some d ↔ f.flow.ImmediatelyDominates d b) ∧
    ((f.flow.dominators.immediate? b).isSome = true ↔ f.flow.Reaches b ∧ b ≠ f.entry) :=
  ⟨Flow.dominates_eq_true_iff, fun _ => Flow.immediate?_eq_some_iff, Flow.immediate?_isSome_iff⟩

/-- Two blocks that lead into one another, both reached from the entry. -/
example : (Flow.mk 0 #[[1, 2], [2], [1, 7]]).dominators.links = [(1, 0), (2, 0), (7, 2)] := by
  decide

end LoopStride
