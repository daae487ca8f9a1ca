import Mathlib.Data.Finset.Card
import Mathlib.Data.List.Basic
import LoopStride.Flow.Order
import LoopStride.Proofs.Flow.Search

/-! The reverse postorder lists exactly the reachable blocks, each once and from the entry on, and
every block but the entry stands behind one of its predecessors. -/
namespace LoopStride

/-- What a search from some roots adds: it enters and leaves the blocks `new`, in the order in which
they stand in front of those left before. -/
structure Survey.Extends (g : Flow) (roots : List BlockId) (s s' : Survey) (new : List BlockId) :
    Prop where
  order_eq : s'.order = new ++ s.order
  mem_entered : ∀ x, x ∈ s'.entered ↔ x ∈ new ∨ x ∈ s.entered
  fresh : ∀ x ∈ new, x ∉ s.entered
  nodup : new.Nodup
  roots_entered : ∀ r ∈ roots, r ∈ s'.entered
  next_entered : ∀ x ∈ new, ∀ y, g.Edge x y → y ∈ s'.entered
  parent : ∀ x ∈ new, x ∈ roots ∨ ∃ u, g.Edge u x ∧ [u, x].Sublist new
  reached : ∀ x ∈ new, ∃ r ∈ roots, g.Leads (fun _ => True) r x
  forward : ∀ x ∈ new, ∀ y, g.Edge x y → y ∉ s.entered →
    [x, y].Sublist new ∨ g.Leads (fun _ => True) y x

namespace Survey.Extends
variable {g : Flow} {b : BlockId} {roots roots' new new' : List BlockId} {s s' s'' : Survey}

theorem nothing (s : Survey) : Extends g [] s s [] := by
  constructor <;> simp

theorem skip (hb : b ∈ s.entered) : Extends g [b] s s [] := by
  constructor <;> simp [hb]

theorem entered_subset (h : Extends g roots s s' new) : s.entered ⊆ s'.entered :=
  fun x hx => (h.mem_entered x).mpr (.inr hx)

theorem append (h : Extends g roots s s' new) (h' : Extends g roots' s' s'' new') :
    Extends g (roots ++ roots') s s'' (new' ++ new) where
  order_eq := by rw [h'.order_eq, h.order_eq, List.append_assoc]
  mem_entered x := by rw [h'.mem_entered, h.mem_entered, List.mem_append, or_assoc]
  fresh x hx hs := by
    cases List.mem_append.mp hx with
    | inl hx => exact h'.fresh x hx (h.entered_subset hs)
    | inr hx => exact h.fresh x hx hs
  nodup := by
    refine List.nodup_append'.mpr ⟨h'.nodup, h.nodup, fun x hx' hx => ?_⟩
    exact h'.fresh x hx' ((h.mem_entered x).mpr (.inl hx))
  roots_entered r hr := by
    cases List.mem_append.mp hr with
    | inl hr => exact h'.entered_subset (h.roots_entered r hr)
    | inr hr => exact h'.roots_entered r hr
  next_entered x hx y he := by
    cases List.mem_append.mp hx with
    | inl hx => exact h'.next_entered x hx y he
    | inr hx => exact h'.entered_subset (h.next_entered x hx y he)
  parent x hx := by
    cases List.mem_append.mp hx with
    | inl hx =>
      refine (h'.parent x hx).imp (List.mem_append_right _) ?_
      rintro ⟨u, he, hu⟩
      exact ⟨u, he, hu.trans (List.sublist_append_left _ _)⟩
    | inr hx =>
      refine (h.parent x hx).imp (List.mem_append_left _) ?_
      rintro ⟨u, he, hu⟩
      exact ⟨u, he, hu.trans (List.sublist_append_right _ _)⟩
  reached x hx := by
    cases List.mem_append.mp hx with
    | inl hx =>
      obtain ⟨r, hr, hl⟩ := h'.reached x hx
      exact ⟨r, List.mem_append_right _ hr, hl⟩
    | inr hx =>
      obtain ⟨r, hr, hl⟩ := h.reached x hx
      exact ⟨r, List.mem_append_left _ hr, hl⟩
  forward x hx y he hy := by
    cases List.mem_append.mp hx with
    | inl hx =>
      by_cases hy' : y ∈ s'.entered
      · have hyn : y ∈ new := ((h.mem_entered y).mp hy').resolve_right hy
        exact .inl ((List.singleton_sublist.mpr hx).append (List.singleton_sublist.mpr hyn))
      · exact (h'.forward x hx y he hy').imp_left (·.trans (List.sublist_append_left _ _))
    | inr hx => exact (h.forward x hx y he hy).imp_left (·.trans (List.sublist_append_right _ _))

/-- A block is entered, its successors are searched, and it is left. -/
theorem enter (hb : b ∉ s.entered)
    (h : Extends g (g.next b) ⟨b :: s.entered, s.order⟩ s' new) :
    Extends g [b] s ⟨s'.entered, b :: s'.order⟩ (b :: new) where
  order_eq := by simp [h.order_eq]
  mem_entered x := by
    rw [h.mem_entered, List.mem_cons, List.mem_cons]
    tauto
  fresh x hx hs := by
    cases hx with
    | head => exact hb hs
    | tail _ hx => exact h.fresh x hx (List.mem_cons_of_mem _ hs)
  nodup := List.nodup_cons.mpr ⟨fun hbn => h.fresh b hbn (by simp), h.nodup⟩
  roots_entered r hr := by
    obtain rfl := List.mem_singleton.mp hr
    exact h.entered_subset (by simp)
  next_entered x hx y he := by
    cases hx with
    | head => exact h.roots_entered y he
    | tail _ hx => exact h.next_entered x hx y he
  parent x hx := by
    cases hx with
    | head => exact .inl (by simp)
    | tail _ hx =>
      right
      rcases h.parent x hx with hx' | ⟨u, he, hu⟩
      · exact ⟨b, hx', (List.singleton_sublist.mpr hx).cons_cons b⟩
      · exact ⟨u, he, hu.cons b⟩
  reached x hx := by
    refine ⟨b, by simp, ?_⟩
    cases hx with
    | head => exact .refl trivial
    | tail _ hx =>
      obtain ⟨r, hr, hl⟩ := h.reached x hx
      exact hl.head trivial hr
  forward x hx y he hy := by
    by_cases hyb : y = b
    · subst hyb
      cases hx with
      | head => exact .inr (.refl trivial)
      | tail _ hx =>
        obtain ⟨r, hr, hl⟩ := h.reached x hx
        exact .inr (hl.head trivial hr)
    · have hy' : y ∉ b :: s.entered := by simp [hyb, hy]
      rcases List.mem_cons.mp hx with rfl | hx
      · have hyn := ((h.mem_entered y).mp (h.roots_entered y he)).resolve_right hy'
        exact .inl ((List.singleton_sublist.mpr hyn).cons_cons x)
      · exact (h.forward x hx y he hy').imp_left (·.cons b)

end Survey.Extends

namespace Flow
variable {g : Flow} {b u v x : BlockId}

/-- The existing blocks that a search has not entered. -/
def unentered (g : Flow) (s : Survey) : Nat :=
  ((Finset.range g.size).filter (· ∉ s.entered)).card

theorem unentered_mono {s s' : Survey} (h : s.entered ⊆ s'.entered) :
    g.unentered s' ≤ g.unentered s := by
  refine Finset.card_le_card fun x hx => ?_
  rw [Finset.mem_filter] at hx ⊢
  exact ⟨hx.1, fun hs => hx.2 (h hs)⟩

theorem unentered_lt {s : Survey} (hb : b < g.size) (hs : b ∉ s.entered) :
    g.unentered ⟨b :: s.entered, s.order⟩ < g.unentered s := by
  refine Finset.card_lt_card (Finset.ssubset_iff_of_subset ?_ |>.mpr ⟨b, ?_, ?_⟩)
  · intro x hx
    rw [Finset.mem_filter] at hx ⊢
    exact ⟨hx.1, fun h => hx.2 (List.mem_cons_of_mem _ h)⟩
  · exact Finset.mem_filter.mpr ⟨Finset.mem_range.mpr hb, hs⟩
  · simp

theorem next_eq_nil (hb : ¬ b < g.size) : g.next b = [] := by
  have : g.successors[b]? = none := Array.getElem?_eq_none (by simpa [size] using hb)
  simp [next, this]

theorem survey_extends (depth : Nat) : ∀ (b : BlockId) (s : Survey), g.unentered s < depth →
    ∃ new, Survey.Extends g [b] s (g.survey depth b s) new := by
  induction depth with
  | zero => simp
  | succ depth ih =>
    -- the successors are searched one after another, each with what the last search left
    have fold : ∀ (bs : List BlockId) (s : Survey), g.unentered s < depth →
        ∃ new, Survey.Extends g bs s (bs.foldl (fun s v => g.survey depth v s) s) new := by
      intro bs
      induction bs with
      | nil => exact fun s _ => ⟨[], .nothing s⟩
      | cons b bs ihb =>
        intro s hs
        obtain ⟨new, hn⟩ := ih b s hs
        obtain ⟨new', hn'⟩ := ihb _ ((unentered_mono hn.entered_subset).trans_lt hs)
        exact ⟨new' ++ new, hn.append hn'⟩
    intro b s hs
    rw [survey]
    by_cases hb : b ∈ s.entered
    · rw [if_pos hb]
      exact ⟨[], .skip hb⟩
    · rw [if_neg hb]
      by_cases hsize : b < g.size
      · obtain ⟨new, hn⟩ := fold (g.next b) ⟨b :: s.entered, s.order⟩
          (by have := unentered_lt hsize hb; omega)
        exact ⟨b :: new, hn.enter hb⟩
      · refine ⟨[b], .enter hb ?_⟩
        rw [next_eq_nil hsize]
        exact .nothing _

theorem reversePostorder_extends :
    ∃ s, Survey.Extends g [g.entry] ⟨[], []⟩ s g.reversePostorder := by
  have hsize : g.unentered ⟨[], []⟩ < g.size + 2 := by
    refine lt_of_le_of_lt (Finset.card_filter_le _ _) ?_
    simp
  obtain ⟨new, hn⟩ := survey_extends (g.size + 2) g.entry ⟨[], []⟩ hsize
  have ho : g.reversePostorder = new := by simpa [reversePostorder] using hn.order_eq
  exact ⟨_, ho ▸ hn⟩

theorem reversePostorder_nodup : g.reversePostorder.Nodup :=
  let ⟨_, h⟩ := reversePostorder_extends
  h.nodup

theorem mem_reversePostorder : b ∈ g.reversePostorder ↔ g.Reaches b := by
  obtain ⟨s, h⟩ := reversePostorder_extends (g := g)
  have hmem : ∀ x, x ∈ s.entered ↔ x ∈ g.reversePostorder := by simpa using h.mem_entered
  constructor
  · intro hb
    obtain ⟨r, hr, hl⟩ := h.reached b hb
    exact (List.mem_singleton.mp hr ▸ hl).reaches
  · intro hb
    refine hb.induct ((hmem _).mp (h.roots_entered _ (by simp))) fun hx he ih => ?_
    exact (hmem _).mp (h.next_entered _ ih _ he)

theorem exists_earlier_predecessor (hb : b ∈ g.reversePostorder) (hne : b ≠ g.entry) :
    ∃ u, g.Edge u b ∧ [u, b].Sublist g.reversePostorder := by
  obtain ⟨s, h⟩ := reversePostorder_extends (g := g)
  exact (h.parent b hb).resolve_left (by simpa using hne)

theorem idxOf_lt_of_sublist {l : List BlockId} (hn : l.Nodup) (h : [u, v].Sublist l) :
    l.idxOf u < l.idxOf v := by
  induction l with
  | nil => simp at h
  | cons x l ih =>
    have hx := (List.nodup_cons.mp hn).1
    cases h with
    | cons _ h =>
      have hu : x ≠ u := fun he => hx (he ▸ h.subset (by simp))
      have hv : x ≠ v := fun he => hx (he ▸ h.subset (by simp))
      rw [List.idxOf_cons_ne _ hu, List.idxOf_cons_ne _ hv]
      exact Nat.succ_lt_succ (ih (List.nodup_cons.mp hn).2 h)
    | cons_cons _ h =>
      have hv : u ≠ v := fun he => hx (he ▸ h.subset (by simp))
      rw [List.idxOf_cons_self, List.idxOf_cons_ne _ hv]
      exact Nat.succ_pos _

/-- An edge leads on in the order, or its target leads back to its source. -/
theorem sublist_or_leads_back (hu : u ∈ g.reversePostorder) (he : g.Edge u v) :
    [u, v].Sublist g.reversePostorder ∨ g.Leads (fun _ => True) v u := by
  obtain ⟨s, h⟩ := reversePostorder_extends (g := g)
  exact h.forward u hu v he (by simp)

theorem reversePostorder_eq_cons : ∃ rest, g.reversePostorder = g.entry :: rest := by
  rw [reversePostorder, survey]
  simp

end Flow
end LoopStride
