import Mathlib.Logic.Relation
import Mathlib.Tactic.ByContra
import LoopStride.Flow

/-! Paths along the edges of a graph, and dominance told by paths: a block dominates another if
every path from the entry to the second passes through the first. -/
namespace LoopStride.Flow
variable {g : Flow} {P Q : BlockId → Prop} {a b c h u v w : BlockId}

/-- A path from one block to another, as the blocks on it, both ends included. -/
inductive Path (g : Flow) : BlockId → BlockId → List BlockId → Prop where
  | here (b : BlockId) : Path g b b [b]
  | step {u v w : BlockId} {p : List BlockId} :
      g.Edge u v → Path g v w p → Path g u w (u :: p)

/-- Some path leads from the entry to `b`. -/
def Reaches (g : Flow) (b : BlockId) : Prop := ∃ p, g.Path g.entry b p

/-- Some path leads from the entry to `b`, and every such path passes through `a`. -/
def Dominates (g : Flow) (a b : BlockId) : Prop :=
  g.Reaches b ∧ ∀ p, g.Path g.entry b p → a ∈ p

def StrictlyDominates (g : Flow) (a b : BlockId) : Prop := g.Dominates a b ∧ a ≠ b

/-- Some path from `u` to `v` keeps to blocks with property `P`. -/
def Leads (g : Flow) (P : BlockId → Prop) (u v : BlockId) : Prop :=
  ∃ p, g.Path u v p ∧ ∀ b ∈ p, P b

/-! ### Paths that keep to a property -/

theorem Path.start_mem {p : List BlockId} (h : g.Path u v p) : u ∈ p := by
  cases h <;> simp

theorem Path.start_suffix {p : List BlockId} (h : g.Path v w p) (hu : u ∈ p) :
    ∃ q, g.Path u w q ∧ q <:+ p := by
  induction h with
  | here b =>
    obtain rfl := List.mem_singleton.mp hu
    exact ⟨_, .here u, List.suffix_rfl⟩
  | step he hp ih =>
    cases hu with
    | head => exact ⟨_, .step he hp, List.suffix_rfl⟩
    | tail _ hu =>
      obtain ⟨q, hq, hs⟩ := ih hu
      exact ⟨q, hq, hs.trans (List.suffix_cons _ _)⟩

/-- A path can be cut short until no block is on it twice. -/
theorem Path.exists_nodup {p : List BlockId} (h : g.Path u v p) :
    ∃ q, g.Path u v q ∧ q.Nodup ∧ q ⊆ p := by
  induction h with
  | here b => exact ⟨[b], .here b, by simp, List.Subset.refl _⟩
  | @step x _ _ _ he _ ih =>
    obtain ⟨q, hq, hn, hs⟩ := ih
    by_cases hx : x ∈ q
    · obtain ⟨r, hr, hrq⟩ := hq.start_suffix hx
      exact ⟨r, hr, hn.sublist hrq.sublist, fun y hy => List.mem_cons_of_mem _ (hs (hrq.subset hy))⟩
    · exact ⟨x :: q, .step he hq, List.nodup_cons.mpr ⟨hx, hn⟩, List.cons_subset_cons _ hs⟩

theorem Leads.refl (h : P u) : g.Leads P u u := ⟨[u], .here u, by simpa using h⟩

theorem Leads.head (hu : P u) (he : g.Edge u v) : g.Leads P v w → g.Leads P u w := by
  rintro ⟨p, hp, hP⟩
  exact ⟨u :: p, .step he hp, by simpa using ⟨hu, hP⟩⟩

theorem Leads.left : g.Leads P u v → P u := by
  rintro ⟨p, hp, hP⟩
  exact hP u hp.start_mem

theorem leads_iff : g.Leads P u v ↔
    P u ∧ Relation.ReflTransGen (fun x y => g.Edge x y ∧ P y) u v := by
  constructor
  · rintro ⟨p, hp, hP⟩
    refine ⟨hP u hp.start_mem, ?_⟩
    induction hp with
    | here b => exact .refl
    | step he hp ih =>
      have hP' := fun b hb => hP b (List.mem_cons_of_mem _ hb)
      exact .head ⟨he, hP' _ hp.start_mem⟩ (ih hP')
  · rintro ⟨hu, h⟩
    induction h using Relation.ReflTransGen.head_induction_on with
    | refl => exact .refl hu
    | head he _ ih => exact .head hu he.1 (ih he.2)

theorem Leads.right (h : g.Leads P u v) : P v := by
  obtain ⟨hu, h⟩ := leads_iff.mp h
  cases h with
  | refl => exact hu
  | tail _ he => exact he.2

theorem Leads.tail (h : g.Leads P u v) (he : g.Edge v w) (hw : P w) : g.Leads P u w := by
  obtain ⟨hu, h⟩ := leads_iff.mp h
  exact leads_iff.mpr ⟨hu, h.tail ⟨he, hw⟩⟩

theorem Leads.trans (h : g.Leads P u v) (h' : g.Leads P v w) : g.Leads P u w := by
  obtain ⟨hu, h⟩ := leads_iff.mp h
  exact leads_iff.mpr ⟨hu, h.trans (leads_iff.mp h').2⟩

theorem Leads.mono (hPQ : ∀ b, P b → Q b) : g.Leads P u v → g.Leads Q u v := by
  rintro ⟨p, hp, hP⟩
  exact ⟨p, hp, fun b hb => hPQ b (hP b hb)⟩

/-- What holds at the start and along each edge of the path holds at its end. -/
theorem Leads.induct {C : BlockId → Prop} (h : g.Leads P u w) (start : P u → C u)
    (step : ∀ {x y}, g.Leads P u x → g.Edge x y → P y → C x → C y) : C w := by
  replace h := leads_iff.mp h
  obtain ⟨hu, h⟩ := h
  induction h with
  | refl => exact start hu
  | tail hx he ih => exact step (leads_iff.mpr ⟨hu, hx⟩) he.1 he.2 ih

/-- The same from the end of the path backward. -/
theorem Leads.induct_back {C : BlockId → Prop} (h : g.Leads P u w) (stop : P w → C w)
    (step : ∀ {x y}, P x → g.Edge x y → g.Leads P y w → C y → C x) : C u := by
  obtain ⟨p, hp, hP⟩ := h
  induction hp with
  | here b => exact stop (hP b (by simp))
  | step he hp ih =>
    have hP' := fun b hb => hP b (List.mem_cons_of_mem _ hb)
    exact step (hP _ (by simp)) he ⟨_, hp, hP'⟩ (ih stop step hP')

theorem reaches_iff : g.Reaches b ↔ g.Leads (fun _ => True) g.entry b := by
  simp [Reaches, Leads]

theorem Leads.reaches (h : g.Leads P g.entry b) : g.Reaches b :=
  reaches_iff.mpr (h.mono fun _ _ => trivial)

theorem reaches_entry : g.Reaches g.entry := ⟨_, .here _⟩

theorem Reaches.next (h : g.Reaches u) (he : g.Edge u v) : g.Reaches v :=
  reaches_iff.mpr ((reaches_iff.mp h).tail he trivial)

theorem Reaches.induct {C : BlockId → Prop} (h : g.Reaches w) (start : C g.entry)
    (step : ∀ {x y}, g.Reaches x → g.Edge x y → C x → C y) : C w :=
  (reaches_iff.mp h).induct (fun _ => start) fun hx he _ => step hx.reaches he

/-! ### Dominance -/

theorem dominates_iff : g.Dominates a b ↔ g.Reaches b ∧ ¬ g.Leads (· ≠ a) g.entry b := by
  refine and_congr_right fun _ => ⟨?_, fun h p hp => ?_⟩
  · rintro h ⟨p, hp, ha⟩
    exact ha a (h p hp) rfl
  · by_contra ha
    exact h ⟨p, hp, fun c hc hca => ha (hca ▸ hc)⟩

theorem Dominates.not_leads (h : g.Dominates a b) : ¬ g.Leads (· ≠ a) g.entry b :=
  (dominates_iff.mp h).2

theorem Reaches.leads_around (hb : g.Reaches b) (h : ¬ g.Dominates a b) :
    g.Leads (· ≠ a) g.entry b := by
  by_contra hn
  exact h (dominates_iff.mpr ⟨hb, hn⟩)

theorem Reaches.dominates_self (h : g.Reaches b) : g.Dominates b b :=
  dominates_iff.mpr ⟨h, fun hl => hl.right rfl⟩

theorem Reaches.entry_dominates (h : g.Reaches b) : g.Dominates g.entry b :=
  dominates_iff.mpr ⟨h, fun hl => hl.left rfl⟩

theorem dominates_entry_iff : g.Dominates a g.entry ↔ a = g.entry := by
  constructor
  · intro h
    by_contra hne
    exact h.not_leads (.refl (Ne.symm hne))
  · rintro rfl
    exact reaches_entry.dominates_self

theorem Dominates.of_edge (h : g.Dominates a v) (hne : a ≠ v) (hu : g.Reaches u)
    (he : g.Edge u v) : g.Dominates a u := by
  refine dominates_iff.mpr ⟨hu, fun hl => ?_⟩
  exact h.not_leads (hl.tail he (Ne.symm hne))

/-- A dominator leads to what it dominates through blocks that it dominates. -/
theorem Dominates.leads (h : g.Dominates a b) : g.Leads (g.Dominates a) a b := by
  refine h.1.induct (C := fun x => g.Dominates a x → g.Leads (g.Dominates a) a x)
    (fun h => ?_) (fun {x y} hx he ih h => ?_) h
  · obtain rfl := dominates_entry_iff.mp h
    exact .refl h
  · by_cases hay : a = y
    · exact hay ▸ .refl (hay ▸ h)
    · exact (ih (h.of_edge hay hx he)).tail he h

theorem Dominates.reaches_left (h : g.Dominates a b) : g.Reaches a := h.leads.left.1

/-- What goes around a dominator of `b` goes around `b`. -/
theorem Dominates.around (hab : g.Dominates a b) (h : g.Leads (· ≠ a) g.entry c) :
    g.Leads (· ≠ b) g.entry c := by
  refine h.induct (fun h0 => .refl ?_) fun {x y} hx he hy ih => ih.tail he ?_
  · rintro rfl
    exact hab.not_leads (.refl h0)
  · rintro rfl
    exact hab.not_leads (hx.tail he hy)

theorem Dominates.trans (hab : g.Dominates a b) (hbc : g.Dominates b c) : g.Dominates a c :=
  dominates_iff.mpr ⟨hbc.1, fun h => hbc.not_leads (hab.around h)⟩

theorem Dominates.antisymm (hab : g.Dominates a b) (hba : g.Dominates b a) : a = b := by
  by_contra hne
  -- the first of the two on a path from the entry would be reached around the other
  have key : ∀ x, g.Reaches x → g.Leads (fun y => y ≠ a ∧ y ≠ b) g.entry x := by
    intro x hx
    refine hx.induct (.refl ⟨?_, ?_⟩) fun {x y} _ he ih => ih.tail he ⟨?_, ?_⟩
    · rintro rfl
      exact hne (dominates_entry_iff.mp hba).symm
    · rintro rfl
      exact hne (dominates_entry_iff.mp hab)
    · rintro rfl
      exact hba.not_leads ((ih.mono fun _ h => h.2).tail he hne)
    · rintro rfl
      exact hab.not_leads ((ih.mono fun _ h => h.1).tail he (Ne.symm hne))
  exact (key a hab.reaches_left).right.1 rfl

theorem Dominates.total (hac : g.Dominates a c) (hbc : g.Dominates b c) :
    g.Dominates a b ∨ g.Dominates b a := by
  refine hac.1.induct
    (C := fun x => g.Dominates a x → g.Dominates b x → g.Dominates a b ∨ g.Dominates b a)
    (fun ha hb => ?_) (fun {x y} hx he ih ha hb => ?_) hac hbc
  · obtain rfl := dominates_entry_iff.mp ha
    exact .inr hb
  · by_cases hay : a = y
    · exact .inr (hay ▸ hb)
    · by_cases hby : b = y
      · exact .inl (hby ▸ ha)
      · exact ih (ha.of_edge hay hx he) (hb.of_edge hby hx he)

theorem StrictlyDominates.not_dominates (h : g.StrictlyDominates a b) : ¬ g.Dominates b a :=
  fun hba => h.2 (h.1.antisymm hba)

theorem StrictlyDominates.ne_entry (h : g.StrictlyDominates a b) : b ≠ g.entry := by
  rintro rfl
  exact h.2 (dominates_entry_iff.mp h.1)

end LoopStride.Flow
