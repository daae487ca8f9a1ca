import Mathlib.Data.List.Perm.Subperm
import Mathlib.Logic.Function.Iterate
import LoopStride.Proofs.Dominators.Links

/-! What the sweeps keep and what they reach. A link never passes over a dominator: all strict
dominators of a block dominate its link. And each sweep lengthens by one the paths that must pass
through the links: after as many sweeps as there are blocks these are all paths. -/
namespace LoopStride
variable {g : Flow} {m : Links} {P : BlockId → Prop} {b c d p q u v w : BlockId} {n k : Nat}

namespace Flow

/-- A path of at most `n` edges leads from the entry to `b` through blocks with property `P`. -/
inductive Within (g : Flow) (P : BlockId → Prop) : Nat → BlockId → Prop where
  | entry {n : Nat} : P g.entry → Within g P n g.entry
  | next {n : Nat} {u v : BlockId} : Within g P n u → g.Edge u v → P v → Within g P (n + 1) v

theorem Within.leads (h : g.Within P n b) : g.Leads P g.entry b := by
  induction h with
  | entry h => exact .refl h
  | next _ he hv ih => exact ih.tail he hv

theorem Within.succ (h : g.Within P n b) : g.Within P (n + 1) b := by
  induction h with
  | entry h => exact .entry h
  | next _ he hv ih => exact ih.next he hv

theorem Within.mono (h : g.Within P n b) (hnk : n ≤ k) : g.Within P k b := by
  induction hnk with
  | refl => exact h
  | step _ ih => exact ih.succ

theorem Within.along {p : List BlockId} (hp : g.Path u v p) (hP : ∀ b ∈ p, P b)
    (hu : g.Within P n u) : g.Within P (n + (p.length - 1)) v := by
  induction hp generalizing n with
  | here b => exact hu
  | step he hp ih =>
    have hP' := fun b hb => hP b (List.mem_cons_of_mem _ hb)
    have hl := List.length_pos_of_mem hp.start_mem
    refine (ih hP' (hu.next he (hP' _ hp.start_mem))).mono ?_
    rw [List.length_cons]
    omega

theorem Path.reaches {p : List BlockId} (hp : g.Path u v p) (hu : g.Reaches u) :
    ∀ b ∈ p, g.Reaches b := by
  induction hp with
  | here b => simpa using hu
  | step he _ ih => simpa using ⟨hu, ih (hu.next he)⟩

/-- No block need be passed twice, so that all paths count that have an edge for each block. -/
theorem Leads.within (h : g.Leads P g.entry b) : g.Within P g.reversePostorder.length b := by
  obtain ⟨p, hp, hP⟩ := h
  obtain ⟨q, hq, hn, hs⟩ := hp.exists_nodup
  have hl : q.length ≤ g.reversePostorder.length := by
    refine (List.subperm_of_subset hn fun x hx => ?_).length_le
    exact mem_reversePostorder.mpr (hq.reaches reaches_entry x hx)
  have hw : g.Within P (0 + (q.length - 1)) b :=
    .along hq (fun x hx => hP x (hs hx)) (.entry (hP _ (hs hq.start_mem)))
  exact hw.mono (by omega)

/-- The closest dominator of `b` but `b` itself. -/
def ImmediatelyDominates (g : Flow) (d b : BlockId) : Prop :=
  g.StrictlyDominates d b ∧ ∀ c, g.StrictlyDominates c b → g.Dominates c d

theorem ImmediatelyDominates.unique (hc : g.ImmediatelyDominates c b)
    (hd : g.ImmediatelyDominates d b) : c = d :=
  (hd.2 c hc.1).antisymm (hc.2 d hd.1)

end Flow

namespace Links

/-- Links that pass over no dominator. -/
structure Sound (g : Flow) (m : Links) : Prop where
  rooted : m.Rooted g.entry g.reversePostorder
  keeps : ∀ {b u v}, m.get? b = some u → b ≠ g.entry → g.StrictlyDominates v b → g.Dominates v u

/-- All paths of at most `n` edges to `b` pass through the link of `b`. -/
def Passes (g : Flow) (m : Links) (n : Nat) (b : BlockId) : Prop :=
  ∀ u, m.get? b = some u → ¬ g.Within (· ≠ u) n b

theorem start_sound (g : Flow) : Sound g [(g.entry, g.entry)] := by
  have get? : ∀ {b u}, get? [(g.entry, g.entry)] b = some u → b = g.entry ∧ u = g.entry := by
    intro b u h
    rw [get?_cons] at h
    split at h
    · next hb => exact ⟨hb, (Option.some.inj h).symm⟩
    · simp [Links.get?] at h
  refine ⟨⟨by simp [get?_cons], ?_, ?_, ?_⟩, ?_⟩
  · obtain ⟨rest, h⟩ := g.reversePostorder_eq_cons
    simp [h]
  · intro b u h
    exact (get? h).1 ▸ Flow.mem_reversePostorder.mpr Flow.reaches_entry
  · exact fun h hne => absurd (get? h).1 hne
  · exact fun h hne => absurd (get? h).1 hne

namespace Sound

theorem reaches (hm : Sound g m) (hb : (m.get? b).isSome) : g.Reaches b := by
  obtain ⟨u, hu⟩ := Option.isSome_iff_exists.mp hb
  exact Flow.mem_reversePostorder.mp (hm.rooted.mem_order hu)

/-- The links lead to each dominator, and all blocks before it on the way are dominated by it. -/
theorem climbs_dominator (hm : Sound g m) (hv : g.Dominates v p) (hp : (m.get? p).isSome) :
    m.Climbs p v ∧ ∀ w, m.Climbs p w → m.Climbs w v → g.Dominates v w := by
  -- each link has a smaller place in the order
  induction hi : g.reversePostorder.idxOf p using Nat.strong_induction_on generalizing p with
  | _ i ih =>
    by_cases hvp : v = p
    · subst hvp
      refine ⟨.refl, fun w hw hwv => ?_⟩
      rcases hw.cases with rfl | ⟨u, hu, huw⟩
      · exact hv
      · by_cases he : v = g.entry
        · subst he
          exact hm.rooted.eq_of_climbs_entry hw ▸ hv
        · have h1 := (hm.rooted.earlier hu he).2
          have h2 := hm.rooted.idxOf_le huw
          have h3 := hm.rooted.idxOf_le hwv
          omega
    · have hs : g.StrictlyDominates v p := ⟨hv, hvp⟩
      obtain ⟨u, hu⟩ := Option.isSome_iff_exists.mp hp
      obtain ⟨hus, hlt⟩ := hm.rooted.earlier hu hs.ne_entry
      obtain ⟨hc, hd⟩ := ih _ (hi ▸ hlt) (hm.keeps hu hs.ne_entry hs) hus rfl
      refine ⟨.head hu hc, fun w hw hwv => ?_⟩
      rcases hw.cases with rfl | ⟨u', hu', huw⟩
      · exact hv
      · rw [hu, Option.some.injEq] at hu'
        exact hd w (hu' ▸ huw) hwv

/-- If all links are on all paths of at most `n` edges, so are the links of links. -/
theorem climbs_passes (hn : ∀ c, m.Passes g n c) (h : m.Climbs b u) :
    ¬ g.Within (· ≠ u) n b := by
  induction h using Relation.ReflTransGen.head_induction_on with
  | refl => exact fun hw => hw.leads.right rfl
  | @head x y hxy _ ih =>
    intro hw
    -- such a path to `x` passes `y`, and no such path leads to `y`
    have key : ∀ {k z}, k ≤ n → g.Within (· ≠ u) k z → ¬ g.Within (· ≠ y) k z →
        ∃ j ≤ n, g.Within (· ≠ u) j y := by
      intro k z hk hz
      induction hz with
      | @entry k h =>
        intro hn
        by_cases hy : g.entry = y
        · exact ⟨k, hk, hy ▸ .entry h⟩
        · exact absurd (.entry hy) hn
      | @next k s t hs he ht ih =>
        intro hn
        by_cases hy : t = y
        · exact ⟨k + 1, hk, hy ▸ hs.next he ht⟩
        · exact ih (by omega) fun h => hn (h.next he hy)
    obtain ⟨j, hj, hjy⟩ := key le_rfl hw (hn x y hxy)
    exact ih (hjy.mono hj)

/-- A link that goes to an earlier linked block and passes over no dominator may be put in. -/
theorem set (hm : Sound g m) (hne : b ≠ g.entry) (hb : g.Reaches b) (hd : (m.get? d).isSome)
    (hlt : g.reversePostorder.idxOf d < g.reversePostorder.idxOf b)
    (hkeep : ∀ v, g.StrictlyDominates v b → g.Dominates v d) : Sound g (m.set b d) := by
  have hsome : ∀ c, (m.get? c).isSome → ((m.set b d).get? c).isSome := by
    intro c hc
    by_cases h : c = b
    · simp [h, get?_set]
    · rwa [get?_set, if_neg h]
  have hlink : ∀ {c u}, (m.set b d).get? c = some u → c = b ∧ u = d ∨ c ≠ b ∧ m.get? c = some u := by
    intro c u hc
    by_cases h : c = b
    · rw [get?_set, if_pos h, Option.some.injEq] at hc
      exact .inl ⟨h, hc.symm⟩
    · rw [get?_set, if_neg h] at hc
      exact .inr ⟨h, hc⟩
  refine ⟨⟨?_, hm.rooted.first, ?_, ?_⟩, ?_⟩
  · rw [get?_set, if_neg (Ne.symm hne), hm.rooted.root]
  · intro c u hc
    obtain ⟨rfl, -⟩ | ⟨-, hc⟩ := hlink hc
    · exact Flow.mem_reversePostorder.mpr hb
    · exact hm.rooted.mem_order hc
  · intro c u hc hce
    obtain ⟨rfl, rfl⟩ | ⟨-, hc⟩ := hlink hc
    · exact ⟨hsome _ hd, hlt⟩
    · obtain ⟨hs, hi⟩ := hm.rooted.earlier hc hce
      exact ⟨hsome u hs, hi⟩
  · intro c u v hc hce hv
    obtain ⟨rfl, rfl⟩ | ⟨-, hc⟩ := hlink hc
    · exact hkeep v hv
    · exact hm.keeps hc hce hv

/-- What strictly dominates `b` dominates the meeting point of its predecessors: it is above all of
them, and the meeting point is below it. -/
theorem dominates_meeting (hm : Sound g m) (hpb : g.Edge p b) (hp : (m.get? p).isSome)
    (hmeet : m.Meets (fun q => g.Edge q b ∧ (m.get? q).isSome) d)
    (hv : g.StrictlyDominates v b) : g.Dominates v d := by
  have hpre : ∀ q, g.Edge q b ∧ (m.get? q).isSome → g.Dominates v q :=
    fun q hq => hv.1.of_edge hv.2 (hm.reaches hq.2) hq.1
  have hdv : m.Climbs d v :=
    hmeet.lowest fun q hq => (hm.climbs_dominator (hpre q hq) hq.2).1
  exact (hm.climbs_dominator (hpre p ⟨hpb, hp⟩) hp).2 d (hmeet.common ⟨hpb, hp⟩) hdv

theorem relink (hm : Sound g m) (hne : b ≠ g.entry) (hpb : g.Edge p b)
    (hp : (m.get? p).isSome)
    (hlt : g.reversePostorder.idxOf p < g.reversePostorder.idxOf b) :
    Sound g (g.relink g.reversePostorder m b) ∧
      ((g.relink g.reversePostorder m b).get? b).isSome ∧
      ∀ c, c ≠ b → (g.relink g.reversePostorder m b).get? c = m.get? c := by
  obtain ⟨d, hd, hmeet⟩ := hm.rooted.relink_eq_set hpb hp
  have hpd : m.Climbs p d := hmeet.common ⟨hpb, hp⟩
  rw [hd]
  refine ⟨?_, by simp [get?_set], fun c hc => by rw [get?_set, if_neg hc]⟩
  refine hm.set hne ((hm.reaches hp).next hpb) (hm.rooted.climbs_isSome hp hpd)
    ((hm.rooted.idxOf_le hpd).trans_lt hlt) fun v hv => ?_
  exact hm.dominates_meeting hpb hp hmeet hv

theorem relink_passes (hm : Sound g m) (hall : ∀ c, g.Reaches c → (m.get? c).isSome)
    (hn : ∀ c, m.Passes g n c) (hne : b ≠ g.entry) (hpb : g.Edge p b) (hp : (m.get? p).isSome) :
    (g.relink g.reversePostorder m b).Passes g (n + 1) b := by
  obtain ⟨d, hd, hmeet⟩ := hm.rooted.relink_eq_set hpb hp
  intro u hu hw
  rw [hd, get?_set, if_pos rfl, Option.some.injEq] at hu
  subst hu
  cases hw with
  | entry => exact hne rfl
  | @next _ q _ hq he _ =>
    exact climbs_passes hn (hmeet.common ⟨he, hall q hq.leads.reaches⟩) hq

/-- A link that lies on all paths to its block, and passes over no dominator, is the closest one. -/
theorem immediatelyDominates (hm : Sound g m) (hp : m.Passes g g.reversePostorder.length b)
    (hne : b ≠ g.entry) (hu : m.get? b = some u) : g.ImmediatelyDominates u b := by
  have hb : g.Reaches b := hm.reaches (by simp [hu])
  refine ⟨⟨Flow.dominates_iff.mpr ⟨hb, fun hl => hp u hu hl.within⟩, ?_⟩, ?_⟩
  · rintro rfl
    exact absurd (hm.rooted.earlier hu hne).2 (lt_irrefl _)
  · exact fun c hc => hm.keeps hu hne hc

end Sound
end Links

namespace Flow

/-- The links once the blocks of a list have been relinked, one after another. -/
def relinkAll (g : Flow) (bs : List BlockId) (m : Links) : Links :=
  bs.foldl (g.relink g.reversePostorder) m

theorem relinkAll_concat (bs : List BlockId) :
    g.relinkAll (bs ++ [b]) m = g.relink g.reversePostorder (g.relinkAll bs m) b := by
  rw [relinkAll, List.foldl_append]
  rfl

theorem sweep_eq_relinkAll :
    g.sweep g.reversePostorder m = g.relinkAll (g.reversePostorder.drop 1) m := rfl

theorem reversePostorder_eq_cons_drop :
    g.reversePostorder = g.entry :: g.reversePostorder.drop 1 := by
  obtain ⟨rest, horder⟩ := g.reversePostorder_eq_cons
  rw [horder, List.drop_one, List.tail_cons]

/-- What each relinking hands on from block to block holds at every point of a sweep, `pre` being the
blocks behind the entry that are done. -/
theorem relinkAll_induct {I : List BlockId → Links → Prop} (start : I [g.entry] m)
    (step : ∀ {pre : List BlockId} {b p : BlockId} {m : Links}, b ≠ g.entry → g.Edge p b →
      p ∈ pre → g.Reaches p → g.reversePostorder.idxOf p < g.reversePostorder.idxOf b →
      I pre m → I (pre ++ [b]) (g.relink g.reversePostorder m b))
    {pre suf : List BlockId} (hsplit : g.reversePostorder.drop 1 = pre ++ suf) :
    I (g.entry :: pre) (g.relinkAll pre m) := by
  induction pre using List.reverseRecOn generalizing suf with
  | nil => exact start
  | append_singleton pre b ih =>
    have hbefore : g.reversePostorder.drop 1 = pre ++ b :: suf := by simp [hsplit]
    have horder : g.reversePostorder = (g.entry :: pre) ++ b :: suf :=
      g.reversePostorder_eq_cons_drop.trans (congrArg _ hbefore)
    have hnd := g.reversePostorder_nodup
    have hbp : b ∉ g.entry :: pre := fun hb =>
      (List.nodup_append'.mp (horder ▸ hnd)).2.2 hb List.mem_cons_self
    have hne : b ≠ g.entry := List.ne_of_not_mem_cons hbp
    obtain ⟨p, he, hs⟩ := g.exists_earlier_predecessor (b := b) (by simp [horder]) hne
    have hlt := idxOf_lt_of_sublist hnd hs
    have hpr : g.Reaches p := mem_reversePostorder.mp (hs.subset (by simp))
    have hp : p ∈ g.entry :: pre := by
      by_contra hp
      rw [horder, List.idxOf_append_of_notMem hp, List.idxOf_append_of_notMem hbp,
        List.idxOf_cons_self] at hlt
      omega
    rw [relinkAll_concat]
    exact step hne he hp hpr hlt (ih hbefore)

/-- What each relinking hands on from block to block holds after the sweep. -/
theorem sweep_induct {I : List BlockId → Links → Prop} (start : I [g.entry] m)
    (step : ∀ {pre : List BlockId} {b p : BlockId} {m : Links}, b ≠ g.entry → g.Edge p b →
      p ∈ pre → g.Reaches p → g.reversePostorder.idxOf p < g.reversePostorder.idxOf b →
      I pre m → I (pre ++ [b]) (g.relink g.reversePostorder m b)) :
    I g.reversePostorder (g.sweep g.reversePostorder m) := by
  have h := relinkAll_induct start step (List.append_nil _).symm
  rwa [← reversePostorder_eq_cons_drop, ← sweep_eq_relinkAll] at h

theorem settle_eq_iterate (order : List BlockId) (fuel : Nat) (m : Links) :
    g.settle order fuel m = (g.sweep order)^[fuel] m := by
  induction fuel generalizing m with
  | zero => rfl
  | succ fuel ih =>
    rw [settle, Function.iterate_succ_apply]
    by_cases h : g.sweep order m = m
    · simp [h, Function.iterate_fixed h]
    · simp [h, ih]

/-- At every point of a sweep the links are sound, and the blocks that are done have one. -/
theorem relinkAll_linked (hm : m.Sound g) {pre suf : List BlockId}
    (hsplit : g.reversePostorder.drop 1 = pre ++ suf) :
    (g.relinkAll pre m).Sound g ∧ ∀ c ∈ g.entry :: pre, ((g.relinkAll pre m).get? c).isSome := by
  refine relinkAll_induct (I := fun pre m => m.Sound g ∧ ∀ c ∈ pre, (m.get? c).isSome)
    ⟨hm, by simp [hm.rooted.root]⟩ ?_ hsplit
  rintro pre b p m hne he hp - hlt ⟨hm, hpre⟩
  obtain ⟨hs, hbs, hother⟩ := hm.relink hne he (hpre p hp) hlt
  refine ⟨hs, fun c hc => ?_⟩
  by_cases h : c = b
  · exact h ▸ hbs
  · rw [hother c h]
    exact hpre c (by simpa [h] using hc)

theorem sweep_linked (hm : m.Sound g) : (g.sweep g.reversePostorder m).Sound g ∧
    ∀ c, g.Reaches c → ((g.sweep g.reversePostorder m).get? c).isSome := by
  obtain ⟨hs, hall⟩ := relinkAll_linked hm (List.append_nil _).symm
  rw [← reversePostorder_eq_cons_drop] at hall
  exact ⟨hs, fun c hc => hall c (mem_reversePostorder.mpr hc)⟩

/-- A sweep of complete links lengthens the paths that must pass through them by one edge. -/
theorem sweep_passes (hm : m.Sound g) (hall : ∀ c, g.Reaches c → (m.get? c).isSome)
    (hn : ∀ c, m.Passes g n c) (c : BlockId) :
    (g.sweep g.reversePostorder m).Passes g (n + 1) c := by
  have h := g.sweep_induct (m := m)
    -- blocks that are done gain an edge, the others keep what they had
    (I := fun pre m => m.Sound g ∧ (∀ c, g.Reaches c → (m.get? c).isSome) ∧
      (∀ c, m.Passes g n c) ∧ ∀ c ∈ pre, m.Passes g (n + 1) c)
    ⟨hm, hall, hn, ?_⟩ (by
      rintro pre b p m hne he - hp hlt ⟨hm, hall, hn, hpre⟩
      obtain ⟨hs, hbs, hother⟩ := hm.relink hne he (hall p hp) hlt
      have hb := hm.relink_passes hall hn hne he (hall p hp)
      refine ⟨hs, fun c hc => ?_, fun c => ?_, fun c hc => ?_⟩ <;> by_cases h : c = b
      · exact h ▸ hbs
      · exact hother c h ▸ hall c hc
      · subst h
        exact fun u hu hw => hb u hu hw.succ
      · exact fun u hu => hn c u (hother c h ▸ hu)
      · exact h ▸ hb
      · exact fun u hu => hpre c (by simpa [h] using hc) u (hother c h ▸ hu))
  · intro u hu hw
    by_cases hc : g.Reaches c
    · exact h.2.2.2 c (mem_reversePostorder.mpr hc) u hu hw
    · exact hc hw.leads.reaches
  · intro c hc u hu hw
    rw [List.mem_singleton.mp hc, hm.rooted.root, Option.some.injEq] at hu
    exact (hu ▸ hw.leads).left rfl

/-- After `n + 1` sweeps the links are sound and complete, and on all paths of `n` edges. -/
theorem iterate_sweep (n : Nat) :
    ((g.sweep g.reversePostorder)^[n + 1] [(g.entry, g.entry)]).Sound g ∧
    (∀ c, g.Reaches c →
      (((g.sweep g.reversePostorder)^[n + 1] [(g.entry, g.entry)]).get? c).isSome) ∧
    ∀ c, ((g.sweep g.reversePostorder)^[n + 1] [(g.entry, g.entry)]).Passes g n c := by
  induction n with
  | zero =>
    obtain ⟨hs, hall⟩ := sweep_linked (Links.start_sound g)
    refine ⟨hs, hall, fun c u hu hw => ?_⟩
    cases hw with
    | entry h =>
      exact h (Option.some.inj (hs.rooted.root.symm.trans hu))
  | succ n ih =>
    rw [Function.iterate_succ_apply']
    exact ⟨(sweep_linked ih.1).1, (sweep_linked ih.1).2, sweep_passes ih.1 ih.2.1 ih.2.2⟩

end Flow
end LoopStride
