import LoopStride.Proofs.Evolution.Truth
import LoopStride.Proofs.Func.Valid
import LoopStride.Proofs.Loops.Nesting

/-! Merges in loop headers. What a loop leaves alone is done before its header is entered, so the
operands of the recurrence stand for the same words in every round, and each round adds the
increment. -/
namespace LoopStride

namespace Flow
variable {g : Flow} {b h u x : BlockId}

/-- If every other edge into `h` comes from a block that `h` dominates, `b` dominates `h`. -/
theorem dominates_of_entering (hr : g.Reaches h) (hne : h ≠ g.entry)
    (hpred : ∀ u, g.Reaches u → g.Edge u h → u = b ∨ g.Dominates h u) : g.Dominates b h := by
  refine dominates_iff.mpr ⟨hr, fun hl => ?_⟩
  -- the path around `b` never gets to a block that `h` dominates
  refine hl.induct (C := fun x => ¬ g.Dominates h x) (fun _ hd => ?_) (fun hx he _ hn hd => ?_)
    hr.dominates_self
  · exact hne (dominates_entry_iff.mp hd)
  · rename_i x y _
    by_cases hy : h = y
    · subst hy
      exact (hpred x hx.reaches he).elim hx.right hn
    · exact hn (hd.of_edge hy hx.reaches he)

theorem strictlyDominates_of_outside (hx : g.Dominates x u) (hu : g.InBody h u ∨ g.Dominates u h)
    (hlatch : ∃ l, g.BackEdge l h) (hout : ¬ g.InBody h x) : g.StrictlyDominates x h := by
  have hne : x ≠ h := fun he => hout (.inl he)
  cases hu with
  | inl hu =>
    obtain ⟨l, hl⟩ := hlatch
    have hd := InBody.dominates hl hu
    cases hx.total hd with
    | inl hxh => exact ⟨hxh, hne⟩
    | inr hhx => exact absurd (InBody.between hhx hu hx) hout
  | inr hu => exact ⟨hx.trans hu, hne⟩

end Flow

namespace Scope
variable {S : Scope} {id : InstId} {incoming : List (BlockId × Value)} {p : HeaderPhi} {M : Makeup}
  {symbol start next e inc : Expr} {ρ : Reading}

/-- A merge of two values in a header has one of them from outside the loop, one from inside. -/
theorem headerPhi?_eq_some (h : S.headerPhi? id incoming = some p) :
    S.home id = some p.header ∧ S.forest.ofHeader? p.header = some p.loop ∧
    ∃ b c, S.forest.contains p.loop b = false ∧ S.forest.contains p.loop c = true ∧
      (incoming = [(b, p.entering), (c, p.next)] ∨ incoming = [(c, p.next), (b, p.entering)]) := by
  simp only [headerPhi?, Option.bind_eq_bind, Option.bind_eq_some_iff] at h
  obtain ⟨header, hhome, l, hl, h⟩ := h
  split at h
  · rename_i b v c w
    split at h
    · rename_i hb hc
      obtain rfl := Option.some.inj h
      exact ⟨hhome, hl, b, c, hb, hc, .inl rfl⟩
    · rename_i hb hc
      obtain rfl := Option.some.inj h
      exact ⟨hhome, hl, c, b, hc, hb, .inr rfl⟩
    · cases h
  · cases h

theorem without_eq_some (h : S.without symbol e = some inc) :
    (e = symbol ∧ inc = .zero) ∨
      ∃ ts, e = .sum ts ∧ symbol ∈ ts ∧ inc = S.add (ts.erase symbol) := by
  unfold without at h
  split at h
  · rename_i he
    exact .inl ⟨he, (Option.some.inj h).symm⟩
  · split at h
    · rename_i ts _
      split at h
      · rename_i hmem
        exact .inr ⟨ts, rfl, hmem, (Option.some.inj h).symm⟩
      · cases h
    · cases h

theorem madeOf_without (hS : S.Stable M) (h : S.without symbol e = some inc) (he : e.MadeOf M) :
    inc.MadeOf M := by
  rcases without_eq_some h with ⟨-, rfl⟩ | ⟨ts, rfl, -, rfl⟩
  · exact Expr.madeOf_zero
  · exact hS.madeOf_add fun t ht => Expr.madeOf_sum.mp he t (List.mem_of_mem_erase ht)

theorem eval_without (h : S.without symbol e = some inc) (he : e.MadeOf .proper) :
    e.eval ρ = symbol.eval ρ + inc.eval ρ := by
  rcases without_eq_some h with ⟨rfl, rfl⟩ | ⟨ts, rfl, hmem, rfl⟩
  · rw [Expr.eval_zero, Int64.add_zero]
  · have hperm := (List.perm_cons_erase hmem).map (Expr.eval ρ)
    rw [Expr.eval_sum, sum_perm hperm, List.map_cons, List.sum_cons,
      eval_add fun t ht => Expr.madeOf_sum.mp he t (List.mem_of_mem_erase ht)]

/-- The recurrence of a merge starts at `start` and has operands that its loop leaves alone, which
stand for the increment. -/
theorem close?_eq_some (h : S.close? p symbol start next = some e)
    (hregular : next.MadeOf S.regular) : ∃ inc ops, S.without symbol next = some inc ∧
    e = .recurrenceOf p.header (start :: ops) ∧
    (∀ o ∈ ops, S.isInvariant p.loop o = true) ∧
    (ops = [inc] ∨ ∃ h, inc = .recurrence h ops ∧ S.forest.ofHeader? h = some p.loop) := by
  simp only [close?, Option.bind_eq_bind, Option.bind_eq_some_iff] at h
  obtain ⟨inc, hinc, h⟩ := h
  have hreg := madeOf_without stable_regular hinc hregular
  refine ⟨inc, ?_⟩
  split at h
  · rename_i k ops
    split at h
    · rename_i hk
      refine ⟨ops, hinc, (Option.some.inj h).symm, fun o ho => ?_, .inr ⟨k, rfl, hk⟩⟩
      obtain ⟨l, hl, hinv⟩ := (Expr.madeOf_recurrence.mp hreg).2.1 o ho
      rwa [← Option.some.inj (hl.symm.trans hk)]
    · split at h
      · rename_i hinv
        exact ⟨_, hinc, (Option.some.inj h).symm, by simpa using hinv, .inl rfl⟩
      · cases h
  · split at h
    · rename_i hinv
      exact ⟨_, hinc, (Option.some.inj h).symm, by simpa using hinv, .inl rfl⟩
    · cases h

end Scope

theorem Flow.contains_iff_inBody {g : Flow} {h b : BlockId} {l : LoopId}
    (hl : g.loops.ofHeader? h = some l) : g.loops.contains l b = true ↔ g.InBody h b := by
  obtain ⟨lp, hlp, rfl⟩ := Flow.ofHeader?_eq_some_iff.mp hl
  rw [Flow.contains_iff, ← Flow.mem_body_iff hlp]
  exact ⟨fun ⟨a, ha, hb⟩ => Option.some.inj (ha.symm.trans hlp) ▸ hb, fun hb => ⟨lp, hlp, hb⟩⟩

namespace Func
variable {f : Func} {id : InstId} {i : Instruction} {incoming : List (BlockId × Value)}
  {p : HeaderPhi} {start next e : Expr} {h u b c : BlockId} {l : LoopId} {k n : Nat}

theorem not_inBody_of_fixesValue {j : InstId} (hl : f.flow.loops.ofHeader? h = some l)
    (hhome : f.blockOf? j = some u)
    (hfix : (f.scope f.flow.loops).fixesValue l (.result j) = true) : ¬ f.flow.InBody h u := by
  intro hu
  have hhome' : (f.scope f.flow.loops).home j = some u := hhome
  have hin : (f.scope f.flow.loops).forest.contains l u = true :=
    (Flow.contains_iff_inBody hl).mpr hu
  simp [Scope.fixesValue, hhome', hin] at hfix

theorem not_inBody_of_runsWithin {l' : LoopId} (hl : f.flow.loops.ofHeader? h = some l)
    (hl' : f.flow.loops.ofHeader? u = some l')
    (hout : (f.scope f.flow.loops).runsWithin l u = false) : ¬ f.flow.InBody h u := by
  intro hu
  obtain ⟨lp, hlp, rfl⟩ := Flow.ofHeader?_eq_some_iff.mp hl
  obtain ⟨lp', hlp', rfl⟩ := Flow.ofHeader?_eq_some_iff.mp hl'
  have hsub := (Flow.subset_iff hlp' hlp).mpr
    ((Flow.header_mem_iff hlp' hlp).mp ((Flow.mem_body_iff hlp).mpr hu))
  have hnested := (Flow.isNestedIn_iff hlp' hlp).mpr hsub
  have hscope : (f.scope f.flow.loops).forest.ofHeader? lp'.header = some l' := hl'
  rw [Scope.runsWithin, hscope] at hout
  exact Bool.false_ne_true (hout.symm.trans hnested)

theorem ahead_header {x : BlockId} {m m' : Nat} (hl : f.flow.loops.ofHeader? h = some l)
    (hu : f.flow.InBody h u ∨ f.flow.Dominates u h) (hr : f.flow.Reaches u)
    (ha : f.flow.Ahead (x, m) (u, n)) (hx : ¬ f.flow.InBody h x) :
    f.flow.Ahead (x, m') (h, 0) := by
  obtain ⟨lp, hlp, hlh⟩ := Flow.ofHeader?_eq_some_iff.mp hl
  have hlatch := hlh ▸ Flow.backEdge_of_get? hlp
  exact ahead_zero.mpr (Flow.strictlyDominates_of_outside (ha.dominates hr) hu hlatch hx)

/-- What a loop leaves alone counts the rounds of no loop but those entered before its header is. -/
theorem madeOf_header {A B : Value → Prop} (hl : f.flow.loops.ofHeader? h = some l)
    (hu : f.flow.InBody h u ∨ f.flow.Dominates u h) (hr : f.flow.Reaches u)
    (hreg : e.MadeOf (f.scope f.flow.loops).regular)
    (hinv : (f.scope f.flow.loops).isInvariant l e = true)
    (hAB : ∀ v, A v → (f.scope f.flow.loops).fixesValue l v = true → B v)
    (he : e.MadeOf (.plain 1 A fun x => f.flow.Ahead (x, 0) (u, n))) :
    e.MadeOf (.plain 1 B fun x => f.flow.Ahead (x, 0) (h, 0)) := by
  have hfixed := (Scope.isInvariant_iff (hreg.proper (Nat.le_succ 1))).mp hinv
  refine ((he.both hreg).both hfixed).mono (by simp [Makeup.both, Makeup.plain, Scope.regular,
    Scope.fixed]) ?_ ?_
  · rintro v ⟨⟨hv, -⟩, hfix⟩
    exact hAB v hv hfix
  · rintro x t - ⟨⟨ha, l', hl', -⟩, hout⟩
    exact ahead_header hl hu hr ha (not_inBody_of_runsWithin hl hl' hout)

/-- What a loop leaves alone is done before the header is entered. -/
theorem visible_header (hh : f.Homed) (hl : f.flow.loops.ofHeader? h = some l)
    (hu : f.flow.InBody h u ∨ f.flow.Dominates u h) (hr : f.flow.Reaches u)
    (hreg : e.MadeOf (f.scope f.flow.loops).regular)
    (hinv : (f.scope f.flow.loops).isInvariant l e = true) (hv : f.Visible (u, n) e) :
    f.Visible (h, 0) e := by
  refine madeOf_header hl hu hr hreg hinv (fun v hav hfix => ?_) hv
  cases v with
  | result j =>
    obtain ⟨⟨x, m⟩, hq, ha⟩ := hav
    exact ⟨(x, m), hq, ahead_header hl hu hr ha (not_inBody_of_fixesValue hl (hh j _ hq) hfix)⟩
  | _ => trivial

/-- A merge in the header of a loop, entered from `b` alone and closed from `c` alone. -/
structure MergesAt (f : Func) (id : InstId) (p : HeaderPhi) (b c : BlockId) : Prop where
  loop : f.flow.loops.ofHeader? p.header = some p.loop
  edge_cases : ∀ u, f.flow.Reaches u → f.flow.Edge u p.header → u = b ∨ u = c
  closes : f.flow.Edge c p.header
  outside : ¬ f.flow.InBody p.header b
  inside : f.flow.InBody p.header c
  not_entry : p.header ≠ f.flow.entry
  entering : (b, p.entering) ∈ f.incoming id ∧ (f.incoming id).lookup b = some p.entering
  next : (c, p.next) ∈ f.incoming id ∧ (f.incoming id).lookup c = some p.next

theorem wellFormed_of_strictSsa (hs : f.StrictSsa) : f.WellFormed :=
  defect?_eq_none.mp (validate_eq_ok.mp hs.valid)

theorem mem_pair_incoming {v w : Value} (hne : b ≠ c)
    (hin : incoming = [(b, v), (c, w)] ∨ incoming = [(c, w), (b, v)]) :
    (∀ u, u ∈ incoming.map (·.1) ↔ u = b ∨ u = c) ∧
      ((b, v) ∈ incoming ∧ incoming.lookup b = some v) ∧
      ((c, w) ∈ incoming ∧ incoming.lookup c = some w) := by
  have hbc : (b == c) = false := beq_eq_false_iff_ne.mpr hne
  have hcb : (c == b) = false := Bool.beq_comm.trans hbc
  rcases hin with rfl | rfl
  · simp [List.lookup_cons, hcb]
  · simp [List.lookup_cons, hbc, or_comm]

theorem exists_mergesAt {q : BlockId × Nat} (hv : f.WellFormed) (hm : f.MergesFit)
    (hplace : f.PlacedAt id q) (hi : f.inst? id = some i) (ho : i.operation = .phi incoming)
    (hp : (f.scope f.flow.loops).headerPhi? id incoming = some p) :
    q.1 = p.header ∧ ∃ b c, f.MergesAt id p b c := by
  obtain ⟨hhome, hl, b, c, hb, hc, hin⟩ := Scope.headerPhi?_eq_some hp
  have hbc : b ≠ c := by
    rintro rfl
    cases hb.symm.trans hc
  have hphi : f.isPhi id = true := by
    rw [isPhi_of_inst? hi, Instruction.isPhi, Instruction.opcode, ho]
    rfl
  obtain ⟨hsources, hentering, hnext⟩ := mem_pair_incoming hbc hin
  rw [← incoming_of_phi hi ho] at hsources hentering hnext
  obtain ⟨x, k⟩ := q
  obtain rfl : x = p.header := Option.some.inj ((hm.homed id _ hplace hphi).symm.trans hhome)
  have hinside := (Flow.contains_iff_inBody hl).mp hc
  have hcloses : f.flow.Edge c p.header :=
    hv.incoming_precedes p.header id (List.mem_of_getElem? hplace) _ hnext.1
  obtain ⟨lp, hlp, hlh⟩ := Flow.ofHeader?_eq_some_iff.mp hl
  obtain ⟨u, hu⟩ := Flow.backEdge_of_get? hlp
  have hreach := (hinside.dominates (hlh ▸ hu)).1
  refine ⟨rfl, b, c, hl, fun u hr he => ?_, hcloses, fun h => ?_, hinside, ?_, hentering, hnext⟩
  · exact (hsources u).mp (hm.covered id _ hplace hphi u hr he).2
  · have hb' : f.flow.loops.contains p.loop b = false := hb
    rw [(Flow.contains_iff_inBody hl).mpr h] at hb'
    cases hb'
  · exact (hm.covered id _ hplace hphi c hreach hcloses).1

theorem MergesAt.backEdge (hm : f.MergesAt id p b c) : f.flow.BackEdge c p.header := by
  obtain ⟨lp, hlp, hlh⟩ := Flow.ofHeader?_eq_some_iff.mp hm.loop
  obtain ⟨u, hu⟩ := Flow.backEdge_of_get? hlp
  rw [hlh] at hu
  exact ⟨hm.closes, hm.inside.dominates hu⟩

theorem MergesAt.not_backEdge (hm : f.MergesAt id p b c) : ¬ f.flow.BackEdge b p.header := by
  intro hb
  by_cases he : b = p.header
  · exact hm.outside (.inl he)
  · exact hm.outside (.inr ⟨hb.2.1, b, hb, .refl he⟩)

theorem MergesAt.dominates (hm : f.MergesAt id p b c) : f.flow.Dominates b p.header :=
  Flow.dominates_of_entering hm.backEdge.2.reaches_left hm.not_entry fun u hr hu =>
    (hm.edge_cases u hr hu).imp_right fun he : u = c => he.symm ▸ hm.backEdge.2

/-- Operands for the recurrence of a merge: all are done before the header is entered, and what
comes around differs from the merge by the next difference. -/
structure Settled (f : Func) (id : InstId) (p : HeaderPhi) (start next : Expr) (ops : List Expr) :
    Prop where
  regular : ∀ o ∈ start :: ops, o.MadeOf (f.scope f.flow.loops).regular
  invariant : ∀ o ∈ start :: ops, (f.scope f.flow.loops).isInvariant p.loop o = true
  visible : ∀ o ∈ start :: ops, f.Visible (p.header, 0) o
  increment : ∀ ρ : Reading, next.eval ρ =
    ρ.word (.result id) + newton (ρ.round p.header) 0 (ops.map (Expr.eval ρ))

theorem MergesAt.exists_settled (hs : f.StrictSsa) (hh : f.Homed)
    (hplace : f.PlacedAt id (p.header, k)) (hm : f.MergesAt id p b c)
    (hstart : f.Shows p.entering start)
    (hinv : (f.scope f.flow.loops).isInvariant p.loop start = true) (hnext : f.Shows p.next next)
    (hclose : (f.scope f.flow.loops).close? p (.unknown (.result id)) start next = some e) :
    ∃ ops, e = .recurrenceOf p.header (start :: ops) ∧ f.Settled id p start next ops := by
  obtain ⟨inc, ops, hinc, rfl, hops, hshape⟩ := Scope.close?_eq_some hclose hnext.regular
  have hrb := hm.dominates.reaches_left
  have hrc := hm.backEdge.2.1
  have hincreg := Scope.madeOf_without Scope.stable_regular hinc hnext.regular
  have hincvis : f.Visible (c, (f.listing c).length) inc :=
    Scope.madeOf_without (Scope.stable_plain (Nat.le_refl 1) (Nat.le_succ 1)) hinc
      (hnext.visible (c, _) hrc (hs.incoming_available id _ hplace _ hm.next.1 hrc))
  have hparts : (∀ o ∈ ops, o.MadeOf (f.scope f.flow.loops).regular) ∧
      (∀ o ∈ ops, f.Visible (c, (f.listing c).length) o) ∧
      ∀ ρ : Reading, newton (ρ.round p.header) 0 (ops.map (Expr.eval ρ)) = inc.eval ρ := by
    rcases hshape with rfl | ⟨h, rfl, hl⟩
    · exact ⟨by simpa using hincreg, by simpa using hincvis, fun ρ => newton_singleton⟩
    · obtain ⟨lp, hlp, rfl⟩ := Flow.ofHeader?_eq_some_iff.mp hl
      obtain ⟨lp', hlp', hlh⟩ := Flow.ofHeader?_eq_some_iff.mp hm.loop
      rw [← hlh, ← Option.some.inj (hlp.symm.trans hlp')]
      exact ⟨(Expr.madeOf_recurrence.mp hincreg).2.2, (Expr.madeOf_recurrence.mp hincvis).2.2,
        fun ρ => Expr.eval_recurrence.symm⟩
  obtain ⟨hopreg, hopvis, hopeval⟩ := hparts
  refine ⟨ops, rfl, List.forall_mem_cons.mpr ⟨hstart.regular, hopreg⟩,
    List.forall_mem_cons.mpr ⟨hinv, hops⟩, List.forall_mem_cons.mpr ⟨?_, fun o ho => ?_⟩, fun ρ => ?_⟩
  · exact visible_header hh hm.loop (.inr hm.dominates) hrb hstart.regular hinv
      (hstart.visible (b, _) hrb (hs.incoming_available id _ hplace _ hm.entering.1 hrb))
  · exact visible_header hh hm.loop (.inl hm.inside) hrc (hopreg o ho) (hops o ho) (hopvis o ho)
  · rw [Scope.eval_without hinc (hnext.regular.proper (Nat.le_succ 1)), hopeval, Expr.eval_unknown]

/-- The recurrence of a merge is visible once the merge is done. -/
theorem Settled.visible_recurrence {ops : List Expr} (hm : f.MergesAt id p b c)
    (hset : f.Settled id p start next ops) :
    (Expr.recurrenceOf p.header (start :: ops)).MadeOf (f.scope f.flow.loops).regular ∧
      f.Visible (p.header, k + 1) (.recurrenceOf p.header (start :: ops)) := by
  constructor
  · exact .recurrenceOf (Nat.le_refl 2) (by simp)
      (fun o ho => ⟨p.loop, hm.loop, hset.invariant o ho⟩) hset.regular
  · refine .recurrenceOf (Nat.le_succ 1) (by simp) (fun _ _ => .inl ⟨rfl, Nat.succ_pos k⟩) ?_
    exact fun o ho => (hset.visible o ho).mono fun r hr => hr.mono (Nat.zero_le _)

theorem merged_of_lookup {inp : Inputs} {s : Machine} {t : BlockId} {v : Value}
    (hmerge : id ∈ f.merges t) (hlookup : (f.incoming id).lookup s.block = some v) :
    s.merged f inp t id = s.read inp v := by
  rw [Machine.merged, if_pos hmerge, hlookup]

/-- On entering a header the operands of a recurrence keep their words and the round goes on. -/
theorem eval_recurrenceOf_enter (hs : f.StrictSsa) {ops : List Expr}
    (hvis : ∀ o ∈ ops, f.Visible (h, 0) o) {inp : Inputs} {s : Machine} :
    (Expr.recurrenceOf h ops).eval ((s.enter f inp h).reading inp) =
      newton (if f.flow.BackEdge s.block h then s.round h + 1 else 0) 0
        (ops.map (Expr.eval (s.reading inp))) := by
  have hkeep : ops.map (Expr.eval ((s.enter f inp h).reading inp)) =
      ops.map (Expr.eval (s.reading inp)) :=
    List.map_congr_left fun o ho => eval_enter hs (hvis o ho)
  have hround : ((s.enter f inp h).reading inp).round h =
      if f.flow.BackEdge s.block h then s.round h + 1 else 0 := if_pos rfl
  rw [Expr.eval_recurrenceOf, hkeep, hround]

/-- What a block lists is done at the end of the latches of its loop. -/
theorem ahead_latch (hplace : f.PlacedAt id (h, k)) (hc : f.flow.BackEdge c h) :
    f.flow.Ahead (h, k) (c, (f.listing c).length) := by
  by_cases hhc : h = c
  · exact .inl ⟨hhc, hhc ▸ hplace.lt_length⟩
  · exact .inr ⟨hc.2, hhc⟩

/-- The edge from outside gives the start, and the edge back goes on by Pascal's rule. -/
theorem MergesAt.merged_eq (hs : f.StrictSsa) (hplace : f.PlacedAt id (p.header, k))
    (hm : f.MergesAt id p b c) (hstart : f.Tells p.entering start) (hnext : f.Tells p.next next)
    {ops : List Expr} (hset : f.Settled id p start next ops) {inp : Inputs} {s : Machine}
    (hr : f.Runs inp s) (hdone : s.done = (f.listing s.block).length)
    (he : f.flow.Edge s.block p.header) (hmerge : id ∈ f.merges p.header)
    (ih : f.flow.Ahead (p.header, k) (s.block, s.done) →
      s.value id = (Expr.recurrenceOf p.header (start :: ops)).eval (s.reading inp)) :
    s.merged f inp p.header id =
      (Expr.recurrenceOf p.header (start :: ops)).eval ((s.enter f inp p.header).reading inp) := by
  rw [eval_recurrenceOf_enter hs hset.visible]
  cases hm.edge_cases _ hr.reaches he with
  | inl hb =>
    have hav := hs.incoming_available id _ hplace _ hm.entering.1 hm.dominates.reaches_left
    rw [merged_of_lookup hmerge (hb ▸ hm.entering.2), hb, if_neg hm.not_backEdge, List.map_cons,
      newton_zero]
    exact hstart.word inp s hr (by rw [hdone, hb]; exact hav)
  | inr hc =>
    have hav := hs.incoming_available id _ hplace _ hm.next.1 hm.backEdge.2.1
    have hvalue := ih (by rw [hdone, hc]; exact ahead_latch hplace hm.backEdge)
    rw [Expr.eval_recurrenceOf] at hvalue
    rw [merged_of_lookup hmerge (hc ▸ hm.next.2), hc, if_pos hm.backEdge, List.map_cons,
      newton_succ, ← List.map_cons]
    calc s.read inp p.next
        = next.eval (s.reading inp) := hnext.word inp s hr (by rw [hdone, hc]; exact hav)
      _ = s.value id + newton (s.round p.header) 0 (ops.map (Expr.eval (s.reading inp))) :=
          hset.increment (s.reading inp)
      _ = _ := by rw [hvalue]; rfl

theorem tells_recurrence (hs : f.StrictSsa) (hh : f.Homed) (hi : f.inst? id = some i)
    (ho : i.operation = .phi incoming)
    (hp : (f.scope f.flow.loops).headerPhi? id incoming = some p) (hstart : f.Tells p.entering start)
    (hinv : (f.scope f.flow.loops).isInvariant p.loop start = true) (hnext : f.Tells p.next next)
    (hclose : (f.scope f.flow.loops).close? p (.unknown (.result id)) start next = some e) :
    f.Tells (.result id) e := by
  obtain ⟨⟨x, k⟩, hplace⟩ := exists_placedAt hs hi
  obtain ⟨rfl, b, c, hm⟩ :=
    exists_mergesAt (wellFormed_of_strictSsa hs) (hs.mergesFit hh) hplace hi ho hp
  obtain ⟨ops, rfl, hset⟩ :=
    hm.exists_settled hs hh hplace hstart.shows hinv hnext.shows hclose
  obtain ⟨hregular, hvisible⟩ := hset.visible_recurrence hm
  refine tells_of_yield hs hplace hregular (fun _ => hvisible) ?_ ?_ ?_
  · exact fun h => hm.not_entry ((mem_merges_iff hs hplace).mp h).1
  · intro inp s w j hr hsp hj hphi
    obtain rfl : i = j := Option.some.inj (hi.symm.trans hj)
    rw [Instruction.isPhi, Instruction.opcode, ho] at hphi
    cases hphi
  · exact fun inp s hr hdone he hmerge ih =>
      hm.merged_eq hs hplace hstart hnext hset hr hdone he hmerge ih

end Func
end LoopStride
