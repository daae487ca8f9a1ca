import LoopStride.Proofs.Expr.Algebra
import LoopStride.Proofs.Runs.Ssa

/-! When an expression tells the value of an instruction: wherever the instruction is done, the
expression stands for the word that it yielded. In strict single-assignment form it is enough that
this holds at the moment the word is yielded, for nothing the expression is made of changes before
the instruction is done anew. -/
namespace LoopStride

namespace Func

/-- Everything the expression is made of is done at point `p`. -/
def Visible (f : Func) (p : BlockId × Nat) (e : Expr) : Prop :=
  e.MadeOf (.plain 1 (f.Available p) fun h => f.flow.Ahead (h, 0) p)

/-- Wherever `v` is available, so is everything that `e` is made of. -/
structure Shows (f : Func) (v : Value) (e : Expr) : Prop where
  regular : e.MadeOf (f.scope f.flow.loops).regular
  visible : ∀ p, f.flow.Reaches p.1 → f.Available p v → f.Visible p e

/-- Wherever `v` is available, so is `e`, and it stands for the same word in every run. -/
structure Tells (f : Func) (v : Value) (e : Expr) : Prop where
  regular : e.MadeOf (f.scope f.flow.loops).regular
  visible : ∀ p, f.flow.Reaches p.1 → f.Available p v → f.Visible p e
  word : ∀ inp s, f.Runs inp s → f.Available (s.block, s.done) v →
    s.read inp v = e.eval (s.reading inp)

variable {f : Func} {inp : Inputs} {s : Machine} {p q : BlockId × Nat} {e : Expr} {v : Value}
  {id : InstId} {t : BlockId} {w : Int64} {i : Instruction}

theorem Visible.mono (h : f.Visible p e) (hpq : ∀ r, f.flow.Ahead r p → f.flow.Ahead r q) :
    f.Visible q e := by
  refine Expr.MadeOf.mono (M := .plain 1 (f.Available p) _) (Nat.le_refl 1) (fun v hv => ?_)
    (fun h _ _ hh => hpq (h, 0) hh) h
  cases v with
  | result id =>
    obtain ⟨r, hr, ha⟩ := hv
    exact ⟨r, hr, hpq r ha⟩
  | _ => trivial

theorem Tells.shows (h : f.Tells v e) : f.Shows v e := ⟨h.regular, h.visible⟩

theorem tells_symbol : f.Tells v (.unknown v) where
  regular := Expr.madeOf_unknown.mpr trivial
  visible _ _ ha := Expr.madeOf_unknown.mpr ha
  word inp s _ _ := (Expr.eval_unknown (ρ := s.reading inp)).symm

theorem tells_literal {c : Int64} {bits : Nat} : f.Tells (.literal (.int c bits)) (.const c) where
  regular := Expr.madeOf_const
  visible _ _ _ := Expr.madeOf_const
  word _ _ _ _ := Expr.eval_const.symm

/-! ### Steps that change nothing visible -/

theorem eval_yield (hs : f.StrictSsa) (hid : f.PlacedAt id (s.block, s.done))
    (he : f.Visible (s.block, s.done) e) :
    e.eval ((s.yield id w).reading inp) = e.eval (s.reading inp) := by
  refine Expr.eval_congr (fun v hv => ?_) (fun _ _ _ => rfl) he
  cases v with
  | result j =>
    obtain ⟨q, hq, ha⟩ := hv
    have hne : j ≠ id := by
      rintro rfl
      rw [hq.unique hs hid] at ha
      exact ha.irrefl
    exact if_neg hne
  | literal l => cases l <;> rfl
  | param => rfl

theorem ahead_zero {g : Flow} {r : BlockId × Nat} : g.Ahead r (t, 0) ↔ g.StrictlyDominates r.1 t :=
  or_iff_right fun h => Nat.not_lt_zero _ h.2

theorem merged_of_ne (hs : f.StrictSsa) (hp : f.PlacedAt id p) (hne : p.1 ≠ t) :
    s.merged f inp t id = s.value id :=
  if_neg fun h => hne ((mem_merges_iff hs hp).mp h).1

theorem eval_enter (hs : f.StrictSsa) (he : f.Visible (t, 0) e) :
    e.eval ((s.enter f inp t).reading inp) = e.eval (s.reading inp) := by
  refine Expr.eval_congr (fun v hv => ?_) (fun h _ hh => ?_) he
  swap
  · have hne : h ≠ t := (ahead_zero.mp hh).2
    exact if_neg hne
  cases v with
  | result j =>
    obtain ⟨q, hq, ha⟩ := hv
    exact merged_of_ne hs hq (ahead_zero.mp ha).2
  | literal l => cases l <;> rfl
  | param => rfl

/-! ### From the moment a word is yielded to the rest of the run -/

theorem exists_placedAt (hs : f.StrictSsa) (hi : f.inst? id = some i) : ∃ p, f.PlacedAt id p := by
  have hmem := hs.listed_once.mem_iff.mpr (List.mem_range.mpr (lt_size_of_inst? hi))
  rw [listedIds_eq_flatMap, List.mem_flatMap] at hmem
  obtain ⟨block, hblock, hid⟩ := hmem
  obtain ⟨b, hb⟩ := List.mem_iff_getElem?.mp hblock
  obtain ⟨k, hk⟩ := List.mem_iff_getElem?.mp hid
  rw [Array.getElem?_toList] at hb
  exact ⟨(b, k), by simp [PlacedAt, listing, block?, hb, hk]⟩

theorem available_of_placedAt (hs : f.StrictSsa) (hp : f.PlacedAt id p) :
    f.Available q (.result id) ↔ f.flow.Ahead p q := by
  constructor
  · rintro ⟨r, hr, ha⟩
    exact hr.unique hs hp ▸ ha
  · exact fun ha => ⟨p, hp, ha⟩

/-- What is done where its block leaves is done on entering a block that it dominates. -/
theorem ahead_of_ahead_enter {g : Flow} {u : BlockId} {n : Nat} (hu : g.Reaches u)
    (he : g.Edge u t) (hlt : p.1 = u → p.2 < n) (h : g.StrictlyDominates p.1 t) :
    g.Ahead p (u, n) := by
  have hd : g.Dominates p.1 u := h.1.of_edge h.2 hu he
  by_cases hpu : p.1 = u
  · exact .inl ⟨hpu, hlt hpu⟩
  · exact .inr ⟨hd, hpu⟩

/-- What is visible once the instruction at `p` is done stays visible from there on. -/
theorem visible_of_ahead (visible : f.flow.Reaches p.1 → f.Visible (p.1, p.2 + 1) e)
    (hq : f.flow.Reaches q.1) (ha : f.flow.Ahead p q) : f.Visible q e := by
  refine (visible (ha.dominates hq).reaches_left).mono fun r hr => ?_
  by_cases hrp : r = p
  · exact hrp ▸ ha
  · exact (Flow.Ahead.of_succ hr hrp).trans ha

/-- It is enough that the word is told when it is yielded: by its own step, or on entering the block
whose merge it is. The induction is on the run; any other step changes nothing the expression is
made of. -/
theorem tells_of_yield (hs : f.StrictSsa) (hp : f.PlacedAt id p)
    (regular : e.MadeOf (f.scope f.flow.loops).regular)
    (visible : f.flow.Reaches p.1 → f.Visible (p.1, p.2 + 1) e)
    (start : id ∉ f.merges f.entry)
    (exec : ∀ inp s w i, f.Runs inp s → (s.block, s.done) = p → f.inst? id = some i →
      i.isPhi = false → (∀ x, i.operation.word? (s.read inp) = some x → w = x) →
      w = e.eval ((s.yield id w).reading inp))
    (jump : ∀ inp s, f.Runs inp s → s.done = (f.listing s.block).length →
      f.flow.Edge s.block p.1 → id ∈ f.merges p.1 →
      (f.flow.Ahead p (s.block, s.done) → s.value id = e.eval (s.reading inp)) →
      s.merged f inp p.1 id = e.eval ((s.enter f inp p.1).reading inp)) :
    f.Tells (.result id) e := by
  have hvis := fun q => visible_of_ahead (q := q) visible
  refine ⟨regular, fun q hq ha => hvis q hq ((available_of_placedAt hs hp).mp ha), ?_⟩
  intro inp s hr ha
  rw [available_of_placedAt hs hp] at ha
  change s.value id = _
  induction hr with
  | start value =>
    rcases ha with ⟨he, hlt⟩ | hd
    · exact absurd ((mem_merges_iff hs hp).mpr ⟨he, hlt⟩) start
    · exact absurd rfl hd.ne_entry
  | @exec s j i w hr hj hi hphi hw ih =>
    by_cases hij : id = j
    · subst hij
      have hsp : (s.block, s.done) = p := PlacedAt.unique hs hj hp
      exact (if_pos rfl).trans (exec inp s w i hr hsp hi hphi hw)
    · have hne : p ≠ (s.block, s.done) := fun he => by
        rw [he, PlacedAt, hj] at hp
        exact hij (Option.some.inj hp).symm
      have ha' : f.flow.Ahead p (s.block, s.done) := ha.of_succ hne
      rw [eval_yield hs hj (hvis _ hr.reaches ha'), ← ih ha']
      exact if_neg hij
  | @jump s t hr hdone he ih =>
    have hend : p.1 = s.block → p.2 < s.done := fun h => by
      rw [hdone, ← h]
      exact hp.lt_length
    rcases ha with ⟨hpt, hlt⟩ | hd
    · obtain rfl : p.1 = t := hpt
      exact jump inp s hr hdone he ((mem_merges_iff hs hp).mpr ⟨rfl, hlt⟩) ih
    · have ha' := ahead_of_ahead_enter hr.reaches he hend hd
      have hvt : f.Visible (t, 0) e := hvis _ (hr.reaches.next he) (ahead_zero.mpr hd)
      rw [eval_enter hs hvt, ← ih ha']
      exact merged_of_ne hs hp hd.2

theorem tells_of_word (hs : f.StrictSsa) (hp : f.PlacedAt id p) (hi : f.inst? id = some i)
    (hphi : i.isPhi = false) (regular : e.MadeOf (f.scope f.flow.loops).regular)
    (visible : f.flow.Reaches p.1 → f.Visible p e)
    (word : ∀ inp s, f.Runs inp s → (s.block, s.done) = p →
      i.operation.word? (s.read inp) = some (e.eval (s.reading inp))) :
    f.Tells (.result id) e := by
  have hmerge : ∀ b, id ∉ f.merges b := fun b h => by
    have := (mem_merges h).2
    rw [isPhi_of_inst? hi, hphi] at this
    cases this
  refine tells_of_yield hs hp regular (fun h => (visible h).mono fun r hr =>
    hr.mono (Nat.le_succ _)) (hmerge _) ?_ fun _ _ _ _ _ hm => absurd hm (hmerge _)
  intro inp s w j hr hsp hj _ hw
  obtain rfl : i = j := Option.some.inj (hi.symm.trans hj)
  have hvis := visible (hsp ▸ hr.reaches)
  rw [← hsp] at hvis hp
  rw [eval_yield hs hp hvis]
  exact hw _ (word inp s hr hsp)

end Func
end LoopStride
