import LoopStride.Proofs.Expr.Meaning

/-! Symbolic addition, scaling and multiplication are addition and multiplication of words, for
expressions whose recurrences all have an operand. -/
namespace LoopStride

/-- An addition of proper expressions that adds their words. -/
structure AddsWords (add : List Expr → Expr) : Prop where
  proper : Makeup.proper.Adds add
  eval : ∀ {ρ ts}, (∀ t ∈ ts, t.MadeOf .proper) → (add ts).eval ρ = (ts.map (Expr.eval ρ)).sum

namespace Scope
variable {S : Scope} {ρ : Reading} {add : List Expr → Expr} {h : BlockId} {l : LoopId} {c : Int64}
  {as bs ts ops : List Expr} {r : Recurrence} {qs : List Recurrence} {e t u : Expr} {k i : Nat}

theorem stable_proper : S.Stable .proper := stable_plain (Nat.le_refl 1) (Nat.le_succ 1)

/-! ### Addition -/

theorem newton_addOperands (hadd : AddsWords add) (ha : ∀ o ∈ as, o.MadeOf .proper)
    (hb : ∀ o ∈ bs, o.MadeOf .proper) :
    newton k i ((addOperands add as bs).map (Expr.eval ρ)) =
      newton k i (as.map (Expr.eval ρ)) + newton k i (bs.map (Expr.eval ρ)) := by
  have pair : ∀ {a b : Expr}, a.MadeOf .proper → b.MadeOf .proper →
      (add [a, b]).eval ρ = a.eval ρ + b.eval ρ := by
    intro a b ha hb
    rw [hadd.eval (forall_mem_pair.mpr ⟨ha, hb⟩)]
    simp
  induction as generalizing bs i with
  | nil =>
    rw [addOperands, List.map_map, List.map_nil, newton_nil, Int64.zero_add]
    congr 1
    refine List.map_congr_left fun b h => ?_
    rw [Function.comp, pair Expr.madeOf_zero (hb b h), Expr.eval_zero, Int64.zero_add]
  | cons a as ih =>
    cases bs with
    | nil =>
      rw [addOperands, List.map_map, List.map_nil, newton_nil, Int64.add_zero]
      · congr 1
        refine List.map_congr_left fun b h => ?_
        rw [Function.comp, pair (ha b h) Expr.madeOf_zero, Expr.eval_zero, Int64.add_zero]
      · simp
    | cons b bs =>
      have hrest := ih (i := i + 1) (fun o h => ha o (List.mem_cons_of_mem _ h))
        (fun o h => hb o (List.mem_cons_of_mem _ h))
      rw [addOperands, List.map_cons, List.map_cons, List.map_cons, newton_cons, newton_cons,
        newton_cons, hrest, pair (ha a List.mem_cons_self) (hb b List.mem_cons_self)]
      grind

theorem eval_mergeRecurrence (hadd : AddsWords add) (hr : r.toExpr.MadeOf .proper)
    (hq : ∀ q ∈ qs, q.toExpr.MadeOf .proper) :
    ((mergeRecurrence add r qs).map fun q => q.toExpr.eval ρ).sum =
      r.toExpr.eval ρ + (qs.map fun q => q.toExpr.eval ρ).sum := by
  induction qs with
  | nil => rfl
  | cons q qs ih =>
    rw [mergeRecurrence]
    split
    · rename_i he
      have hm := (Expr.madeOf_recurrence.mp hr).2.2
      have hm' := (Expr.madeOf_recurrence.mp (hq q (by simp))).2.2
      simp only [List.map_cons, List.sum_cons, Recurrence.toExpr, Expr.eval_recurrence,
        newton_addOperands hadd hm' hm, he]
      grind
    · rw [List.map_cons, List.map_cons, List.sum_cons, List.sum_cons,
        ih fun q h => hq q (by simp [h])]
      grind

theorem eval_ofList (hS : S.Stable .proper) (hadd : AddsWords add) (hts : ∀ t ∈ ts, t.MadeOf .proper) :
    (Terms.ofList add ts).constant +
      ((Terms.ofList add ts).recurrences.map fun q => q.toExpr.eval ρ).sum +
      ((Terms.ofList add ts).others.map (Expr.eval ρ)).sum = (ts.map (Expr.eval ρ)).sum := by
  induction ts with
  | nil => rfl
  | cons t ts ih =>
    have hts' : ∀ t ∈ ts, t.MadeOf .proper := fun t h => hts t (by simp [h])
    rw [List.map_cons, List.sum_cons, ← ih hts']
    cases t with
    | const c =>
      simp only [Terms.ofList, Expr.eval_const]
      grind
    | recurrence h ops =>
      have hr : (Expr.recurrence h ops).MadeOf .proper := hts _ (by simp)
      have hmerge : ((mergeRecurrence add ⟨h, ops⟩ (Terms.ofList add ts).recurrences).map
          fun q => q.toExpr.eval ρ).sum = (Expr.recurrence h ops).eval ρ + _ :=
        eval_mergeRecurrence hadd hr (hS.ofList hadd.proper hts').1
      simp only [Terms.ofList]
      rw [hmerge]
      grind
    | unknown | sum | product =>
      simp only [Terms.ofList, List.map_cons, List.sum_cons]
      grind

theorem newton_addToStart (hadd : AddsWords add) (hne : ops ≠ []) (ho : ∀ o ∈ ops, o.MadeOf .proper)
    (hts : ∀ t ∈ ts, t.MadeOf .proper) :
    newton k 0 ((addToStart add ops ts).map (Expr.eval ρ)) =
      newton k 0 (ops.map (Expr.eval ρ)) + (ts.map (Expr.eval ρ)).sum := by
  obtain ⟨start, rest, rfl⟩ := List.exists_cons_of_ne_nil hne
  cases ts with
  | nil => exact (Int64.add_zero _).symm
  | cons t ts =>
    have hall : ∀ u ∈ start :: t :: ts, u.MadeOf .proper :=
      List.forall_mem_cons.mpr ⟨ho start (by simp), hts⟩
    rw [addToStart, List.map_cons, newton_cons, hadd.eval hall, List.map_cons, List.map_cons,
      List.map_cons, newton_cons, Nat.choose_zero_right, List.sum_cons]
    have h1 : Int64.ofNat 1 = 1 := rfl
    rw [h1]
    grind

theorem sum_filter (ρ : Reading) (p : Expr → Bool) (ts : List Expr) :
    ((ts.filter p).map (Expr.eval ρ)).sum + ((ts.filter (not ∘ p)).map (Expr.eval ρ)).sum =
      (ts.map (Expr.eval ρ)).sum := by
  induction ts with
  | nil => rfl
  | cons t ts ih =>
    rw [List.map_cons, List.sum_cons, ← ih, List.filter_cons, List.filter_cons]
    cases hp : p t
    · simp only [Function.comp_apply, hp, Bool.not_false, if_true, if_neg Bool.false_ne_true,
        List.map_cons, List.sum_cons]
      grind
    · simp only [Function.comp_apply, hp, Bool.not_true, if_true, if_neg Bool.false_ne_true,
        List.map_cons, List.sum_cons]
      grind

/-- The start of a recurrence takes in the chosen terms and the constant. -/
theorem eval_absorb (hadd : AddsWords add) (p : Expr → Bool) (hne : ops ≠ [])
    (ho : ∀ o ∈ ops, o.MadeOf .proper) (hts : ∀ t ∈ ts, t.MadeOf .proper) :
    (Expr.recurrenceOf h (addToStart add ops
      (ts.filter p ++ if c = 0 then [] else [.const c]))).eval ρ +
      ((ts.filter (not ∘ p)).map (Expr.eval ρ)).sum =
    newton (ρ.round h) 0 (ops.map (Expr.eval ρ)) + (ts.map (Expr.eval ρ)).sum + c := by
  have hall : ∀ t ∈ ts.filter p ++ (if c = 0 then [] else [.const c]), t.MadeOf .proper := by
    intro t ht
    cases List.mem_append.mp ht with
    | inl ht => exact hts t (List.mem_filter.mp ht).1
    | inr ht => exact (Expr.mem_constantTerm.mp ht).2 ▸ Expr.madeOf_const
  rw [Expr.eval_recurrenceOf, newton_addToStart hadd hne ho hall, List.map_append, List.sum_append,
    Expr.sum_constantTerm, ← sum_filter ρ p ts]
  grind

theorem eval_addWith (hadd : AddsWords add) (hts : ∀ t ∈ ts, t.MadeOf .proper) :
    (S.addWith add ts).eval ρ = (ts.map (Expr.eval ρ)).sum := by
  have hflat : ∀ t ∈ Expr.termsOfAll ts, t.MadeOf .proper := fun t =>
    Expr.MadeOf.of_mem_termsOfAll hts
  have htotal := eval_ofList (S := S) (ρ := ρ) stable_proper hadd hflat
  obtain ⟨hrec, hoth⟩ := (stable_proper (S := S)).ofList hadd.proper hflat
  rw [addWith, ← Expr.sum_termsOfAll, ← htotal]
  generalize Terms.ofList add (Expr.termsOfAll ts) = parts at hrec hoth ⊢
  have hperm : (S.sortByDepth parts.recurrences).Perm parts.recurrences := sortByDepth_perm
  rw [← sum_perm (hperm.map fun q => q.toExpr.eval ρ)]
  dsimp only
  cases hs : S.sortByDepth parts.recurrences with
  | nil =>
    rw [Expr.eval_sumOf, List.map_nil, List.sum_nil]
    grind
  | cons r rest =>
    rw [hs] at hperm
    obtain ⟨hlen, -, hm⟩ :=
      Expr.madeOf_recurrence.mp (hrec r (hperm.mem_iff.mp List.mem_cons_self))
    have hne : r.operands ≠ [] := (stable_proper (S := S)).ne_nil hlen
    have hrest : ∀ t ∈ rest.map Recurrence.toExpr, t.MadeOf .proper :=
      List.forall_mem_map.mpr fun q hq => hrec q (hperm.mem_iff.mp (List.mem_cons_of_mem _ hq))
    have hall : ∀ t ∈ rest.map Recurrence.toExpr ++ parts.others, t.MadeOf .proper := fun t ht =>
      (List.mem_append.mp ht).elim (hrest t) (hoth t)
    have hsum : (rest.map fun q => q.toExpr.eval ρ).sum =
        ((rest.map Recurrence.toExpr).map (Expr.eval ρ)).sum := by
      rw [List.map_map, Function.comp_def]
    rw [List.map_cons, List.sum_cons, hsum, Recurrence.toExpr, Expr.eval_recurrence]
    dsimp only
    cases hl : S.forest.ofHeader? r.header with
    | none =>
      rw [Expr.eval_sumOf, List.map_cons, List.sum_cons, Expr.eval_recurrenceOf, List.map_append,
        List.sum_append]
      grind
    | some l =>
      have habsorb := eval_absorb (h := r.header) (c := parts.constant) (ρ := ρ) hadd
        (S.isInvariant l) hne hm hall
      rw [List.map_append, List.sum_append] at habsorb
      dsimp only
      rw [List.partition_eq_filter_filter, Expr.eval_sumOf, List.map_cons, List.sum_cons]
      dsimp only
      grind

theorem addsWords_addUpTo {n : Nat} : AddsWords (S.addUpTo n) := by
  induction n with
  | zero =>
    refine ⟨stable_proper.adds 0, fun hts => eval_addWith ⟨⟨.sumOf, fun _ _ => trivial⟩, ?_⟩ hts⟩
    exact fun _ => Expr.eval_sumOf.trans (Int64.add_zero _)
  | succ n ih => exact ⟨stable_proper.adds (n + 1), fun hts => eval_addWith ih hts⟩

theorem eval_add (hts : ∀ t ∈ ts, t.MadeOf .proper) :
    (S.add ts).eval ρ = (ts.map (Expr.eval ρ)).sum :=
  addsWords_addUpTo.eval hts

/-! ### Multiplication -/

theorem newton_map_eval_mul {w : Int64} (f : Expr → Expr)
    (hf : ∀ o ∈ ops, (f o).eval ρ = o.eval ρ * w) :
    newton k i ((ops.map f).map (Expr.eval ρ)) = newton k i (ops.map (Expr.eval ρ)) * w := by
  rw [← newton_map_mul, List.map_map, List.map_map]
  congr 1
  exact List.map_congr_left hf

theorem eval_scale : (S.scale c e).eval ρ = c * e.eval ρ := by
  have hfactors : ∀ e : Expr, (if c = 0 then .zero else if c = 1 then e
      else Expr.productOf (.const c :: e.factors)).eval ρ = c * e.eval ρ := by
    intro e
    by_cases h0 : c = 0
    · simp [h0]
    by_cases h1 : c = 1
    · simp [h1]
    rw [if_neg h0, if_neg h1, Expr.eval_productOf, List.map_cons, List.prod_cons, Expr.prod_factors,
      Expr.eval_const]
  induction e using Expr.byParts with
  | const d => simp [scale]
  | unknown v => exact hfactors (.unknown v)
  | sum ts => exact hfactors (.sum ts)
  | product ts => exact hfactors (.product ts)
  | recurrence h ops ih =>
    rw [scale, scaleAll_eq_map]
    by_cases h0 : c = 0
    · simp [h0]
    by_cases h1 : c = 1
    · simp [h1]
    rw [if_neg h0, if_neg h1]
    split
    · rw [Expr.eval_recurrenceOf, Expr.eval_recurrence, Int64.mul_comm c]
      exact newton_map_eval_mul _ fun o ho => (ih o ho).trans (Int64.mul_comm _ _)
    · rw [Expr.eval_productOf]
      simp

theorem eval_mul (ht : t.MadeOf .proper) (hu : u.MadeOf .proper) :
    (S.mul t u).eval ρ = t.eval ρ * u.eval ρ := by
  have spread : ∀ {h ops e}, (Expr.recurrence h ops).MadeOf .proper → e.MadeOf .proper →
      (∀ o ∈ ops, o.MadeOf .proper → e.MadeOf .proper → (S.mul o e).eval ρ = o.eval ρ * e.eval ρ) →
      (Expr.recurrenceOf h (ops.map fun o => S.mul o e)).eval ρ =
        (Expr.recurrence h ops).eval ρ * e.eval ρ := by
    intro h ops e hr he ih
    rw [Expr.eval_recurrenceOf, Expr.eval_recurrence]
    exact newton_map_eval_mul _ fun o ho => ih o ho ((Expr.madeOf_recurrence.mp hr).2.2 o ho) he
  have pair : ∀ t u : Expr, (Expr.productOf (t.factors ++ u.factors)).eval ρ =
      t.eval ρ * u.eval ρ := by
    intro t u
    rw [Expr.eval_productOf, List.map_append, List.prod_append, Expr.prod_factors,
      Expr.prod_factors]
  fun_induction S.mul t u with
  | case1 c e => rw [eval_scale, Expr.eval_const]
  | case2 e c => rw [eval_scale, Expr.eval_const, Int64.mul_comm]
  | case3 h a b c d square ihbd ihac ihad ihbc =>
    obtain ⟨ha, hb⟩ := forall_mem_pair.mp (Expr.madeOf_recurrence.mp ht).2.2
    obtain ⟨hc, hd⟩ := forall_mem_pair.mp (Expr.madeOf_recurrence.mp hu).2.2
    have hterms : ∀ s ∈ [S.mul a d, S.mul b c, square], s.MadeOf .proper :=
      List.forall_mem_cons.mpr ⟨stable_proper.madeOf_mul ha hd,
        forall_mem_pair.mpr ⟨stable_proper.madeOf_mul hb hc, stable_proper.madeOf_mul hb hd⟩⟩
    rw [Expr.eval_recurrenceOf, Expr.eval_recurrence, Expr.eval_recurrence]
    simp only [List.map_cons, List.map_nil, List.sum_cons, List.sum_nil, eval_add hterms, eval_scale,
      ihac ha hc, ihad ha hd, ihbc hb hc, ihbd hb hd, newton_mul, Int64.add_zero, square]
  | case4 h as bs => simp
  | case5 h as h' bs hne hd ih => exact spread ht hu ih
  | case6 h as h' bs hne hn hd ih => rw [spread hu ht ih, Int64.mul_comm]
  | case7 h as h' bs => simp
  | case8 h as e hc hr hd ih => exact spread ht hu ih
  | case9 h as e hc hr hd => exact pair (.recurrence h as) e
  | case10 e h bs hc hr hd ih => rw [spread hu ht ih, Int64.mul_comm]
  | case11 e h bs hc hr hd => exact pair e (.recurrence h bs)
  | case12 t u => exact pair _ _

/-- Whatever words the symbols have and whatever rounds the loops are in, a sum has the word that its
terms add up to and a product that of its factors multiplied. Both have an operand in each recurrence
again, so that the same holds of everything built from them. -/
theorem arithmetic_keeps_words (S : Scope) (ρ : Reading) :
    (∀ ts, (∀ t ∈ ts, t.MadeOf .proper) →
      (S.add ts).eval ρ = (ts.map (Expr.eval ρ)).sum ∧ (S.add ts).MadeOf .proper) ∧
    ∀ t u, t.MadeOf .proper → u.MadeOf .proper →
      (S.mul t u).eval ρ = t.eval ρ * u.eval ρ ∧ (S.mul t u).MadeOf .proper :=
  ⟨fun _ hts => ⟨eval_add hts, stable_proper.madeOf_add hts⟩,
    fun _ _ ht hu => ⟨eval_mul ht hu, stable_proper.madeOf_mul ht hu⟩⟩

/-- A loop of blocks one to three, around a loop of block two. Instruction 1 is in the inner loop,
instruction 0 in none. -/
def twoLoops : Scope where
  forest := ⟨[⟨1, [3], [1, 2, 3], none, 1⟩, ⟨2, [2], [2], some 0, 2⟩]⟩
  home id := if id = 1 then some 2 else some 0

/-- In round 3 of the outer loop and round 5 of the inner one. -/
def sampleReading : Reading where
  word v := if v = .result 0 then 10 else -7
  round h := if h = 1 then 3 else 5

/-- The outer recurrence and what is fixed go into the start of the inner one, and two steps of the
inner loop multiply to a quadratic recurrence. -/
theorem arithmetic_keeps_words_twoLoops :
    let ts : List Expr := [.recurrence 2 [.const 1, .const 2], .recurrence 1 [.const 3, .const 4],
      .unknown (.result 0), .const 5, .unknown (.result 1), .recurrence 2 [.const 7, .const 8]]
    let t := Expr.recurrence 2 [.unknown (.result 0), .const 2]
    let u := Expr.recurrence 2 [.const 3, .const 4]
    (∀ s ∈ ts, s.MadeOf .proper) ∧ t.MadeOf .proper ∧ u.MadeOf .proper ∧
    twoLoops.add ts = .sum [.recurrence 2
      [.recurrence 1 [.sum [.unknown (.result 0), .const 16], .const 4], .const 10],
      .unknown (.result 1)] ∧
    twoLoops.mul t u = .recurrence 2 [.product [.const 3, .unknown (.result 0)],
      .sum [.product [.const 4, .unknown (.result 0)], .const 14], .const 16] ∧
    (twoLoops.add ts).eval sampleReading = 81 ∧ (twoLoops.mul t u).eval sampleReading = 460 := by
  intro ts t u
  have hts : ∀ s ∈ ts, s.MadeOf .proper := by simp [ts, Makeup.proper, Makeup.plain]
  have ht : t.MadeOf .proper := by simp [t, Makeup.proper, Makeup.plain]
  have hu : u.MadeOf .proper := by simp [u, Makeup.proper, Makeup.plain]
  obtain ⟨hadd, hmul⟩ := arithmetic_keeps_words twoLoops sampleReading
  refine ⟨hts, ht, hu, by decide, by decide +kernel, (hadd ts hts).1.trans ?_,
    (hmul t u ht hu).1.trans ?_⟩
  · simp [ts, sampleReading, newton_cons]
  · simp [t, u, sampleReading, newton_cons]

end Scope
end LoopStride
