import LoopStride.Proofs.Expr.Makeup

/-! Addition without its bound. The sums that arise inside a sum hold fewer recurrences than the whole,
and adding makes none, so the bound on the depth of inner sums is never met. -/
namespace LoopStride

namespace Expr
variable {h : BlockId} {ts us ops : List Expr} {c : Int64}

theorem recurrencesAll_perm (h : ts.Perm us) : recurrencesAll ts = recurrencesAll us := by
  induction h with
  | nil => rfl
  | cons t _ ih => rw [recurrencesAll, recurrencesAll, ih]
  | swap t u ts => simp only [recurrencesAll, Nat.add_left_comm]
  | trans _ _ ih ih' => exact ih.trans ih'

theorem recurrencesAll_filter (p : Expr → Bool) (ts : List Expr) :
    recurrencesAll (ts.filter p) + recurrencesAll (ts.filter (not ∘ p)) = recurrencesAll ts := by
  rw [← recurrencesAll_append]
  exact recurrencesAll_perm (List.filter_append_perm p ts)

theorem recurrencesAll_append_constant :
    recurrencesAll (ts ++ if c = 0 then [] else [const c]) = recurrencesAll ts := by
  rw [recurrencesAll_append]
  by_cases hc : c = 0 <;> simp [hc, recurrencesAll, recurrences]

theorem recurrencesAll_dropZeros_le : recurrencesAll (dropZeros ts) ≤ recurrencesAll ts := by
  induction ts with
  | nil => exact Nat.le_refl _
  | cons t ts ih =>
    rw [dropZeros, recurrencesAll]
    cases hd : dropZeros ts with
    | nil =>
      by_cases ht : t = zero <;> simp [ht, recurrencesAll]
    | cons u us =>
      rw [hd] at ih
      exact Nat.add_le_add_left ih _

theorem recurrences_recurrenceOf_le : (recurrenceOf h ops).recurrences ≤ recurrencesAll ops + 1 := by
  cases ops with
  | nil => simp [recurrenceOf, recurrences]
  | cons start rest =>
    have hrest : recurrencesAll (dropZeros rest) ≤ recurrencesAll rest := recurrencesAll_dropZeros_le
    rw [recurrenceOf, recurrencesAll]
    cases hd : dropZeros rest with
    | nil => exact Nat.le_succ_of_le (Nat.le_add_right _ _)
    | cons u us =>
      rw [hd] at hrest
      simp only [recurrences, recurrencesAll] at hrest ⊢
      omega

theorem recurrences_sumOf : (sumOf ts c).recurrences = recurrencesAll ts := by
  rw [sumOf, ← recurrencesAll_append_constant (c := c)]
  split
  · next hnil => rw [hnil, recurrences, recurrencesAll]
  · next t ht => rw [ht, recurrencesAll, recurrencesAll, Nat.add_zero]
  · rw [recurrences]

theorem recurrencesAll_termsOfAll : recurrencesAll (termsOfAll ts) = recurrencesAll ts := by
  have hall : ∀ {ts : List Expr}, (∀ t ∈ ts, recurrencesAll t.terms = t.recurrences) →
      recurrencesAll (termsOfAll ts) = recurrencesAll ts := by
    intro ts hts
    induction ts with
    | nil => rfl
    | cons t ts ih =>
      rw [termsOfAll, recurrencesAll_append, recurrencesAll, hts t List.mem_cons_self,
        ih fun t ht => hts t (List.mem_cons_of_mem _ ht)]
  have hterms : ∀ t : Expr, recurrencesAll t.terms = t.recurrences := by
    intro t
    induction t using byParts with
    | sum ts ih => rw [terms, hall ih, recurrences]
    | const | unknown | product | recurrence => simp [terms, recurrencesAll]
  exact hall fun t _ => hterms t

end Expr

open LoopStride.Expr (recurrencesAll recurrences)

/-- On fewer than `n` recurrences two additions agree, and make none. -/
structure Agree (n : Nat) (add add' : List Expr → Expr) : Prop where
  eq : ∀ {ts}, recurrencesAll ts < n → add ts = add' ts
  le : ∀ {ts}, recurrencesAll ts < n → (add ts).recurrences ≤ recurrencesAll ts

section
variable {S : Scope} {n m : Nat} {add add' : List Expr → Expr} {ts ops : List Expr} {k : BlockId}
  {c : Int64}

theorem recurrences_toExpr (r : Recurrence) :
    r.toExpr.recurrences = recurrencesAll r.operands + 1 := by
  rw [Recurrence.toExpr, recurrences]

theorem Agree.map (h : Agree n add add') (g : Expr → List Expr)
    (hg : ∀ t, recurrencesAll (g t) = t.recurrences) (hn : recurrencesAll ts < n) :
    (ts.map fun t => add (g t)) = (ts.map fun t => add' (g t)) ∧
      recurrencesAll (ts.map fun t => add (g t)) ≤ recurrencesAll ts := by
  induction ts with
  | nil => exact ⟨rfl, Nat.le_refl _⟩
  | cons t ts ih =>
    rw [recurrencesAll] at hn
    have ht : recurrencesAll (g t) < n := by rw [hg]; omega
    obtain ⟨heq, hle⟩ := ih (by omega)
    refine ⟨by rw [List.map_cons, List.map_cons, heq, h.eq ht], ?_⟩
    rw [List.map_cons, recurrencesAll, recurrencesAll]
    exact Nat.add_le_add (hg t ▸ h.le ht) hle

theorem Agree.addOperands (h : Agree n add add') (as bs : List Expr)
    (hn : recurrencesAll as + recurrencesAll bs < n) :
    addOperands add as bs = addOperands add' as bs ∧
      recurrencesAll (addOperands add as bs) ≤ recurrencesAll as + recurrencesAll bs := by
  have hzero : Expr.zero.recurrences = 0 := by simp [Expr.zero, recurrences]
  induction as generalizing bs with
  | nil =>
    rw [recurrencesAll, Nat.zero_add] at hn ⊢
    exact h.map (fun b => [.zero, b]) (by simp [recurrencesAll, hzero]) hn
  | cons a as ih =>
    cases bs with
    | nil => exact h.map (fun a => [a, .zero]) (by simp [recurrencesAll, hzero]) hn
    | cons b bs =>
      have hpair : recurrencesAll [a, b] = a.recurrences + b.recurrences := by simp [recurrencesAll]
      rw [recurrencesAll, recurrencesAll] at hn
      have hab : recurrencesAll [a, b] < n := by omega
      obtain ⟨heq, hle⟩ := ih bs (by omega)
      have hhead := h.le hab
      rw [LoopStride.addOperands, LoopStride.addOperands, heq, h.eq hab]
      refine ⟨rfl, ?_⟩
      rw [← heq, ← h.eq hab]
      simp only [recurrencesAll]
      omega

theorem Agree.mergeRecurrence (h : Agree n add add') (r : Recurrence) (qs : List Recurrence)
    (hn : r.toExpr.recurrences + recurrencesAll (qs.map Recurrence.toExpr) ≤ n) :
    mergeRecurrence add r qs = mergeRecurrence add' r qs ∧
      recurrencesAll ((mergeRecurrence add r qs).map Recurrence.toExpr) ≤
        r.toExpr.recurrences + recurrencesAll (qs.map Recurrence.toExpr) := by
  induction qs with
  | nil => exact ⟨rfl, Nat.le_refl _⟩
  | cons q qs ih =>
    rw [List.map_cons, recurrencesAll] at hn ⊢
    rw [LoopStride.mergeRecurrence, LoopStride.mergeRecurrence]
    split
    · rw [recurrences_toExpr, recurrences_toExpr] at hn ⊢
      obtain ⟨heq, hle⟩ := h.addOperands q.operands r.operands (by omega)
      refine ⟨by rw [heq], ?_⟩
      rw [List.map_cons, recurrencesAll, recurrences_toExpr]
      dsimp only
      omega
    · obtain ⟨heq, hle⟩ := ih (by omega)
      refine ⟨by rw [heq], ?_⟩
      rw [List.map_cons, recurrencesAll]
      omega

theorem Agree.ofList (h : Agree n add add') (ts : List Expr) (hn : recurrencesAll ts ≤ n) :
    Terms.ofList add ts = Terms.ofList add' ts ∧
      recurrencesAll ((Terms.ofList add ts).recurrences.map Recurrence.toExpr) +
        recurrencesAll (Terms.ofList add ts).others ≤ recurrencesAll ts := by
  induction ts with
  | nil => exact ⟨rfl, Nat.le_refl _⟩
  | cons t ts ih =>
    rw [recurrencesAll] at hn ⊢
    obtain ⟨heq, hle⟩ := ih (by omega)
    cases t with
    | const c =>
      simp only [Terms.ofList, ← heq]
      exact ⟨trivial, by omega⟩
    | recurrence k ops =>
      have hr : Recurrence.toExpr ⟨k, ops⟩ = .recurrence k ops := rfl
      have hmerge := h.mergeRecurrence ⟨k, ops⟩ (Terms.ofList add ts).recurrences
        (by rw [hr]; omega)
      rw [hr] at hmerge
      simp only [Terms.ofList, ← heq, ← hmerge.1]
      exact ⟨trivial, by omega⟩
    | unknown | sum | product =>
      simp only [Terms.ofList, ← heq, recurrencesAll]
      exact ⟨trivial, by omega⟩

theorem Agree.addToStart (h : Agree n add add') (ops ts : List Expr)
    (hn : recurrencesAll ops + recurrencesAll ts < n) :
    addToStart add ops ts = addToStart add' ops ts ∧
      recurrencesAll (addToStart add ops ts) ≤ recurrencesAll ops + recurrencesAll ts := by
  cases ops with
  | nil => exact ⟨rfl, Nat.le_add_right _ _⟩
  | cons start rest =>
    cases ts with
    | nil => exact ⟨rfl, Nat.le_add_right _ _⟩
    | cons t ts =>
      rw [recurrencesAll] at hn
      have hcount : recurrencesAll (start :: t :: ts) =
          start.recurrences + recurrencesAll (t :: ts) := by rw [recurrencesAll]
      have hstart : recurrencesAll (start :: t :: ts) < n := by omega
      have hle := h.le hstart
      rw [LoopStride.addToStart, LoopStride.addToStart, h.eq hstart]
      refine ⟨rfl, ?_⟩
      rw [← h.eq hstart, recurrencesAll, recurrencesAll]
      omega

/-- What a recurrence takes into its start and what it leaves hold as much as before. -/
theorem Agree.absorb (h : Agree n add add') (p : Expr → Bool)
    (hn : recurrencesAll ops + recurrencesAll ts < n) :
    let taken := ts.filter p ++ if c = 0 then [] else [.const c]
    LoopStride.addToStart add ops taken = LoopStride.addToStart add' ops taken ∧
      (Expr.recurrenceOf k (LoopStride.addToStart add ops taken)).recurrences +
        recurrencesAll (ts.filter (not ∘ p)) ≤ recurrencesAll ops + 1 + recurrencesAll ts := by
  intro taken
  have hsplit := Expr.recurrencesAll_filter p ts
  have htaken : recurrencesAll taken = recurrencesAll (ts.filter p) :=
    Expr.recurrencesAll_append_constant
  obtain ⟨heq, hle⟩ := h.addToStart ops taken (by omega)
  have hmade : (Expr.recurrenceOf k (LoopStride.addToStart add ops taken)).recurrences ≤
      recurrencesAll (LoopStride.addToStart add ops taken) + 1 := Expr.recurrences_recurrenceOf_le
  exact ⟨heq, by omega⟩

/-- An addition that agrees with another one on the inner sums agrees with it on the whole. -/
theorem Agree.addWith (h : Agree n add add') : Agree (n + 1) (S.addWith add) (S.addWith add') := by
  have key : ∀ {ts}, recurrencesAll ts < n + 1 → S.addWith add ts = S.addWith add' ts ∧
      (S.addWith add ts).recurrences ≤ recurrencesAll ts := by
    intro ts hts
    have hflat : recurrencesAll (Expr.termsOfAll ts) = recurrencesAll ts :=
      Expr.recurrencesAll_termsOfAll
    obtain ⟨heq, hle⟩ := h.ofList (Expr.termsOfAll ts) (by omega)
    rw [hflat] at hle
    rw [Scope.addWith, Scope.addWith, ← heq]
    generalize Terms.ofList add (Expr.termsOfAll ts) = parts at hle ⊢
    have hperm : (S.sortByDepth parts.recurrences).Perm parts.recurrences := Scope.sortByDepth_perm
    have hsort := Expr.recurrencesAll_perm (hperm.map Recurrence.toExpr)
    dsimp only
    cases hs : S.sortByDepth parts.recurrences with
    | nil =>
      refine ⟨rfl, ?_⟩
      rw [Expr.recurrences_sumOf]
      omega
    | cons r rest =>
      rw [hs, List.map_cons, recurrencesAll, recurrences_toExpr] at hsort
      dsimp only
      cases S.forest.ofHeader? r.header with
      | none =>
        have hmade : (Expr.recurrenceOf r.header r.operands).recurrences ≤
            recurrencesAll r.operands + 1 := Expr.recurrences_recurrenceOf_le
        refine ⟨rfl, ?_⟩
        rw [Expr.recurrences_sumOf, recurrencesAll, Expr.recurrencesAll_append]
        omega
      | some l =>
        have hall : recurrencesAll (rest.map Recurrence.toExpr ++ parts.others) =
            recurrencesAll (rest.map Recurrence.toExpr) + recurrencesAll parts.others :=
          Expr.recurrencesAll_append _ _
        dsimp only
        rw [List.partition_eq_filter_filter]
        have hn : recurrencesAll r.operands +
            recurrencesAll (rest.map Recurrence.toExpr ++ parts.others) < n := by omega
        obtain ⟨hstart, hcount⟩ :=
          h.absorb (k := r.header) (c := parts.constant) (S.isInvariant l) hn
        dsimp only
        rw [hstart] at hcount ⊢
        rw [Expr.recurrences_sumOf, recurrencesAll]
        exact ⟨rfl, by omega⟩
  exact ⟨fun h => (key h).1, fun h => (key h).2⟩

theorem Agree.zero : Agree 0 add add' :=
  ⟨fun h => absurd h (Nat.not_lt_zero _), fun h => absurd h (Nat.not_lt_zero _)⟩

theorem agree_addUpTo (h : n ≤ m) : Agree (n + 1) (S.addUpTo n) (S.addUpTo m) := by
  induction n generalizing m with
  | zero => cases m <;> exact Agree.zero.addWith
  | succ n ih =>
    obtain ⟨m, rfl⟩ := Nat.exists_eq_add_of_le' (Nat.lt_of_lt_of_le (Nat.succ_pos n) h)
    exact (ih (Nat.le_of_succ_le_succ h)).addWith

/-- Addition is what it is without a bound on the depth of inner sums. -/
theorem Scope.add_eq_addWith (S : Scope) (ts : List Expr) : S.add ts = S.addWith S.add ts := by
  have hinner : ∀ n, Agree (n + 1) S.add (S.addUpTo n) := fun n =>
    ⟨fun h => (agree_addUpTo (Nat.le_of_lt_succ h)).eq (Nat.lt_succ_self _),
      fun _ => (agree_addUpTo (Nat.le_refl _)).le (Nat.lt_succ_self _)⟩
  rw [add]
  cases hn : recurrencesAll ts with
  | zero =>
    have hlt : recurrencesAll ts < 0 + 1 := by omega
    exact (Agree.zero.addWith.eq hlt).symm
  | succ n =>
    have hlt : recurrencesAll ts < n + 1 + 1 := by omega
    exact ((hinner n).addWith.eq hlt).symm

/-- A sum without recurrences is that of its other terms and a constant. -/
theorem Scope.add_eq_sumOf {us : List Expr} {c : Int64}
    (h : Terms.ofList S.add (Expr.termsOfAll ts) = ⟨c, [], us⟩) : S.add ts = Expr.sumOf us c := by
  rw [add_eq_addWith, addWith, h]
  rfl

theorem Scope.recurrences_add_le (S : Scope) (ts : List Expr) :
    (S.add ts).recurrences ≤ recurrencesAll ts :=
  (agree_addUpTo (Nat.le_refl _)).le (Nat.lt_succ_self _)

/-- What passes from terms to sums on one level of addition, if it does for the sums inside, passes
from terms to sums. -/
theorem Scope.add_induct {P Q : Expr → Prop} (hzero : Q .zero)
    (hlevel : ∀ add : List Expr → Expr, (∀ ts, (∀ t ∈ ts, P t) → Q (add ts)) →
      ∀ ts, (∀ t ∈ ts, P t) → Q (S.addWith add ts)) (hts : ∀ t ∈ ts, P t) : Q (S.add ts) := by
  -- the induction is on the number of recurrences; beyond it the sum is of no account
  let cut : Nat → List Expr → Expr := fun n ts => if recurrencesAll ts < n then S.add ts else .zero
  have hagree : ∀ n, Agree n S.add (cut n) := fun n =>
    ⟨fun h => (if_pos h).symm, fun _ => S.recurrences_add_le _⟩
  have hcut : ∀ n ts, (∀ t ∈ ts, P t) → Q (cut n ts) := by
    intro n
    induction n with
    | zero => exact fun ts _ => hzero
    | succ n ih =>
      intro ts hts
      by_cases hn : recurrencesAll ts < n + 1
      · have heq : cut (n + 1) ts = S.addWith (cut n) ts := by
          rw [show cut (n + 1) ts = S.add ts from if_pos hn, S.add_eq_addWith ts]
          exact (hagree n).addWith.eq hn
        rw [heq]
        exact hlevel (cut n) ih ts hts
      · rw [show cut (n + 1) ts = .zero from if_neg hn]
        exact hzero
  have hall := hcut (recurrencesAll ts + 1) ts hts
  rwa [show cut (recurrencesAll ts + 1) ts = S.add ts from if_pos (Nat.lt_succ_self _)] at hall

end
end LoopStride
