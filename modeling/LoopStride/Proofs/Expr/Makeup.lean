import Mathlib.Data.List.Basic
import LoopStride.Expr.Arithmetic

/-! What expressions are made of: the symbols in them, and the loops and operands of their
recurrences. Arithmetic brings in nothing new, so a recurrence whose operands its loop leaves alone
stays one. -/
namespace LoopStride

theorem forall_mem_pair {α : Type} {P : α → Prop} {a b : α} :
    (∀ x ∈ [a, b], P x) ↔ P a ∧ P b := by simp

/-- What an expression may be made of. -/
structure Makeup where
  /-- The fewest operands a recurrence may have. -/
  least : Nat
  symbol : Value → Prop
  /-- What may be an operand of a recurrence with a given header. -/
  operand : BlockId → Expr → Prop

namespace Makeup

/-- Any operands will do for the headers with property `H`. -/
def plain (least : Nat) (A : Value → Prop) (H : BlockId → Prop) : Makeup := ⟨least, A, fun h _ => H h⟩

/-- All that matters is that every recurrence has an operand. -/
def proper : Makeup := plain 1 (fun _ => True) fun _ => True

def both (M N : Makeup) : Makeup :=
  ⟨max M.least N.least, fun v => M.symbol v ∧ N.symbol v, fun h t => M.operand h t ∧ N.operand h t⟩

end Makeup

namespace Expr
variable {M N : Makeup} {h : BlockId} {e t : Expr} {ts ops : List Expr} {c : Int64}

mutual

def MadeOf (M : Makeup) : Expr → Prop
  | const _ => True
  | unknown v => M.symbol v
  | sum ts => AllMadeOf M ts
  | product ts => AllMadeOf M ts
  | recurrence h ts => M.least ≤ ts.length ∧ (∀ t ∈ ts, M.operand h t) ∧ AllMadeOf M ts

def AllMadeOf (M : Makeup) : List Expr → Prop
  | [] => True
  | t :: ts => MadeOf M t ∧ AllMadeOf M ts

end

theorem allMadeOf_iff : AllMadeOf M ts ↔ ∀ t ∈ ts, t.MadeOf M := by
  induction ts with
  | nil => simp [AllMadeOf]
  | cons t ts ih => simp [AllMadeOf, ih]

@[simp] theorem madeOf_const : (const c).MadeOf M := by simp [MadeOf]

@[simp] theorem madeOf_zero : zero.MadeOf M := madeOf_const

@[simp] theorem madeOf_unknown {v : Value} : (unknown v).MadeOf M ↔ M.symbol v := by simp [MadeOf]

@[simp] theorem madeOf_sum : (sum ts).MadeOf M ↔ ∀ t ∈ ts, t.MadeOf M := by
  rw [MadeOf, allMadeOf_iff]

@[simp] theorem madeOf_product : (product ts).MadeOf M ↔ ∀ t ∈ ts, t.MadeOf M := by
  rw [MadeOf, allMadeOf_iff]

@[simp] theorem madeOf_recurrence : (recurrence h ts).MadeOf M ↔
    M.least ≤ ts.length ∧ (∀ t ∈ ts, M.operand h t) ∧ ∀ t ∈ ts, t.MadeOf M := by
  rw [MadeOf, allMadeOf_iff]

/-- A property of all expressions from what it says of their parts. -/
theorem byParts {C : Expr → Prop} (const : ∀ c, C (.const c)) (unknown : ∀ v, C (.unknown v))
    (sum : ∀ ts, (∀ t ∈ ts, C t) → C (.sum ts)) (product : ∀ ts, (∀ t ∈ ts, C t) → C (.product ts))
    (recurrence : ∀ h ts, (∀ t ∈ ts, C t) → C (.recurrence h ts)) (e : Expr) : C e := by
  refine @Expr.rec C (fun ts => ∀ t ∈ ts, C t) const unknown sum product recurrence (by simp)
    (fun t ts ht hts => ?_) e
  simpa using ⟨ht, hts⟩

theorem MadeOf.mono (hn : N.least ≤ M.least) (hs : ∀ v, M.symbol v → N.symbol v)
    (ho : ∀ h t, t.MadeOf M → M.operand h t → N.operand h t) (h : e.MadeOf M) : e.MadeOf N := by
  induction e using byParts with
  | const c => simp
  | unknown v => exact madeOf_unknown.mpr (hs v (madeOf_unknown.mp h))
  | sum ts ih => exact madeOf_sum.mpr fun t ht => ih t ht (madeOf_sum.mp h t ht)
  | product ts ih => exact madeOf_product.mpr fun t ht => ih t ht (madeOf_product.mp h t ht)
  | recurrence k ts ih =>
    obtain ⟨hlen, hop, hts⟩ := madeOf_recurrence.mp h
    exact madeOf_recurrence.mpr ⟨Nat.le_trans hn hlen, fun t ht => ho k t (hts t ht) (hop t ht),
      fun t ht => ih t ht (hts t ht)⟩

theorem MadeOf.both (h : e.MadeOf M) (h' : e.MadeOf N) : e.MadeOf (M.both N) := by
  induction e using byParts with
  | const c => simp
  | unknown v => exact madeOf_unknown.mpr ⟨madeOf_unknown.mp h, madeOf_unknown.mp h'⟩
  | sum ts ih =>
    rw [madeOf_sum] at h h' ⊢
    exact fun t ht => ih t ht (h t ht) (h' t ht)
  | product ts ih =>
    rw [madeOf_product] at h h' ⊢
    exact fun t ht => ih t ht (h t ht) (h' t ht)
  | recurrence k ts ih =>
    obtain ⟨hlen, hop, hts⟩ := madeOf_recurrence.mp h
    obtain ⟨hlen', hop', hts'⟩ := madeOf_recurrence.mp h'
    exact madeOf_recurrence.mpr ⟨Nat.max_le.mpr ⟨hlen, hlen'⟩,
      fun t ht => ⟨hop t ht, hop' t ht⟩, fun t ht => ih t ht (hts t ht) (hts' t ht)⟩

theorem MadeOf.proper (hn : 1 ≤ M.least) (h : e.MadeOf M) : e.MadeOf .proper :=
  h.mono hn (fun _ _ => trivial) fun _ _ _ _ => trivial

mutual

/-- The symbols in an expression, at any depth. -/
def symbols : Expr → List Value
  | const _ => []
  | unknown v => [v]
  | sum ts => symbolsAll ts
  | product ts => symbolsAll ts
  | recurrence _ ts => symbolsAll ts

def symbolsAll : List Expr → List Value
  | [] => []
  | t :: ts => symbols t ++ symbolsAll ts

end

theorem mem_symbolsAll_iff {v : Value} : v ∈ symbolsAll ts ↔ ∃ t ∈ ts, v ∈ t.symbols := by
  induction ts with
  | nil => simp [symbolsAll]
  | cons t ts ih => simp [symbolsAll, ih]

theorem MadeOf.symbol {v : Value} (h : e.MadeOf M) (hv : v ∈ e.symbols) : M.symbol v := by
  have hall : ∀ {ts : List Expr}, (∀ t ∈ ts, t.MadeOf M → v ∈ t.symbols → M.symbol v) →
      (∀ t ∈ ts, t.MadeOf M) → v ∈ symbolsAll ts → M.symbol v := by
    intro ts ih hts hv
    obtain ⟨t, ht, hv⟩ := mem_symbolsAll_iff.mp hv
    exact ih t ht (hts t ht) hv
  induction e using byParts with
  | const c => cases hv
  | unknown w => exact List.mem_singleton.mp hv ▸ madeOf_unknown.mp h
  | sum ts ih => exact hall ih (madeOf_sum.mp h) hv
  | product ts ih => exact hall ih (madeOf_product.mp h) hv
  | recurrence k ts ih => exact hall ih (madeOf_recurrence.mp h).2.2 hv

theorem MadeOf.of_symbols {least : Nat} {A : Value → Prop}
    (h : e.MadeOf (.plain least (fun _ => True) fun _ => True)) (hA : ∀ v ∈ e.symbols, A v) :
    e.MadeOf (.plain least A fun _ => True) := by
  have hall : ∀ {ts : List Expr} {t : Expr}, (∀ v ∈ symbolsAll ts, A v) → t ∈ ts →
      ∀ v ∈ t.symbols, A v := fun hts ht v hv => hts v (mem_symbolsAll_iff.mpr ⟨_, ht, hv⟩)
  induction e using byParts with
  | const c => exact madeOf_const
  | unknown w => exact madeOf_unknown.mpr (hA w (List.mem_singleton_self w))
  | sum ts ih => exact madeOf_sum.mpr fun t ht => ih t ht (madeOf_sum.mp h t ht) (hall hA ht)
  | product ts ih =>
    exact madeOf_product.mpr fun t ht => ih t ht (madeOf_product.mp h t ht) (hall hA ht)
  | recurrence k ts ih =>
    obtain ⟨hlen, hop, hts⟩ := madeOf_recurrence.mp h
    exact madeOf_recurrence.mpr ⟨hlen, hop, fun t ht => ih t ht (hts t ht) (hall hA ht)⟩

/-! ### Small parts -/

theorem dropZeros_sublist : (dropZeros ts).Sublist ts := by
  induction ts with
  | nil => exact .slnil
  | cons t ts ih =>
    rw [dropZeros]
    cases hd : dropZeros ts with
    | nil =>
      by_cases ht : t = zero
      · simp [ht]
      · simp [ht]
    | cons u us => exact (hd ▸ ih).cons_cons t

theorem MadeOf.recurrenceOf (hn : M.least ≤ 2) (hne : ops ≠ []) (ho : ∀ o ∈ ops, M.operand h o)
    (hm : ∀ o ∈ ops, o.MadeOf M) : (recurrenceOf h ops).MadeOf M := by
  obtain ⟨start, rest, rfl⟩ := List.exists_cons_of_ne_nil hne
  rw [Expr.recurrenceOf]
  have hsub : start :: dropZeros rest ⊆ start :: rest := (dropZeros_sublist.cons_cons start).subset
  cases hd : dropZeros rest with
  | nil => exact hm start (by simp)
  | cons u us =>
    rw [hd] at hsub
    refine madeOf_recurrence.mpr ⟨?_, fun o h => ho o (hsub h), fun o h => hm o (hsub h)⟩
    exact Nat.le_trans hn (by simp)

theorem mem_constantTerm : t ∈ (if c = 0 then [] else [const c]) ↔ c ≠ 0 ∧ t = const c := by
  by_cases hc : c = 0 <;> simp [hc]

theorem MadeOf.sumOf (hm : ∀ t ∈ ts, t.MadeOf M) : (sumOf ts c).MadeOf M := by
  have hall : ∀ t ∈ ts ++ (if c = 0 then [] else [Expr.const c]), t.MadeOf M := by
    intro t ht
    cases List.mem_append.mp ht with
    | inl ht => exact hm t ht
    | inr ht => exact (mem_constantTerm.mp ht).2 ▸ madeOf_const
  rw [Expr.sumOf]
  split
  · exact madeOf_const
  · rename_i u hu
    exact hall u (by simp [hu])
  · exact madeOf_sum.mpr hall

theorem mem_termsOfAll_iff : t ∈ termsOfAll ts ↔ ∃ u ∈ ts, t ∈ terms u := by
  induction ts with
  | nil => simp [termsOfAll]
  | cons u us ih => simp [termsOfAll, ih]

theorem MadeOf.of_mem_terms (h : e.MadeOf M) (ht : t ∈ e.terms) : t.MadeOf M := by
  induction e using byParts with
  | sum ts ih =>
    rw [terms, mem_termsOfAll_iff] at ht
    obtain ⟨u, hu, htu⟩ := ht
    exact ih u hu (madeOf_sum.mp h u hu) htu
  | const | unknown | product | recurrence =>
    simp only [terms, List.mem_singleton] at ht
    exact ht ▸ h

theorem MadeOf.of_mem_termsOfAll (hts : ∀ t ∈ ts, t.MadeOf M) (ht : t ∈ termsOfAll ts) :
    t.MadeOf M := by
  obtain ⟨u, hu, htu⟩ := mem_termsOfAll_iff.mp ht
  exact (hts u hu).of_mem_terms htu

theorem MadeOf.of_mem_factors (h : e.MadeOf M) (ht : t ∈ e.factors) : t.MadeOf M := by
  cases e with
  | product fs => exact madeOf_product.mp h t ht
  | _ =>
    simp only [factors, List.mem_singleton] at ht
    exact ht ▸ h

theorem MadeOf.productOf (hm : ∀ t ∈ ts, t.MadeOf M) : (productOf ts).MadeOf M := by
  rw [Expr.productOf]
  generalize (ts.filterMap constant?).foldl (· * ·) 1 = c
  have hall : ∀ t ∈ (if c = 1 then [] else [Expr.const c]) ++ ts.filter fun f => !f.isConstant,
      t.MadeOf M := by
    intro t ht
    cases List.mem_append.mp ht with
    | inl ht =>
      by_cases hc : c = 1 <;> simp [hc] at ht
      simp [ht]
    | inr ht => exact hm t (List.mem_filter.mp ht).1
  by_cases hc : c = 0
  · rw [if_pos hc]
    exact madeOf_zero
  · rw [if_neg hc]
    split
    · rename_i u hu
      exact hall u (by simp [hu])
    · exact madeOf_product.mpr hall

end Expr

/-! ### Addition -/

/-- An addition that brings in nothing new. -/
structure Makeup.Adds (M : Makeup) (add : List Expr → Expr) : Prop where
  madeOf : ∀ {ts}, (∀ t ∈ ts, t.MadeOf M) → (add ts).MadeOf M
  operand : ∀ {h ts}, ts ≠ [] → (∀ t ∈ ts, t.MadeOf M ∧ M.operand h t) → M.operand h (add ts)

/-- Arithmetic leads from operands to operands, and so does what the loop leaves alone. -/
structure Scope.Stable (S : Scope) (M : Makeup) : Prop where
  least_pos : 1 ≤ M.least
  least_le : M.least ≤ 2
  const : ∀ {h t c}, M.operand h t → M.operand h (.const c)
  invariant : ∀ {h l o t}, M.operand h o → S.forest.ofHeader? h = some l → t.MadeOf M →
    S.isInvariant l t = true → M.operand h t
  sumOf : ∀ {h ts}, ts ≠ [] → (∀ t ∈ ts, t.MadeOf M ∧ M.operand h t) →
    M.operand h (Expr.sumOf ts 0)
  addUpTo : ∀ {n h ts}, ts ≠ [] → (∀ t ∈ ts, t.MadeOf M ∧ M.operand h t) →
    M.operand h (S.addUpTo n ts)
  scale : ∀ {h c t}, t.MadeOf M → M.operand h t → M.operand h (S.scale c t)
  mul : ∀ {h t u}, t.MadeOf M → u.MadeOf M → M.operand h t → M.operand h u →
    M.operand h (S.mul t u)

theorem Scope.Stable.ne_nil {S : Scope} {M : Makeup} {ops : List Expr} (hS : S.Stable M)
    (hlen : M.least ≤ ops.length) : ops ≠ [] := by
  rintro rfl
  exact absurd (Nat.le_trans hS.least_pos hlen) (by decide)

namespace Scope
variable {S : Scope} {M : Makeup} {add : List Expr → Expr} {h : BlockId} {l : LoopId} {c : Int64}
  {as bs ts ops : List Expr} {r : Recurrence} {qs : List Recurrence} {e t u : Expr}

theorem length_addOperands : (addOperands add as bs).length = max as.length bs.length := by
  induction as generalizing bs with
  | nil => simp [addOperands]
  | cons a as ih => cases bs <;> simp [addOperands, ih]

theorem Stable.addOperands (hS : S.Stable M) (hadd : M.Adds add)
    (ha : ∀ o ∈ as, o.MadeOf M ∧ M.operand h o) (hb : ∀ o ∈ bs, o.MadeOf M ∧ M.operand h o) :
    ∀ o ∈ addOperands add as bs, o.MadeOf M ∧ M.operand h o := by
  have pair : ∀ {a b : Expr}, a.MadeOf M ∧ M.operand h a → b.MadeOf M ∧ M.operand h b →
      (add [a, b]).MadeOf M ∧ M.operand h (add [a, b]) := by
    intro a b ha hb
    have hall : ∀ t ∈ [a, b], t.MadeOf M ∧ M.operand h t := by simp [ha, hb]
    exact ⟨hadd.madeOf fun t ht => (hall t ht).1, hadd.operand (by simp) hall⟩
  have hzero : ∀ {b : Expr}, M.operand h b → Expr.zero.MadeOf M ∧ M.operand h .zero := fun hb =>
    ⟨Expr.madeOf_zero, hS.const hb⟩
  induction as generalizing bs with
  | nil =>
    intro o ho
    simp only [LoopStride.addOperands, List.mem_map] at ho
    obtain ⟨b, hbm, rfl⟩ := ho
    exact pair (hzero (hb b hbm).2) (hb b hbm)
  | cons a as ih =>
    cases bs with
    | nil =>
      intro o ho
      simp only [LoopStride.addOperands, List.mem_map] at ho
      obtain ⟨b, hbm, rfl⟩ := ho
      exact pair (ha b hbm) (hzero (ha b hbm).2)
    | cons b bs =>
      intro o ho
      rw [LoopStride.addOperands, List.mem_cons] at ho
      rcases ho with rfl | ho
      · exact pair (ha a (by simp)) (hb b (by simp))
      · exact ih (fun o h => ha o (by simp [h])) (fun o h => hb o (by simp [h])) o ho

theorem Stable.mergeRecurrence (hS : S.Stable M) (hadd : M.Adds add) (hr : r.toExpr.MadeOf M)
    (hq : ∀ q ∈ qs, q.toExpr.MadeOf M) :
    ∀ q ∈ mergeRecurrence add r qs, q.toExpr.MadeOf M := by
  induction qs with
  | nil => simpa [LoopStride.mergeRecurrence] using hr
  | cons q qs ih =>
    have hq' := hq q (by simp)
    have hrest : ∀ q ∈ qs, q.toExpr.MadeOf M := fun q h => hq q (by simp [h])
    rw [LoopStride.mergeRecurrence]
    by_cases he : q.header = r.header
    · rw [if_pos he]
      obtain ⟨hlen, hop, hm⟩ := Expr.madeOf_recurrence.mp hq'
      obtain ⟨-, hop', hm'⟩ := Expr.madeOf_recurrence.mp hr
      have hall := hS.addOperands hadd (fun o h => ⟨hm o h, hop o h⟩)
        (fun o h => ⟨hm' o h, he ▸ hop' o h⟩)
      refine List.forall_mem_cons.mpr ⟨Expr.madeOf_recurrence.mpr ⟨?_, ?_, ?_⟩, hrest⟩
      · rw [length_addOperands]
        exact Nat.le_trans hlen (Nat.le_max_left _ _)
      · exact fun o h => (hall o h).2
      · exact fun o h => (hall o h).1
    · rw [if_neg he]
      exact List.forall_mem_cons.mpr ⟨hq', ih hrest⟩

theorem Stable.ofList (hS : S.Stable M) (hadd : M.Adds add) (hts : ∀ t ∈ ts, t.MadeOf M) :
    (∀ r ∈ (Terms.ofList add ts).recurrences, r.toExpr.MadeOf M) ∧
    ∀ t ∈ (Terms.ofList add ts).others, t.MadeOf M := by
  induction ts with
  | nil => simp [Terms.ofList]
  | cons t ts ih =>
    obtain ⟨hrec, hoth⟩ := ih fun t h => hts t (by simp [h])
    have ht := hts t (by simp)
    cases t with
    | const c => exact ⟨hrec, hoth⟩
    | recurrence h ops => exact ⟨hS.mergeRecurrence hadd ht hrec, hoth⟩
    | unknown | sum | product => exact ⟨hrec, List.forall_mem_cons.mpr ⟨ht, hoth⟩⟩

theorem insertByDepth_perm : (S.insertByDepth r qs).Perm (r :: qs) := by
  induction qs with
  | nil => exact .refl _
  | cons q qs ih =>
    rw [insertByDepth]
    split
    · exact .refl _
    · exact (ih.cons q).trans (.swap r q qs)

theorem sortByDepth_perm : (S.sortByDepth qs).Perm qs := by
  induction qs with
  | nil => exact .refl _
  | cons q qs ih => exact insertByDepth_perm.trans (ih.cons q)

theorem addToStart_madeOf (hadd : M.Adds add) {rest : List Expr}
    (ho : ∀ o ∈ ops, o.MadeOf M ∧ M.operand h o)
    (hr : ∀ t ∈ rest, t.MadeOf M ∧ ∀ o, M.operand h o → M.operand h t) :
    ∀ o ∈ addToStart add ops rest, o.MadeOf M ∧ M.operand h o := by
  cases ops with
  | nil => simp [LoopStride.addToStart]
  | cons start ops =>
    cases rest with
    | nil => simpa [LoopStride.addToStart] using ho
    | cons t rest =>
      have hstart := ho start (by simp)
      have hall : ∀ u ∈ start :: t :: rest, u.MadeOf M ∧ M.operand h u :=
        List.forall_mem_cons.mpr ⟨hstart, fun u hu => ⟨(hr u hu).1, (hr u hu).2 start hstart.2⟩⟩
      refine List.forall_mem_cons.mpr ⟨⟨hadd.madeOf fun u h => (hall u h).1, ?_⟩, ?_⟩
      · exact hadd.operand (by simp) hall
      · exact fun o h => ho o (by simp [h])

theorem addToStart_ne_nil (hne : ops ≠ []) : addToStart add ops ts ≠ [] := by
  cases ops with
  | nil => exact absurd rfl hne
  | cons o ops => cases ts <;> simp [addToStart]

/-- The start of a recurrence may take in what its loop leaves alone, and the constant. -/
theorem Stable.absorb (hS : S.Stable M) (hadd : M.Adds add)
    (hl : S.forest.ofHeader? h = some l) (hr : (Expr.recurrence h ops).MadeOf M)
    (hts : ∀ t ∈ ts, t.MadeOf M) :
    (Expr.recurrenceOf h (addToStart add ops (ts.filter (S.isInvariant l) ++
      if c = 0 then [] else [.const c]))).MadeOf M := by
  obtain ⟨hlen, hop, hm⟩ := Expr.madeOf_recurrence.mp hr
  have habsorbed : ∀ t ∈ ts.filter (S.isInvariant l) ++ (if c = 0 then [] else [.const c]),
      t.MadeOf M ∧ ∀ o, M.operand h o → M.operand h t := by
    intro t ht
    cases List.mem_append.mp ht with
    | inl ht =>
      obtain ⟨ht, hinv⟩ := List.mem_filter.mp ht
      exact ⟨hts t ht, fun o ho => hS.invariant ho hl (hts t ht) hinv⟩
    | inr ht =>
      obtain rfl := (Expr.mem_constantTerm.mp ht).2
      exact ⟨Expr.madeOf_const, fun o ho => hS.const ho⟩
  have hstart := addToStart_madeOf hadd (fun o h => ⟨hm o h, hop o h⟩) habsorbed
  exact .recurrenceOf hS.least_le (addToStart_ne_nil (hS.ne_nil hlen))
    (fun o h => (hstart o h).2) fun o h => (hstart o h).1

theorem Stable.addWith (hS : S.Stable M) (hadd : M.Adds add) (hts : ∀ t ∈ ts, t.MadeOf M) :
    (S.addWith add ts).MadeOf M := by
  obtain ⟨hrec, hoth⟩ := hS.ofList hadd fun t => Expr.MadeOf.of_mem_termsOfAll hts
  rw [Scope.addWith]
  have hsorted : ∀ q ∈ S.sortByDepth (Terms.ofList add (Expr.termsOfAll ts)).recurrences,
      q.toExpr.MadeOf M := fun q hq => hrec q (sortByDepth_perm.mem_iff.mp hq)
  generalize Terms.ofList add (Expr.termsOfAll ts) = parts at hrec hoth hsorted ⊢
  dsimp only
  cases hs : S.sortByDepth parts.recurrences with
  | nil => exact Expr.MadeOf.sumOf hoth
  | cons r rest =>
    rw [hs] at hsorted
    obtain ⟨hr, hrest⟩ := List.forall_mem_cons.mp hsorted
    obtain ⟨hlen, hop, hm⟩ := Expr.madeOf_recurrence.mp hr
    have hrest' : ∀ t ∈ rest.map Recurrence.toExpr, t.MadeOf M := by simpa using hrest
    dsimp only
    cases hl : S.forest.ofHeader? r.header with
    | none =>
      refine Expr.MadeOf.sumOf (List.forall_mem_cons.mpr
        ⟨.recurrenceOf hS.least_le (hS.ne_nil hlen) hop hm, fun t ht => ?_⟩)
      exact (List.mem_append.mp ht).elim (hoth t) (hrest' t)
    | some l =>
      have hall : ∀ t ∈ rest.map Recurrence.toExpr ++ parts.others, t.MadeOf M := fun t ht =>
        (List.mem_append.mp ht).elim (hrest' t) (hoth t)
      dsimp only
      rw [List.partition_eq_filter_filter]
      exact Expr.MadeOf.sumOf (List.forall_mem_cons.mpr ⟨hS.absorb hadd hl hr hall,
        fun t ht => hall t (List.mem_filter.mp ht).1⟩)

theorem Stable.adds (hS : S.Stable M) (n : Nat) : M.Adds (S.addUpTo n) := by
  induction n with
  | zero => exact ⟨fun h => hS.addWith ⟨Expr.MadeOf.sumOf, hS.sumOf⟩ h, hS.addUpTo⟩
  | succ n ih => exact ⟨fun h => hS.addWith ih h, hS.addUpTo⟩

theorem Stable.madeOf_add (hS : S.Stable M) (hts : ∀ t ∈ ts, t.MadeOf M) : (S.add ts).MadeOf M :=
  (hS.adds _).madeOf hts

/-! ### Multiplication -/

theorem scaleAll_eq_map : S.scaleAll c ts = ts.map (S.scale c) := by
  induction ts with
  | nil => rfl
  | cons t ts ih => rw [scaleAll, ih, List.map_cons]

theorem Stable.madeOf_scale (hS : S.Stable M) (h : e.MadeOf M) : (S.scale c e).MadeOf M := by
  have hfactors : ∀ {e : Expr}, e.MadeOf M → (if c = 0 then .zero else if c = 1 then e
      else Expr.productOf (.const c :: e.factors)).MadeOf M := by
    intro e he
    split
    · exact Expr.madeOf_zero
    · split
      · exact he
      · exact .productOf (List.forall_mem_cons.mpr ⟨Expr.madeOf_const, fun t => he.of_mem_factors⟩)
  induction e using Expr.byParts with
  | const d => simp [Scope.scale]
  | unknown v => exact hfactors h
  | sum ts => exact hfactors h
  | product ts => exact hfactors h
  | recurrence k ops ih =>
    rw [Scope.scale, scaleAll_eq_map]
    obtain ⟨hlen, hop, hm⟩ := Expr.madeOf_recurrence.mp h
    split
    · exact Expr.madeOf_zero
    split
    · exact h
    split
    · refine .recurrenceOf hS.least_le ?_ ?_ ?_
      · exact mt List.map_eq_nil_iff.mp (hS.ne_nil hlen)
      · exact List.forall_mem_map.mpr fun o ho => hS.scale (hm o ho) (hop o ho)
      · exact List.forall_mem_map.mpr fun o ho => ih o ho (hm o ho)
    · exact .productOf (List.forall_mem_cons.mpr ⟨Expr.madeOf_const, by simpa using h⟩)

theorem exists_of_distributes (h' : S.distributes h e = true) :
    ∃ l, S.forest.ofHeader? h = some l ∧ S.isInvariant l e = true := by
  rw [distributes] at h'
  cases hl : S.forest.ofHeader? h with
  | none => simp [hl] at h'
  | some l => exact ⟨l, rfl, by simpa [hl] using h'⟩

theorem Stable.madeOf_mul (hS : S.Stable M) (ht : t.MadeOf M) (hu : u.MadeOf M) :
    (S.mul t u).MadeOf M := by
  -- a factor that the loop leaves alone goes into the operands
  have spread : ∀ {h ops e}, (Expr.recurrence h ops).MadeOf M → e.MadeOf M →
      S.distributes h e = true → (∀ o ∈ ops, o.MadeOf M → e.MadeOf M → (S.mul o e).MadeOf M) →
      (Expr.recurrenceOf h (ops.map fun o => S.mul o e)).MadeOf M := by
    intro h ops e hr he hd ih
    obtain ⟨hlen, hop, hm⟩ := Expr.madeOf_recurrence.mp hr
    obtain ⟨l, hl, hinv⟩ := exists_of_distributes hd
    refine .recurrenceOf hS.least_le ?_ ?_ ?_
    · exact mt List.map_eq_nil_iff.mp (hS.ne_nil hlen)
    · exact List.forall_mem_map.mpr fun o ho =>
        hS.mul (hm o ho) he (hop o ho) (hS.invariant (hop o ho) hl he hinv)
    · exact List.forall_mem_map.mpr fun o ho => ih o ho (hm o ho) he
  have pair : ∀ {t u : Expr}, t.MadeOf M → u.MadeOf M → ∀ s ∈ t.factors ++ u.factors, s.MadeOf M :=
    fun ht hu s hs => (List.mem_append.mp hs).elim ht.of_mem_factors hu.of_mem_factors
  fun_induction S.mul t u with
  | case1 c e => exact hS.madeOf_scale hu
  | case2 e c => exact hS.madeOf_scale ht
  | case3 h a b c d square ihbd ihac ihad ihbc =>
    obtain ⟨-, hop, hm⟩ := Expr.madeOf_recurrence.mp ht
    obtain ⟨-, hop', hm'⟩ := Expr.madeOf_recurrence.mp hu
    obtain ⟨ha, hb⟩ := forall_mem_pair.mp hm
    obtain ⟨hc, hd⟩ := forall_mem_pair.mp hm'
    obtain ⟨hoa, hob⟩ := forall_mem_pair.mp hop
    obtain ⟨hoc, hod⟩ := forall_mem_pair.mp hop'
    have hterms : ∀ s ∈ [S.mul a d, S.mul b c, square], s.MadeOf M ∧ M.operand h s := by
      refine List.forall_mem_cons.mpr ⟨⟨ihad ha hd, hS.mul ha hd hoa hod⟩, forall_mem_pair.mpr ?_⟩
      exact ⟨⟨ihbc hb hc, hS.mul hb hc hob hoc⟩, ihbd hb hd, hS.mul hb hd hob hod⟩
    have hsquare := hterms square (by simp)
    refine .recurrenceOf hS.least_le (by simp) ?_ ?_
    · refine List.forall_mem_cons.mpr ⟨hS.mul ha hc hoa hoc, forall_mem_pair.mpr ?_⟩
      exact ⟨hS.addUpTo (by simp) hterms, hS.scale hsquare.1 hsquare.2⟩
    · refine List.forall_mem_cons.mpr ⟨ihac ha hc, forall_mem_pair.mpr ?_⟩
      exact ⟨hS.madeOf_add fun s hs => (hterms s hs).1, hS.madeOf_scale hsquare.1⟩
  | case4 h as bs => exact Expr.madeOf_product.mpr (forall_mem_pair.mpr ⟨ht, hu⟩)
  | case5 h as h' bs hne hd ih => exact spread ht hu hd ih
  | case6 h as h' bs hne hn hd ih => exact spread hu ht hd ih
  | case7 h as h' bs => exact Expr.madeOf_product.mpr (forall_mem_pair.mpr ⟨ht, hu⟩)
  | case8 h as e hc hr hd ih => exact spread ht hu hd ih
  | case9 h as e hc hr hd => exact .productOf (pair ht hu)
  | case10 e h bs hc hr hd ih => exact spread hu ht hd ih
  | case11 e h bs hc hr hd => exact .productOf (pair ht hu)
  | case12 t u => exact .productOf (pair ht hu)

/-! ### Two kinds of makeup -/

theorem stable_plain {least : Nat} {A : Value → Prop} {H : BlockId → Prop} (h1 : 1 ≤ least)
    (h2 : least ≤ 2) : S.Stable (.plain least A H) where
  least_pos := h1
  least_le := h2
  const h := h
  invariant h _ _ _ := h
  sumOf hne h := (h _ (List.head_mem hne)).2
  addUpTo hne h := (h _ (List.head_mem hne)).2
  scale _ h := h
  mul _ _ h _ := h

/-- What stays the same while loop `l` runs. -/
def fixed (S : Scope) (l : LoopId) : Makeup :=
  .plain 1 (S.fixesValue l · = true) (S.runsWithin l · = false)

/-- Every recurrence has at least two operands, and its loop, which exists, leaves them alone. -/
def regular (S : Scope) : Makeup :=
  ⟨2, fun _ => True, fun h t => ∃ l, S.forest.ofHeader? h = some l ∧ S.isInvariant l t = true⟩

theorem isInvariant_iff (h : e.MadeOf .proper) : S.isInvariant l e = true ↔ e.MadeOf (S.fixed l) := by
  have hall : ∀ {ts : List Expr}, (∀ t ∈ ts, t.MadeOf .proper →
      (S.isInvariant l t = true ↔ t.MadeOf (S.fixed l))) → (∀ t ∈ ts, t.MadeOf .proper) →
      (S.areInvariant l ts = true ↔ ∀ t ∈ ts, t.MadeOf (S.fixed l)) := by
    intro ts ih hts
    rw [areInvariant_iff]
    exact forall₂_congr fun t ht => ih t ht (hts t ht)
  induction e using Expr.byParts with
  | const c => simp [isInvariant]
  | unknown v => simp [isInvariant, fixed, Makeup.plain]
  | sum ts ih => rw [isInvariant, Expr.madeOf_sum, hall ih (Expr.madeOf_sum.mp h)]
  | product ts ih => rw [isInvariant, Expr.madeOf_product, hall ih (Expr.madeOf_product.mp h)]
  | recurrence k ts ih =>
    obtain ⟨hlen, -, hts⟩ := Expr.madeOf_recurrence.mp h
    obtain ⟨t, ht⟩ := List.exists_mem_of_length_pos hlen
    rw [isInvariant, Bool.and_eq_true, hall ih hts, Expr.madeOf_recurrence, Bool.not_eq_true']
    exact ⟨fun ⟨hk, hts⟩ => ⟨hlen, fun _ _ => hk, hts⟩, fun ⟨_, hk, hts⟩ => ⟨hk t ht, hts⟩⟩

theorem stable_regular : S.Stable S.regular := by
  have proper : ∀ {t : Expr}, t.MadeOf S.regular → t.MadeOf .proper := fun h => h.proper (Nat.le_succ 1)
  have hfixed : ∀ l, S.Stable (S.fixed l) := fun l => stable_plain (Nat.le_refl 1) (Nat.le_succ 1)
  have hproper : S.Stable .proper := stable_plain (Nat.le_refl 1) (Nat.le_succ 1)
  -- all terms are operands of one header, hence left alone by one loop
  have together : ∀ {h ts}, ts ≠ [] → (∀ t ∈ ts, t.MadeOf S.regular ∧ S.regular.operand h t) →
      ∃ l, S.forest.ofHeader? h = some l ∧ (∀ t ∈ ts, t.MadeOf .proper) ∧
        ∀ t ∈ ts, t.MadeOf (S.fixed l) := by
    intro h ts hne hts
    obtain ⟨-, l, hl, -⟩ := hts _ (List.head_mem hne)
    refine ⟨l, hl, fun t ht => proper (hts t ht).1, fun t ht => ?_⟩
    obtain ⟨hm, l', hl', hinv⟩ := hts t ht
    obtain rfl := Option.some.inj (hl'.symm.trans hl)
    exact (isInvariant_iff (proper hm)).mp hinv
  refine ⟨Nat.le_succ 1, Nat.le_refl 2, ?_, ?_, ?_, ?_, ?_, ?_⟩
  · rintro h t c ⟨l, hl, -⟩
    exact ⟨l, hl, by simp [isInvariant]⟩
  · rintro h l o t - hl - hinv
    exact ⟨l, hl, hinv⟩
  · intro h ts hne hts
    obtain ⟨l, hl, hp, hm⟩ := together hne hts
    exact ⟨l, hl, (isInvariant_iff (.sumOf hp)).mpr (.sumOf hm)⟩
  · intro n h ts hne hts
    obtain ⟨l, hl, hp, hm⟩ := together hne hts
    exact ⟨l, hl, (isInvariant_iff ((hproper.adds n).madeOf hp)).mpr (((hfixed l).adds n).madeOf hm)⟩
  · rintro h c t hm ⟨l, hl, hinv⟩
    refine ⟨l, hl, (isInvariant_iff (hproper.madeOf_scale (proper hm))).mpr ?_⟩
    exact (hfixed l).madeOf_scale ((isInvariant_iff (proper hm)).mp hinv)
  · rintro h t u ht hu ⟨l, hl, hinv⟩ ⟨l', hl', hinv'⟩
    obtain rfl := Option.some.inj (hl'.symm.trans hl)
    refine ⟨l', hl', (isInvariant_iff (hproper.madeOf_mul (proper ht) (proper hu))).mpr ?_⟩
    exact (hfixed l').madeOf_mul ((isInvariant_iff (proper ht)).mp hinv)
      ((isInvariant_iff (proper hu)).mp hinv')

end Scope
end LoopStride
