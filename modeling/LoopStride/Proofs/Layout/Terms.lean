import LoopStride.Proofs.Expr.Makeup
import LoopStride.Proofs.Layout.Graph

/-! Arithmetic of symbolic values does not see how blocks are called: with the headers renamed in
what it is given, they are renamed in what comes out. -/
namespace LoopStride
variable {π : Equiv.Perm BlockId}

namespace Expr

mutual

def relabel (π : Equiv.Perm BlockId) : Expr → Expr
  | const c => const c
  | unknown v => unknown v
  | sum ts => sum (relabelAll π ts)
  | product ts => product (relabelAll π ts)
  | recurrence h ts => recurrence (π h) (relabelAll π ts)

def relabelAll (π : Equiv.Perm BlockId) : List Expr → List Expr
  | [] => []
  | t :: ts => relabel π t :: relabelAll π ts

end

variable {e t : Expr} {ts : List Expr} {c : Int64} {h : BlockId}

theorem relabelAll_eq_map : relabelAll π ts = ts.map (relabel π) := by
  induction ts with
  | nil => rfl
  | cons t ts ih => rw [relabelAll, ih, List.map_cons]

@[simp] theorem relabel_const : (const c).relabel π = const c := by rw [relabel]

@[simp] theorem relabel_zero : zero.relabel π = zero := relabel_const

@[simp] theorem relabel_unknown {v : Value} : (unknown v).relabel π = unknown v := by rw [relabel]

@[simp] theorem relabel_sum : (sum ts).relabel π = sum (ts.map (relabel π)) := by
  rw [relabel, relabelAll_eq_map]

@[simp] theorem relabel_product : (product ts).relabel π = product (ts.map (relabel π)) := by
  rw [relabel, relabelAll_eq_map]

@[simp] theorem relabel_recurrence :
    (recurrence h ts).relabel π = recurrence (π h) (ts.map (relabel π)) := by
  rw [relabel, relabelAll_eq_map]

theorem relabel_symm_relabel (e : Expr) : (e.relabel π).relabel π.symm = e := by
  have hall : ∀ ts : List Expr, (∀ t ∈ ts, (t.relabel π).relabel π.symm = t) →
      (ts.map (relabel π)).map (relabel π.symm) = ts := by
    intro ts ih
    rw [List.map_map]
    exact (List.map_congr_left ih).trans (List.map_id ts)
  induction e using byParts with
  | const c => simp
  | unknown v => simp
  | sum ts ih => rw [relabel_sum, relabel_sum, hall ts ih]
  | product ts ih => rw [relabel_product, relabel_product, hall ts ih]
  | recurrence h ts ih =>
    rw [relabel_recurrence, relabel_recurrence, hall ts ih, Equiv.symm_apply_apply]

theorem relabel_injective : Function.Injective (relabel π) :=
  Function.LeftInverse.injective relabel_symm_relabel

theorem relabel_eq_const : e.relabel π = const c ↔ e = const c :=
  relabel_injective.eq_iff' relabel_const

/-! Renaming makes neither constants nor recurrences. -/

theorem not_const_relabel (hc : ∀ c, e = const c → False) (c : Int64)
    (he : e.relabel π = const c) : False :=
  hc c (relabel_eq_const.mp he)

theorem not_recurrence_relabel (hr : ∀ h ts, e = recurrence h ts → False) (h : BlockId)
    (ts : List Expr) (he : e.relabel π = recurrence h ts) : False := by
  cases e with
  | recurrence h' ts' => exact hr h' ts' rfl
  | _ => simp at he

@[simp] theorem relabel_eq_zero : e.relabel π = zero ↔ e = zero :=
  relabel_injective.eq_iff' relabel_zero

@[simp] theorem constant?_relabel : (e.relabel π).constant? = e.constant? := by
  cases e <;> simp [constant?]

@[simp] theorem isConstant_relabel : (e.relabel π).isConstant = e.isConstant := by
  rw [isConstant, constant?_relabel, isConstant]

theorem recurrencesAll_map (hts : ∀ t ∈ ts, (t.relabel π).recurrences = t.recurrences) :
    recurrencesAll (ts.map (relabel π)) = recurrencesAll ts := by
  induction ts with
  | nil => rfl
  | cons t ts ih =>
    obtain ⟨ht, hts⟩ := List.forall_mem_cons.mp hts
    rw [List.map_cons, recurrencesAll, recurrencesAll, ht, ih hts]

@[simp] theorem recurrences_relabel : (e.relabel π).recurrences = e.recurrences := by
  induction e using byParts with
  | const c => simp
  | unknown v => simp
  | sum ts ih => rw [relabel_sum, recurrences, recurrences, recurrencesAll_map ih]
  | product ts ih => rw [relabel_product, recurrences, recurrences, recurrencesAll_map ih]
  | recurrence h ts ih => rw [relabel_recurrence, recurrences, recurrences, recurrencesAll_map ih]

theorem dropZeros_map : dropZeros (ts.map (relabel π)) = (dropZeros ts).map (relabel π) := by
  induction ts with
  | nil => rfl
  | cons t ts ih =>
    rw [List.map_cons, dropZeros, dropZeros, ih]
    cases dropZeros ts with
    | nil => by_cases ht : t = zero <;> simp [ht]
    | cons u us => simp

theorem recurrenceOf_map :
    recurrenceOf (π h) (ts.map (relabel π)) = (recurrenceOf h ts).relabel π := by
  cases ts with
  | nil => simp [recurrenceOf]
  | cons t ts =>
    rw [List.map_cons, recurrenceOf, recurrenceOf, dropZeros_map]
    cases dropZeros ts <;> simp

/-- Operands that are changed alike under their new names. -/
theorem recurrenceOf_map_map {g : Expr → Expr} (g' : Expr → Expr)
    (hg : ∀ t ∈ ts, g' (t.relabel π) = (g t).relabel π) :
    recurrenceOf (π h) ((ts.map (relabel π)).map g') = (recurrenceOf h (ts.map g)).relabel π := by
  rw [← recurrenceOf_map, List.map_map, List.map_map]
  exact congrArg _ (List.map_congr_left hg)

theorem sumOf_map : sumOf (ts.map (relabel π)) c = (sumOf ts c).relabel π := by
  have hmap : ts.map (relabel π) ++ (if c = 0 then [] else [const c]) =
      (ts ++ if c = 0 then [] else [const c]).map (relabel π) := by split <;> simp
  rw [sumOf, sumOf, hmap]
  rcases ts ++ (if c = 0 then [] else [const c]) with _ | ⟨t, _ | ⟨u, us⟩⟩ <;> simp

theorem termsOfAll_eq_flatMap : termsOfAll ts = ts.flatMap terms := by
  induction ts with
  | nil => rfl
  | cons t ts ih => rw [termsOfAll, ih, List.flatMap_cons]

@[simp] theorem terms_relabel : (e.relabel π).terms = e.terms.map (relabel π) := by
  induction e using byParts with
  | sum ts ih =>
    rw [relabel_sum, terms, terms, termsOfAll_eq_flatMap, termsOfAll_eq_flatMap, List.flatMap_map,
      List.map_flatMap]
    exact List.flatMap_congr ih
  | _ => simp [terms]

theorem termsOfAll_map : termsOfAll (ts.map (relabel π)) = (termsOfAll ts).map (relabel π) := by
  simp [termsOfAll_eq_flatMap, List.flatMap_map, List.map_flatMap]

@[simp] theorem factors_relabel : (e.relabel π).factors = e.factors.map (relabel π) := by
  cases e <;> simp [factors]

theorem productOf_map : productOf (ts.map (relabel π)) = (productOf ts).relabel π := by
  have hconsts : (ts.map (relabel π)).filterMap constant? = ts.filterMap constant? := by
    simp [List.filterMap_map]
  have hmap : ∀ c : Int64, ((if c = 1 then [] else [const c]) ++
      (ts.map (relabel π)).filter fun f => !f.isConstant) =
      ((if c = 1 then [] else [const c]) ++ ts.filter fun f => !f.isConstant).map (relabel π) := by
    intro c
    rw [List.filter_map, List.map_append]
    split <;> simp [Function.comp_def]
  rw [productOf, productOf, hconsts]
  generalize (ts.filterMap constant?).foldl (· * ·) 1 = c
  by_cases hc : c = 0
  · rw [if_pos hc, if_pos hc, relabel_zero]
  · rw [if_neg hc, if_neg hc, hmap]
    rcases (if c = 1 then [] else [const c]) ++ ts.filter (fun f => !f.isConstant) with
      _ | ⟨t, _ | ⟨u, us⟩⟩ <;> simp

end Expr

/-! ### Sums -/

def Recurrence.relabel (π : Equiv.Perm BlockId) (r : Recurrence) : Recurrence :=
  ⟨π r.header, r.operands.map (Expr.relabel π)⟩

@[simp] theorem Recurrence.header_relabel (r : Recurrence) :
    (r.relabel π).header = π r.header := rfl

@[simp] theorem Recurrence.operands_relabel (r : Recurrence) :
    (r.relabel π).operands = r.operands.map (Expr.relabel π) := rfl

theorem Recurrence.toExpr_relabel (r : Recurrence) :
    (r.relabel π).toExpr = r.toExpr.relabel π := by
  simp [toExpr, relabel]

def Terms.relabel (π : Equiv.Perm BlockId) (p : Terms) : Terms :=
  ⟨p.constant, p.recurrences.map (Recurrence.relabel π), p.others.map (Expr.relabel π)⟩

@[simp] theorem Terms.recurrences_relabel (p : Terms) :
    (p.relabel π).recurrences = p.recurrences.map (Recurrence.relabel π) := rfl

section
variable {add add' : List Expr → Expr} {as bs ts : List Expr}

theorem addOperands_map (hadd : ∀ ts, add' (ts.map (Expr.relabel π)) = (add ts).relabel π) :
    addOperands add' (as.map (Expr.relabel π)) (bs.map (Expr.relabel π)) =
      (addOperands add as bs).map (Expr.relabel π) := by
  have hpair : ∀ a b, add' [a.relabel π, b.relabel π] = (add [a, b]).relabel π :=
    fun a b => hadd [a, b]
  have hzero : ∀ a, add' [a.relabel π, .zero] = (add [a, .zero]).relabel π := by
    intro a
    rw [← hpair, Expr.relabel_zero]
  have hzero' : ∀ b, add' [.zero, b.relabel π] = (add [.zero, b]).relabel π := by
    intro b
    rw [← hpair, Expr.relabel_zero]
  induction as generalizing bs with
  | nil => simp [addOperands, Function.comp_def, hzero']
  | cons a as ih =>
    cases bs with
    | nil => simp [addOperands, Function.comp_def, hzero]
    | cons b bs => simp [addOperands, hpair, ih]

theorem mergeRecurrence_map (hadd : ∀ ts, add' (ts.map (Expr.relabel π)) = (add ts).relabel π)
    (r : Recurrence) (qs : List Recurrence) :
    mergeRecurrence add' (r.relabel π) (qs.map (Recurrence.relabel π)) =
      (mergeRecurrence add r qs).map (Recurrence.relabel π) := by
  induction qs with
  | nil => rfl
  | cons q qs ih =>
    rw [List.map_cons, mergeRecurrence, mergeRecurrence, ih, Recurrence.header_relabel,
      Recurrence.header_relabel]
    by_cases he : q.header = r.header
    · rw [if_pos (congrArg π he), if_pos he]
      simp [Recurrence.relabel, addOperands_map hadd]
    · rw [if_neg fun h => he (π.injective h), if_neg he, List.map_cons]

theorem Terms.ofList_map (hadd : ∀ ts, add' (ts.map (Expr.relabel π)) = (add ts).relabel π) :
    Terms.ofList add' (ts.map (Expr.relabel π)) = (Terms.ofList add ts).relabel π := by
  induction ts with
  | nil => rfl
  | cons t ts ih =>
    cases t with
    | recurrence h ops =>
      rw [List.map_cons, Expr.relabel_recurrence, ofList, ofList, ih]
      exact congrArg (fun rs => (⟨_, rs, _⟩ : Terms)) (mergeRecurrence_map hadd ⟨h, ops⟩ _)
    | _ => simp [ofList, ih, Terms.relabel]

theorem addToStart_map (hadd : ∀ ts, add' (ts.map (Expr.relabel π)) = (add ts).relabel π) :
    addToStart add' (as.map (Expr.relabel π)) (ts.map (Expr.relabel π)) =
      (addToStart add as ts).map (Expr.relabel π) := by
  cases as with
  | nil => simp [addToStart]
  | cons a as =>
    cases ts with
    | nil => simp [addToStart]
    | cons t ts => simp [addToStart, ← hadd]

end

/-- The same loops and places under other names of the blocks. -/
structure Scope.Renames (π : Equiv.Perm BlockId) (S S' : Scope) : Prop where
  forest : S.forest.Renames π S'.forest
  home : ∀ id, S'.home id = (S.home id).map π

namespace Scope.Renames
variable {S S' : Scope} {l : LoopId}

theorem fixesValue (hS : S.Renames π S') (v : Value) : S'.fixesValue l v = S.fixesValue l v := by
  cases v with
  | result id =>
    rw [Scope.fixesValue, Scope.fixesValue, hS.home, Option.map_map]
    simp only [Function.comp_def, hS.forest.contains]
  | _ => rfl

theorem runsWithin (hS : S.Renames π S') (h : BlockId) :
    S'.runsWithin l (π h) = S.runsWithin l h := by
  rw [Scope.runsWithin, Scope.runsWithin, hS.forest.ofHeader?]
  simp only [hS.forest.isNestedIn]

theorem isInvariant (hS : S.Renames π S') (e : Expr) :
    S'.isInvariant l (e.relabel π) = S.isInvariant l e := by
  have hall : ∀ ts : List Expr, (∀ t ∈ ts, S'.isInvariant l (t.relabel π) = S.isInvariant l t) →
      S'.areInvariant l (ts.map (Expr.relabel π)) = S.areInvariant l ts := by
    intro ts ih
    rw [Bool.eq_iff_iff, areInvariant_iff, areInvariant_iff, List.forall_mem_map]
    exact forall₂_congr fun t ht => by rw [ih t ht]
  induction e using Expr.byParts with
  | const c => simp [Scope.isInvariant]
  | unknown v => simp [Scope.isInvariant, hS.fixesValue]
  | sum ts ih => simp [Scope.isInvariant, hall ts ih]
  | product ts ih => simp [Scope.isInvariant, hall ts ih]
  | recurrence h ts ih => simp [Scope.isInvariant, hall ts ih, hS.runsWithin]

theorem depthOf (hS : S.Renames π S') (h : BlockId) : S'.depthOf (π h) = S.depthOf h := by
  rw [Scope.depthOf, Scope.depthOf, hS.forest.ofHeader?, funext hS.forest.depthOf]

theorem insertByDepth (hS : S.Renames π S') (r : Recurrence) (qs : List Recurrence) :
    S'.insertByDepth (r.relabel π) (qs.map (Recurrence.relabel π)) =
      (S.insertByDepth r qs).map (Recurrence.relabel π) := by
  induction qs with
  | nil => rfl
  | cons q qs ih =>
    rw [List.map_cons, Scope.insertByDepth, Scope.insertByDepth, ih, Recurrence.header_relabel,
      Recurrence.header_relabel, hS.depthOf, hS.depthOf]
    split <;> rfl

theorem sortByDepth (hS : S.Renames π S') (qs : List Recurrence) :
    S'.sortByDepth (qs.map (Recurrence.relabel π)) =
      (S.sortByDepth qs).map (Recurrence.relabel π) := by
  induction qs with
  | nil => rfl
  | cons q qs ih =>
    change S'.insertByDepth _ (S'.sortByDepth _) = List.map _ (S.insertByDepth _ (S.sortByDepth _))
    rw [ih, hS.insertByDepth]

theorem addWith {add add' : List Expr → Expr} (hS : S.Renames π S')
    (hadd : ∀ ts, add' (ts.map (Expr.relabel π)) = (add ts).relabel π) (ts : List Expr) :
    S'.addWith add' (ts.map (Expr.relabel π)) = (S.addWith add ts).relabel π := by
  rcases hparts : Terms.ofList add (Expr.termsOfAll ts) with ⟨c, rs, others⟩
  have hparts' : Terms.ofList add' (Expr.termsOfAll (ts.map (Expr.relabel π))) =
      ⟨c, rs.map (Recurrence.relabel π), others.map (Expr.relabel π)⟩ := by
    rw [Expr.termsOfAll_map, Terms.ofList_map hadd, hparts]
    rfl
  rw [Scope.addWith, Scope.addWith, hparts, hparts']
  simp only [hS.sortByDepth]
  cases S.sortByDepth rs with
  | nil => exact Expr.sumOf_map
  | cons r rest =>
    have hrest : (rest.map (Recurrence.relabel π)).map Recurrence.toExpr =
        (rest.map Recurrence.toExpr).map (Expr.relabel π) := by
      simp [Function.comp_def, Recurrence.toExpr_relabel]
    simp only [List.map_cons, hrest, Recurrence.header_relabel, Recurrence.operands_relabel,
      hS.forest.ofHeader?, ← List.map_append]
    cases S.forest.ofHeader? r.header with
    | none =>
      dsimp only
      rw [Expr.recurrenceOf_map, ← List.map_cons, Expr.sumOf_map]
    | some l =>
      have hpartition : ∀ ts : List Expr, (ts.map (Expr.relabel π)).partition (S'.isInvariant l) =
          ((ts.partition (S.isInvariant l)).1.map (Expr.relabel π),
            (ts.partition (S.isInvariant l)).2.map (Expr.relabel π)) := by
        intro ts
        simp [List.partition_eq_filter_filter, List.filter_map, Function.comp_def, hS.isInvariant]
      have hconst : ∀ ts : List Expr,
          ts.map (Expr.relabel π) ++ (if c = 0 then [] else [Expr.const c]) =
          (ts ++ if c = 0 then [] else [Expr.const c]).map (Expr.relabel π) := by
        intro ts
        split <;> simp
      dsimp only
      rw [hpartition, hconst, addToStart_map hadd, Expr.recurrenceOf_map, ← List.map_cons,
        Expr.sumOf_map]

theorem addUpTo (hS : S.Renames π S') (n : Nat) (ts : List Expr) :
    S'.addUpTo n (ts.map (Expr.relabel π)) = (S.addUpTo n ts).relabel π := by
  induction n generalizing ts with
  | zero => exact hS.addWith (fun _ => Expr.sumOf_map) ts
  | succ n ih => exact hS.addWith ih ts

theorem add (hS : S.Renames π S') (ts : List Expr) :
    S'.add (ts.map (Expr.relabel π)) = (S.add ts).relabel π := by
  rw [Scope.add, Scope.add, hS.addUpTo, Expr.recurrencesAll_map fun _ _ => Expr.recurrences_relabel]

/-! ### Products -/

theorem scale (hS : S.Renames π S') (c : Int64) (e : Expr) :
    S'.scale c (e.relabel π) = (S.scale c e).relabel π := by
  have hfactors : ∀ e : Expr, (if c = 0 then .zero else if c = 1 then e.relabel π
      else Expr.productOf (.const c :: (e.relabel π).factors)) =
      (if c = 0 then .zero else if c = 1 then e
        else Expr.productOf (.const c :: e.factors)).relabel π := by
    intro e
    split
    · simp
    · split
      · rfl
      · rw [← Expr.productOf_map]
        simp
  induction e using Expr.byParts with
  | const d => simp [Scope.scale]
  | unknown v => simpa [Scope.scale] using hfactors (.unknown v)
  | sum ts => simpa [Scope.scale] using hfactors (.sum ts)
  | product ts => simpa [Scope.scale] using hfactors (.product ts)
  | recurrence h ts ih =>
    rw [Expr.relabel_recurrence, Scope.scale, Scope.scale, scaleAll_eq_map, scaleAll_eq_map,
      Expr.recurrenceOf_map_map _ ih, hS.forest.ofHeader?]
    split
    · simp
    · split
      · simp
      · split
        · rfl
        · rw [← Expr.productOf_map]
          simp

theorem distributes (hS : S.Renames π S') (h : BlockId) (e : Expr) :
    S'.distributes (π h) (e.relabel π) = S.distributes h e := by
  rw [Scope.distributes, Scope.distributes, hS.forest.ofHeader?]
  simp only [hS.isInvariant]

theorem mul_recurrences_of_ne {h h' : BlockId} {as bs : List Expr} (hne : h ≠ h') :
    S.mul (.recurrence h as) (.recurrence h' bs) =
      if S.distributes h (.recurrence h' bs) then
        Expr.recurrenceOf h (as.map fun a => S.mul a (.recurrence h' bs))
      else if S.distributes h' (.recurrence h as) then
        Expr.recurrenceOf h' (bs.map fun b => S.mul b (.recurrence h as))
      else .product [.recurrence h as, .recurrence h' bs] := by
  rw [Scope.mul.eq_def]
  dsimp only
  rw [if_neg hne]

theorem mul_recurrences_of_not_affine {h : BlockId} {as bs : List Expr}
    (hn : ¬(as.length = 2 ∧ bs.length = 2)) : S.mul (.recurrence h as) (.recurrence h bs) =
      .product [.recurrence h as, .recurrence h bs] := by
  rw [Scope.mul.eq_def]
  dsimp only
  rw [if_pos rfl]
  split
  · exact absurd ⟨rfl, rfl⟩ hn
  · rfl

theorem mul (hS : S.Renames π S') (t u : Expr) :
    S'.mul (t.relabel π) (u.relabel π) = (S.mul t u).relabel π := by
  fun_induction S.mul t u with
  | case1 c e => rw [Expr.relabel_const, Scope.mul, hS.scale]
  | case2 e c hc =>
    cases e with
    | const d => exact absurd rfl (hc d)
    | _ => simp [Scope.mul, ← hS.scale]
  | case3 h a b c d square ihbd ihac ihad ihbc =>
    have hadd := hS.add [S.mul a d, S.mul b c, square]
    rw [List.map_cons, List.map_cons, List.map_cons, List.map_nil] at hadd
    rw [← Expr.recurrenceOf_map, List.map_cons, List.map_cons, List.map_cons, List.map_nil, ← hadd,
      ← hS.scale]
    simp [Scope.mul, ihbd, ihac, ihad, ihbc, square]
  | case4 h as bs hpair =>
    have hn : ¬(as.length = 2 ∧ bs.length = 2) := by
      rintro ⟨ha, hb⟩
      obtain ⟨a, b, rfl⟩ := List.length_eq_two.mp ha
      obtain ⟨c, d, rfl⟩ := List.length_eq_two.mp hb
      exact hpair a b c d rfl rfl
    rw [Expr.relabel_recurrence, Expr.relabel_recurrence,
      mul_recurrences_of_not_affine (by simpa using hn)]
    simp
  | case5 h as h' bs hne hd ih =>
    rw [← hS.distributes, Expr.relabel_recurrence] at hd
    rw [← Expr.recurrenceOf_map_map (fun o => S'.mul o _) ih, Expr.relabel_recurrence,
      Expr.relabel_recurrence, mul_recurrences_of_ne (π.injective.ne hne), if_pos hd]
  | case6 h as h' bs hne hn hd ih =>
    rw [← hS.distributes, Expr.relabel_recurrence] at hd hn
    rw [← Expr.recurrenceOf_map_map (fun o => S'.mul o _) ih, Expr.relabel_recurrence,
      Expr.relabel_recurrence, mul_recurrences_of_ne (π.injective.ne hne), if_neg hn, if_pos hd]
  | case7 h as h' bs hne hn hn' =>
    rw [← hS.distributes, Expr.relabel_recurrence] at hn hn'
    rw [Expr.relabel_recurrence, Expr.relabel_recurrence,
      mul_recurrences_of_ne (π.injective.ne hne), if_neg hn, if_neg hn']
    simp
  | case8 h as e hc hr hd ih =>
    rw [← hS.distributes] at hd
    rw [← Expr.recurrenceOf_map_map (fun o => S'.mul o _) ih, Expr.relabel_recurrence,
      Scope.mul, if_pos hd]
    · exact Expr.not_const_relabel hc
    · exact Expr.not_recurrence_relabel hr
  | case9 h as e hc hr hd =>
    rw [← hS.distributes] at hd
    rw [← Expr.productOf_map, Expr.relabel_recurrence, Scope.mul, if_neg hd]
    · simp
    · exact Expr.not_const_relabel hc
    · exact Expr.not_recurrence_relabel hr
  | case10 e h bs hc hr hd ih =>
    rw [← hS.distributes] at hd
    rw [← Expr.recurrenceOf_map_map (fun o => S'.mul o _) ih, Expr.relabel_recurrence,
      Scope.mul, if_pos hd]
    · exact Expr.not_const_relabel hc
    · exact Expr.not_recurrence_relabel hr
  | case11 e h bs hc hr hd =>
    rw [← hS.distributes] at hd
    rw [← Expr.productOf_map, Expr.relabel_recurrence, Scope.mul, if_neg hd]
    · simp
    · exact Expr.not_const_relabel hc
    · exact Expr.not_recurrence_relabel hr
  | case12 t u htc huc htu ht hu =>
    rw [← Expr.productOf_map, Scope.mul]
    · simp
    · exact Expr.not_const_relabel htc
    · exact Expr.not_recurrence_relabel ht
    · exact Expr.not_const_relabel huc
    · exact Expr.not_recurrence_relabel hu
    · exact fun h as h' bs hth _ => Expr.not_recurrence_relabel ht h as hth

end Scope.Renames
end LoopStride
