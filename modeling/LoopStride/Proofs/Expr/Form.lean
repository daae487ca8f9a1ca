import LoopStride.Proofs.Expr.Depth

/-! The form of sums, products and recurrences that arithmetic makes. Products are in normal form,
recurrences do not end in a zero, and a sum is in normal form but for its first term: there stands
what becomes of its deepest recurrence, which may have come down to its start. -/
namespace LoopStride

namespace Expr

mutual

/-- An expression and all that it is made of, at any depth. -/
def parts : Expr → List Expr
  | const c => [const c]
  | unknown v => [unknown v]
  | sum ts => sum ts :: partsAll ts
  | product ts => product ts :: partsAll ts
  | recurrence h ts => recurrence h ts :: partsAll ts

def partsAll : List Expr → List Expr
  | [] => []
  | t :: ts => parts t ++ partsAll ts

end

variable {M : Makeup} {h : BlockId} {e p t : Expr} {ts us ops : List Expr} {c : Int64}

theorem mem_partsAll_iff : p ∈ partsAll ts ↔ ∃ t ∈ ts, p ∈ t.parts := by
  induction ts with
  | nil => simp [partsAll]
  | cons t ts ih => simp [partsAll, ih]

theorem mem_parts_self (e : Expr) : e ∈ e.parts := by
  cases e <;> simp [parts]

theorem MadeOf.of_mem_parts (h : e.MadeOf M) (hp : p ∈ e.parts) : p.MadeOf M := by
  have below : ∀ {e : Expr} {ts : List Expr}, e.MadeOf M → (∀ t ∈ ts, t.MadeOf M) →
      (∀ t ∈ ts, t.MadeOf M → p ∈ t.parts → p.MadeOf M) → p ∈ e :: partsAll ts → p.MadeOf M := by
    intro e ts he hts ih hp
    rcases List.mem_cons.mp hp with rfl | hp
    · exact he
    · obtain ⟨t, ht, hp⟩ := mem_partsAll_iff.mp hp
      exact ih t ht (hts t ht) hp
  induction e using byParts with
  | const c => exact List.mem_singleton.mp hp ▸ h
  | unknown v => exact List.mem_singleton.mp hp ▸ h
  | sum ts ih => exact below h (madeOf_sum.mp h) ih hp
  | product ts ih => exact below h (madeOf_product.mp h) ih hp
  | recurrence k ts ih => exact below h (madeOf_recurrence.mp h).2.2 ih hp

/-! ### Normal form -/

def isSum : Expr → Bool
  | sum _ => true
  | _ => false

def isProduct : Expr → Bool
  | product _ => true
  | _ => false

def headers (ts : List Expr) : List BlockId := ts.filterMap fun t => t.recurrence?.map (·.header)

/-- Terms that leave nothing to put together: no sum, no zero, at most one recurrence of a loop. -/
structure Separate (ts : List Expr) : Prop where
  flat : ∀ t ∈ ts, t.isSum = false
  nonzero : zero ∉ ts
  headers : (headers ts).Nodup

/-- The terms of a sum that cannot be said with less. -/
structure NormalSum (ts : List Expr) : Prop where
  two : 2 ≤ ts.length
  constants : ts.countP isConstant ≤ 1
  separate : Separate ts

/-- The terms of a sum that may have something to put together with its first term. -/
structure NearlyNormalSum (ts : List Expr) : Prop where
  two : 2 ≤ ts.length
  constants : ts.countP isConstant ≤ 1
  separate : Separate ts.tail

/-- The factors of a product that cannot be said with less. -/
structure NormalProduct (fs : List Expr) : Prop where
  two : 2 ≤ fs.length
  constants : fs.countP isConstant ≤ 1
  flat : ∀ t ∈ fs, t.isProduct = false
  nontrivial : ∀ c, const c ∈ fs → c ≠ 0 ∧ c ≠ 1

def Trimmed (e : Expr) : Prop := ∀ h ops, e = recurrence h ops → ops.getLast? ≠ some zero

theorem trimmed_of_recurrence? (h : e.recurrence? = none) : e.Trimmed := by
  rintro k ops rfl
  cases h

theorem Separate.sublist (h : Separate ts) (hs : us.Sublist ts) : Separate us where
  flat t ht := h.flat t (hs.subset ht)
  nonzero hz := h.nonzero (hs.subset hz)
  headers := h.headers.sublist (hs.filterMap _)

theorem NormalSum.nearly (h : NormalSum ts) : NearlyNormalSum ts :=
  ⟨h.two, h.constants, h.separate.sublist (List.tail_sublist ts)⟩

theorem headers_append : headers (ts ++ us) = headers ts ++ headers us := List.filterMap_append

theorem headers_eq_nil (h : ∀ t ∈ ts, t.recurrence? = none) : headers ts = [] := by
  refine List.filterMap_eq_nil_iff.mpr fun t ht => ?_
  rw [h t ht, Option.map_none]

theorem headers_map_toExpr (rs : List Recurrence) :
    headers (rs.map Recurrence.toExpr) = rs.map (·.header) := by
  induction rs with
  | nil => rfl
  | cons r rs ih =>
    rw [List.map_cons, List.map_cons, ← ih]
    rfl

theorem getLast?_dropZeros : (dropZeros ts).getLast? ≠ some zero := by
  induction ts with
  | nil => simp [dropZeros]
  | cons t ts ih =>
    rw [dropZeros]
    cases hd : dropZeros ts with
    | nil =>
      by_cases ht : t = zero
      · simp [ht]
      · simp [ht]
    | cons u us =>
      rw [hd] at ih
      simpa [List.getLast?_cons_cons] using ih

end Expr

open LoopStride.Expr (NormalSum NearlyNormalSum NormalProduct Separate Trimmed)

namespace Scope

/-- What holds of every part of an expression. -/
def Tidy (S : Scope) : Expr → Prop
  | .sum ts => NearlyNormalSum ts
  | .product fs => NormalProduct fs ∧ ∀ t ∈ fs, t.Trimmed
  | .recurrence h ops =>
    (∃ l, S.forest.ofHeader? h = some l) ∧ 2 ≤ ops.length ∧ ∀ o ∈ ops, o.Trimmed
  | _ => True

def Orderly (S : Scope) (e : Expr) : Prop := ∀ p ∈ e.parts, S.Tidy p

/-- An expression as it is found for an instruction. -/
structure Neat (S : Scope) (e : Expr) : Prop where
  orderly : S.Orderly e
  trimmed : e.Trimmed

variable {S : Scope} {add : List Expr → Expr} {h : BlockId} {l : LoopId} {c : Int64}
  {as bs ts fs ops : List Expr} {r : Recurrence} {qs : List Recurrence} {e t u p : Expr} {v : Value}

theorem orderly_cons (hparts : e.parts = e :: Expr.partsAll ts) :
    S.Orderly e ↔ S.Tidy e ∧ ∀ t ∈ ts, S.Orderly t := by
  rw [Orderly, hparts, List.forall_mem_cons]
  refine and_congr_right fun _ => ⟨fun h t ht p hp => ?_, fun h p hp => ?_⟩
  · exact h p (Expr.mem_partsAll_iff.mpr ⟨t, ht, hp⟩)
  · obtain ⟨t, ht, hp⟩ := Expr.mem_partsAll_iff.mp hp
    exact h t ht p hp

@[simp] theorem orderly_const : S.Orderly (.const c) := by simp [Orderly, Expr.parts, Tidy]

@[simp] theorem orderly_unknown : S.Orderly (.unknown v) := by simp [Orderly, Expr.parts, Tidy]

theorem orderly_sum : S.Orderly (.sum ts) ↔ NearlyNormalSum ts ∧ ∀ t ∈ ts, S.Orderly t :=
  orderly_cons (by rw [Expr.parts])

theorem orderly_product : S.Orderly (.product fs) ↔
    (NormalProduct fs ∧ ∀ t ∈ fs, t.Trimmed) ∧ ∀ t ∈ fs, S.Orderly t :=
  orderly_cons (by rw [Expr.parts])

theorem orderly_recurrence : S.Orderly (.recurrence h ops) ↔
    ((∃ l, S.forest.ofHeader? h = some l) ∧ 2 ≤ ops.length ∧ ∀ o ∈ ops, o.Trimmed) ∧
      ∀ t ∈ ops, S.Orderly t :=
  orderly_cons (by rw [Expr.parts])

theorem neat_const : S.Neat (.const c) :=
  ⟨orderly_const, Expr.trimmed_of_recurrence? rfl⟩

theorem neat_unknown : S.Neat (.unknown v) :=
  ⟨orderly_unknown, Expr.trimmed_of_recurrence? rfl⟩

theorem Orderly.operands_ne_nil (hr : S.Orderly (.recurrence h ops)) : ops ≠ [] :=
  List.ne_nil_of_length_pos (Nat.lt_of_lt_of_le Nat.two_pos (orderly_recurrence.mp hr).1.2.1)

theorem neat_of_operand (hr : S.Orderly (.recurrence h ops)) (ht : t ∈ ops) : S.Neat t :=
  ⟨(orderly_recurrence.mp hr).2 t ht, (orderly_recurrence.mp hr).1.2.2 t ht⟩

theorem neat_recurrenceOf (hl : ∃ l, S.forest.ofHeader? h = some l) (hne : ops ≠ [])
    (hops : ∀ o ∈ ops, S.Neat o) : S.Neat (Expr.recurrenceOf h ops) := by
  obtain ⟨start, rest, rfl⟩ := List.exists_cons_of_ne_nil hne
  rw [Expr.recurrenceOf]
  have hlast : (Expr.dropZeros rest).getLast? ≠ some .zero := Expr.getLast?_dropZeros
  have hsub : start :: Expr.dropZeros rest ⊆ start :: rest :=
    (Expr.dropZeros_sublist.cons_cons start).subset
  cases hd : Expr.dropZeros rest with
  | nil => exact hops start List.mem_cons_self
  | cons u us =>
    rw [hd] at hlast hsub
    refine ⟨orderly_recurrence.mpr ⟨⟨hl, by simp, fun o ho => (hops o (hsub ho)).trimmed⟩,
      fun o ho => (hops o (hsub ho)).orderly⟩, ?_⟩
    rintro k ops heq
    obtain ⟨-, rfl⟩ := Expr.recurrence.inj heq
    rwa [List.getLast?_cons_cons]

/-! ### Addition -/

theorem headers_mergeRecurrence : (mergeRecurrence add r qs).map (·.header) =
    if r.header ∈ qs.map (·.header) then qs.map (·.header) else qs.map (·.header) ++ [r.header] := by
  induction qs with
  | nil => rfl
  | cons q qs ih =>
    rw [LoopStride.mergeRecurrence]
    by_cases he : q.header = r.header
    · simp [he]
    · rw [if_neg he, List.map_cons, ih, List.map_cons]
      simp only [List.mem_cons, Ne.symm he, false_or]
      split <;> rfl

theorem exists_of_mem_addOperands (ht : t ∈ addOperands add as bs) :
    ∃ a b, t = add [a, b] ∧ (a = .zero ∨ a ∈ as) ∧ (b = .zero ∨ b ∈ bs) := by
  induction as generalizing bs with
  | nil =>
    obtain ⟨b, hb, rfl⟩ := List.mem_map.mp ht
    exact ⟨.zero, b, rfl, .inl rfl, .inr hb⟩
  | cons a as ih =>
    cases bs with
    | nil =>
      obtain ⟨a, ha, rfl⟩ := List.mem_map.mp ht
      exact ⟨a, .zero, rfl, .inr ha, .inl rfl⟩
    | cons b bs =>
      rw [LoopStride.addOperands, List.mem_cons] at ht
      rcases ht with rfl | ht
      · exact ⟨a, b, rfl, .inr List.mem_cons_self, .inr List.mem_cons_self⟩
      · obtain ⟨a', b', rfl, ha, hb⟩ := ih ht
        exact ⟨a', b', rfl, ha.imp_right (List.mem_cons_of_mem a),
          hb.imp_right (List.mem_cons_of_mem b)⟩

/-- An addition whose sums are neat if the terms are in order. -/
def Tidies (S : Scope) (add : List Expr → Expr) : Prop :=
  ∀ ts, (∀ t ∈ ts, S.Orderly t) → S.Neat (add ts)

theorem Tidies.orderly_mergeRecurrence (hadd : S.Tidies add) (hr : S.Orderly r.toExpr)
    (hq : ∀ q ∈ qs, S.Orderly q.toExpr) :
    ∀ q ∈ mergeRecurrence add r qs, S.Orderly q.toExpr := by
  have hzero : ∀ {t : Expr} {ts : List Expr}, t = .zero ∨ t ∈ ts → (∀ t ∈ ts, S.Orderly t) →
      S.Orderly t := by
    rintro t ts (rfl | ht) hts
    · exact orderly_const
    · exact hts t ht
  induction qs with
  | nil => simpa [LoopStride.mergeRecurrence] using hr
  | cons q qs ih =>
    obtain ⟨hq, hqs⟩ := List.forall_mem_cons.mp hq
    rw [LoopStride.mergeRecurrence]
    split
    · obtain ⟨⟨hl, hlen, -⟩, hops⟩ := orderly_recurrence.mp hq
      have hsums : ∀ o ∈ addOperands add q.operands r.operands, S.Neat o := by
        intro o ho
        obtain ⟨a, b, rfl, ha, hb⟩ := exists_of_mem_addOperands ho
        exact hadd _ (forall_mem_pair.mpr ⟨hzero ha hops, hzero hb (orderly_recurrence.mp hr).2⟩)
      refine List.forall_mem_cons.mpr ⟨orderly_recurrence.mpr ⟨⟨hl, ?_, fun o ho =>
        (hsums o ho).trimmed⟩, fun o ho => (hsums o ho).orderly⟩, hqs⟩
      rw [length_addOperands]
      exact Nat.le_trans hlen (Nat.le_max_left _ _)
    · exact List.forall_mem_cons.mpr ⟨hq, ih hqs⟩

/-- Neither a constant nor a sum nor a recurrence. -/
structure IsOther (t : Expr) : Prop where
  constant? : t.constant? = none
  isSum : t.isSum = false
  recurrence? : t.recurrence? = none

/-- Terms sorted out by kind, with at most one recurrence of a loop. -/
structure Sorted (S : Scope) (parts : Terms) : Prop where
  recurrences : ∀ r ∈ parts.recurrences, S.Orderly r.toExpr
  headers : (parts.recurrences.map (·.header)).Nodup
  others : ∀ t ∈ parts.others, S.Orderly t ∧ IsOther t

theorem Tidies.sorted_ofList (hadd : S.Tidies add) (hts : ∀ t ∈ ts, S.Orderly t)
    (hflat : ∀ t ∈ ts, t.isSum = false) : S.Sorted (Terms.ofList add ts) := by
  induction ts with
  | nil => constructor <;> simp [Terms.ofList]
  | cons t ts ih =>
    obtain ⟨ht, hts⟩ := List.forall_mem_cons.mp hts
    obtain ⟨hsum, hflat⟩ := List.forall_mem_cons.mp hflat
    obtain ⟨hrec, hheaders, hothers⟩ := ih hts hflat
    cases t with
    | const c => exact ⟨hrec, hheaders, hothers⟩
    | recurrence h ops =>
      refine ⟨hadd.orderly_mergeRecurrence (r := ⟨h, ops⟩) ht hrec, ?_, hothers⟩
      rw [Terms.ofList, headers_mergeRecurrence]
      split
      · exact hheaders
      · next hnot =>
        refine List.nodup_append.mpr ⟨hheaders, by simp, fun k hk k' hk' heq => hnot ?_⟩
        obtain rfl := List.mem_singleton.mp hk'
        exact heq ▸ hk
    | unknown v => exact ⟨hrec, hheaders, List.forall_mem_cons.mpr ⟨⟨ht, rfl, rfl, rfl⟩, hothers⟩⟩
    | product fs => exact ⟨hrec, hheaders, List.forall_mem_cons.mpr ⟨⟨ht, rfl, rfl, rfl⟩, hothers⟩⟩
    | sum ts => cases hsum

theorem isSum_of_mem_terms (ht : t ∈ e.terms) : t.isSum = false := by
  induction e using Expr.byParts with
  | sum ts ih =>
    rw [Expr.terms, Expr.mem_termsOfAll_iff] at ht
    obtain ⟨u, hu, ht⟩ := ht
    exact ih u hu ht
  | const | unknown | product | recurrence => exact List.mem_singleton.mp ht ▸ rfl

theorem Orderly.of_mem_terms (he : S.Orderly e) (ht : t ∈ e.terms) : S.Orderly t := by
  induction e using Expr.byParts with
  | sum ts ih =>
    rw [Expr.terms, Expr.mem_termsOfAll_iff] at ht
    obtain ⟨u, hu, ht⟩ := ht
    exact ih u hu ((orderly_sum.mp he).2 u hu) ht
  | const | unknown | product | recurrence => exact List.mem_singleton.mp ht ▸ he

theorem Tidies.sorted (hadd : S.Tidies add) (hts : ∀ t ∈ ts, S.Orderly t) :
    S.Sorted (Terms.ofList add (Expr.termsOfAll ts)) := by
  refine hadd.sorted_ofList (fun t ht => ?_) fun t ht => ?_
  · obtain ⟨u, hu, ht⟩ := Expr.mem_termsOfAll_iff.mp ht
    exact (hts u hu).of_mem_terms ht
  · obtain ⟨u, -, ht⟩ := Expr.mem_termsOfAll_iff.mp ht
    exact isSum_of_mem_terms ht

/-- Terms that a sum has beside its deepest recurrence, whose header is `h`. -/
structure Beside (S : Scope) (h : BlockId) (kept : List Expr) : Prop where
  orderly : ∀ t ∈ kept, S.Orderly t
  constants : kept.countP Expr.isConstant = 0
  separate : Separate kept
  header : h ∉ Expr.headers kept

theorem Sorted.beside {parts : Terms} {rest : List Recurrence} {kept : List Expr}
    (hs : S.Sorted parts) (hperm : (r :: rest).Perm parts.recurrences)
    (hkept : kept.Sublist (rest.map Recurrence.toExpr ++ parts.others)) :
    S.Beside r.header kept := by
  have hcases : ∀ t ∈ kept, (∃ q ∈ rest, t = q.toExpr) ∨ t ∈ parts.others := by
    intro t ht
    refine (List.mem_append.mp (hkept.subset ht)).imp_left fun ht => ?_
    obtain ⟨q, hq, rfl⟩ := List.mem_map.mp ht
    exact ⟨q, hq, rfl⟩
  have hheaders : (r.header :: rest.map (·.header)).Nodup :=
    (hperm.map Recurrence.header).nodup_iff.mpr hs.headers
  have hall : Expr.headers (rest.map Recurrence.toExpr ++ parts.others) = rest.map (·.header) := by
    rw [Expr.headers_append, Expr.headers_map_toExpr,
      Expr.headers_eq_nil fun t ht => (hs.others t ht).2.recurrence?, List.append_nil]
  have hsub : (Expr.headers kept).Sublist (rest.map (·.header)) := hall ▸ hkept.filterMap _
  refine ⟨fun t ht => ?_, List.countP_eq_zero.mpr fun t ht => ?_,
    ⟨fun t ht => ?_, fun hz => ?_, (List.nodup_cons.mp hheaders).2.sublist hsub⟩,
    fun hr => (List.nodup_cons.mp hheaders).1 (hsub.subset hr)⟩
  · rcases hcases t ht with ⟨q, hq, rfl⟩ | ht
    · exact hs.recurrences q (hperm.subset (List.mem_cons_of_mem r hq))
    · exact (hs.others t ht).1
  · rcases hcases t ht with ⟨q, hq, rfl⟩ | ht
    · simp [Recurrence.toExpr, Expr.isConstant, Expr.constant?]
    · simp [Expr.isConstant, (hs.others t ht).2.constant?]
  · rcases hcases t ht with ⟨q, hq, rfl⟩ | ht
    · rfl
    · exact (hs.others t ht).2.isSum
  · rcases hcases _ hz with ⟨q, hq, heq⟩ | hz
    · cases heq
    · cases (hs.others _ hz).2.constant?

/-- The deepest recurrence in a sum, the first of equals, once those of one loop are put together. -/
def deepest? (S : Scope) (add : List Expr → Expr) (ts : List Expr) : Option Recurrence :=
  (S.sortByDepth (Terms.ofList add (Expr.termsOfAll ts)).recurrences).head?

/-- What a sum comes to. -/
inductive AddsTo (S : Scope) (add : List Expr → Expr) (ts : List Expr) : Expr → Prop where
  /-- There is nothing to put together. -/
  | plain {others : List Expr} {c : Int64} (hothers : ∀ t ∈ others, S.Orderly t ∧ IsOther t) :
    AddsTo S add ts (Expr.sumOf others c)
  /-- The deepest recurrence takes what its loop leaves alone into its start. -/
  | deepest {r : Recurrence} {start : Expr} {kept : List Expr} (hr : S.deepest? add ts = some r)
    (hl : ∃ l, S.forest.ofHeader? r.header = some l)
    (hops : ∀ o ∈ start :: r.operands.tail, S.Neat o) (hkept : S.Beside r.header kept) :
    AddsTo S add ts
      (Expr.sumOf (Expr.recurrenceOf r.header (start :: r.operands.tail) :: kept) 0)

/-- A new start takes the place of the old one. -/
theorem Tidies.exists_addToStart (hadd : S.Tidies add) (hne : ops ≠ [])
    (hops : ∀ o ∈ ops, S.Neat o) (hts : ∀ t ∈ ts, S.Orderly t) :
    ∃ start, addToStart add ops ts = start :: ops.tail ∧ ∀ o ∈ start :: ops.tail, S.Neat o := by
  obtain ⟨start, rest, rfl⟩ := List.exists_cons_of_ne_nil hne
  obtain ⟨hstart, hrest⟩ := List.forall_mem_cons.mp hops
  cases ts with
  | nil => exact ⟨start, rfl, hops⟩
  | cons t ts =>
    refine ⟨add (start :: t :: ts), rfl, List.forall_mem_cons.mpr ⟨hadd _ ?_, hrest⟩⟩
    exact List.forall_mem_cons.mpr ⟨hstart.orderly, hts⟩

theorem Tidies.addsTo (hadd : S.Tidies add) (hts : ∀ t ∈ ts, S.Orderly t) :
    S.AddsTo add ts (S.addWith add ts) := by
  have hsorted := hadd.sorted hts
  have hdeepest : S.deepest? add ts =
    (S.sortByDepth (Terms.ofList add (Expr.termsOfAll ts)).recurrences).head? := rfl
  rw [Scope.addWith]
  generalize Terms.ofList add (Expr.termsOfAll ts) = parts at hsorted hdeepest ⊢
  dsimp only
  have hperm : (S.sortByDepth parts.recurrences).Perm parts.recurrences := sortByDepth_perm
  cases hs : S.sortByDepth parts.recurrences with
  | nil => exact .plain hsorted.others
  | cons r rest =>
    rw [hs] at hperm hdeepest
    have hrec : ∀ q ∈ r :: rest, S.Orderly q.toExpr := fun q hq =>
      hsorted.recurrences q (hperm.subset hq)
    obtain ⟨hr, hrest⟩ := List.forall_mem_cons.mp hrec
    obtain ⟨⟨⟨l, hl⟩, -⟩, -⟩ := orderly_recurrence.mp hr
    dsimp only
    rw [hl]
    dsimp only
    rw [List.partition_eq_filter_filter]
    dsimp only
    have habsorbed : ∀ t ∈ (rest.map Recurrence.toExpr ++ parts.others).filter (S.isInvariant l) ++
        (if parts.constant = 0 then [] else [.const parts.constant]), S.Orderly t := by
      intro t ht
      rcases List.mem_append.mp ht with ht | ht
      · rcases List.mem_append.mp (List.mem_filter.mp ht).1 with ht | ht
        · obtain ⟨q, hq, rfl⟩ := List.mem_map.mp ht
          exact hrest q hq
        · exact (hsorted.others t ht).1
      · exact (Expr.mem_constantTerm.mp ht).2 ▸ orderly_const
    obtain ⟨start, hstart, hops⟩ :=
      hadd.exists_addToStart hr.operands_ne_nil (fun o ho => neat_of_operand hr ho) habsorbed
    rw [hstart]
    exact .deepest hdeepest ⟨l, hl⟩ hops (hsorted.beside hperm List.filter_sublist)

theorem sumOf_cons : Expr.sumOf (t :: ts) 0 = if ts = [] then t else .sum (t :: ts) := by
  cases ts <;> simp [Expr.sumOf]

/-- A sum of terms apart from which there is only a constant. -/
theorem normalSum_of_others (h : ∀ t ∈ ts, IsOther t)
    (hlen : 2 ≤ (ts ++ if c = 0 then [] else [Expr.const c]).length) :
    NormalSum (ts ++ if c = 0 then [] else [Expr.const c]) := by
  have hcount : ts.countP Expr.isConstant = 0 :=
    List.countP_eq_zero.mpr fun t ht => by simp [Expr.isConstant, (h t ht).constant?]
  have hheaders : Expr.headers ts = [] := Expr.headers_eq_nil fun t ht => (h t ht).recurrence?
  by_cases hc : c = 0
  · rw [if_pos hc, List.append_nil] at hlen ⊢
    refine ⟨hlen, by omega, fun t ht => (h t ht).isSum, fun hz => ?_, by rw [hheaders]; simp⟩
    cases (h _ hz).constant?
  · rw [if_neg hc] at hlen ⊢
    refine ⟨hlen, ?_, fun t ht => ?_, fun hz => ?_, ?_⟩
    · rw [List.countP_append, hcount]
      simp [Expr.isConstant, Expr.constant?]
    · rcases List.mem_append.mp ht with ht | ht
      · exact (h t ht).isSum
      · exact List.mem_singleton.mp ht ▸ rfl
    · rcases List.mem_append.mp hz with hz | hz
      · cases (h _ hz).constant?
      · exact hc (Expr.const.inj (List.mem_singleton.mp hz)).symm
    · rw [Expr.headers_append, hheaders]
      simp [Expr.headers, Expr.recurrence?]

theorem neat_sumOf (h : ∀ t ∈ ts, S.Orderly t ∧ IsOther t) :
    S.Neat (Expr.sumOf ts c) ∧ ∀ us, Expr.sumOf ts c = .sum us → NormalSum us := by
  have hall : ∀ t ∈ ts ++ (if c = 0 then [] else [Expr.const c]), S.Orderly t ∧ t.isSum = false ∧
      t.recurrence? = none := by
    intro t ht
    rcases List.mem_append.mp ht with ht | ht
    · exact ⟨(h t ht).1, (h t ht).2.isSum, (h t ht).2.recurrence?⟩
    · exact (Expr.mem_constantTerm.mp ht).2 ▸ ⟨orderly_const, rfl, rfl⟩
  have hnormal := normalSum_of_others (c := c) fun t ht => (h t ht).2
  rw [Expr.sumOf]
  generalize ts ++ (if c = 0 then [] else [Expr.const c]) = all at hall hnormal ⊢
  split
  · exact ⟨neat_const, fun us h => by cases h⟩
  · next t =>
    obtain ⟨ht, hsum, hrec⟩ := hall t List.mem_cons_self
    refine ⟨⟨ht, Expr.trimmed_of_recurrence? hrec⟩, ?_⟩
    rintro us rfl
    cases hsum
  · next hnil hone =>
    have hlen : 2 ≤ all.length := by
      rcases all with _ | ⟨t, _ | ⟨u, us⟩⟩
      · exact absurd rfl hnil
      · exact absurd rfl (hone t)
      · simp
    refine ⟨⟨orderly_sum.mpr ⟨(hnormal hlen).nearly, fun t ht => (hall t ht).1⟩,
      Expr.trimmed_of_recurrence? rfl⟩, fun us heq => ?_⟩
    exact Expr.sum.inj heq ▸ hnormal hlen

theorem AddsTo.neat (he : S.AddsTo add ts e) : S.Neat e := by
  cases he with
  | plain hothers => exact (neat_sumOf hothers).1
  | deepest hr hl hops hkept =>
    have hfirst := neat_recurrenceOf hl (List.cons_ne_nil _ _) hops
    rw [sumOf_cons]
    split
    · exact hfirst
    · next hne =>
      have hlen := List.length_pos_iff.mpr hne
      refine ⟨orderly_sum.mpr ⟨⟨Nat.succ_le_succ hlen, ?_, hkept.separate⟩,
        List.forall_mem_cons.mpr ⟨hfirst.orderly, hkept.orderly⟩⟩, Expr.trimmed_of_recurrence? rfl⟩
      rw [List.countP_cons, hkept.constants]
      split <;> simp

/-- A sum is in normal form if its deepest recurrence has a step left. -/
theorem AddsTo.normalSum {us : List Expr} (he : S.AddsTo add ts (.sum us))
    (hstep : ∀ r, S.deepest? add ts = some r → Expr.dropZeros r.operands.tail ≠ []) :
    NormalSum us := by
  generalize hsum : Expr.sum us = e at he
  cases he with
  | plain hothers => exact (neat_sumOf hothers).2 us hsum.symm
  | @deepest r start kept hr hl hops hkept =>
    obtain ⟨o, os, hdrop⟩ := List.exists_cons_of_ne_nil (hstep r hr)
    have hfirst : Expr.recurrenceOf r.header (start :: r.operands.tail) =
        .recurrence r.header (start :: o :: os) := by
      rw [Expr.recurrenceOf, hdrop]
    rw [hfirst, sumOf_cons] at hsum
    split at hsum
    · cases hsum
    · next hne =>
      obtain rfl := Expr.sum.inj hsum
      obtain ⟨hflat, hnonzero, hheaders⟩ := hkept.separate
      refine ⟨Nat.succ_le_succ (List.length_pos_iff.mpr hne), ?_,
        List.forall_mem_cons.mpr ⟨rfl, hflat⟩, ?_, List.nodup_cons.mpr ⟨hkept.header, hheaders⟩⟩
      · rw [List.countP_cons, hkept.constants]
        simp [Expr.isConstant, Expr.constant?]
      · rintro (_ | ⟨_, hz⟩)
        exact hnonzero hz

theorem tidies_add : S.Tidies S.add := fun _ hts =>
  add_induct (P := S.Orderly) neat_const (fun _ hadd _ hts => (Tidies.addsTo hadd hts).neat) hts

theorem neat_add (hts : ∀ t ∈ ts, S.Orderly t) : S.Neat (S.add ts) := tidies_add ts hts

theorem normalSum_of_add {us : List Expr} (hts : ∀ t ∈ ts, S.Orderly t) (he : S.add ts = .sum us)
    (hstep : ∀ r, S.deepest? S.add ts = some r → Expr.dropZeros r.operands.tail ≠ []) :
    NormalSum us := by
  rw [add_eq_addWith] at he
  exact AddsTo.normalSum (he ▸ Tidies.addsTo tidies_add hts) hstep

/-! ### Multiplication -/

theorem isProduct_of_mem_factors (he : S.Orderly e) (ht : t ∈ e.factors) : t.isProduct = false := by
  cases e with
  | product fs => exact (orderly_product.mp he).1.1.flat t ht
  | const | unknown | sum | recurrence => exact List.mem_singleton.mp ht ▸ rfl

theorem Neat.of_mem_factors (he : S.Neat e) (ht : t ∈ e.factors) : S.Neat t := by
  cases e with
  | product fs =>
    obtain ⟨⟨-, htrimmed⟩, hfs⟩ := orderly_product.mp he.orderly
    exact ⟨hfs t ht, htrimmed t ht⟩
  | const | unknown | sum | recurrence => exact List.mem_singleton.mp ht ▸ he

/-- An expression that is not a constant has a factor that is none. -/
theorem exists_factor (he : S.Orderly e) (hc : e.isConstant = false) :
    ∃ t ∈ e.factors, t.isConstant = false := by
  cases e with
  | product fs =>
    obtain ⟨⟨⟨htwo, hconst, -, -⟩, -⟩, -⟩ := orderly_product.mp he
    by_contra hnone
    have hall : fs.countP Expr.isConstant = fs.length := by
      refine List.countP_eq_length.mpr fun t ht => ?_
      by_contra ht'
      exact hnone ⟨t, ht, by simpa using ht'⟩
    omega
  | const c => cases hc
  | unknown | sum | recurrence => exact ⟨_, List.mem_cons_self, rfl⟩

/-- A product of a constant in front and factors that are none. -/
theorem normalProduct_of_constants (hc : c ≠ 0) (hfs : ∀ t ∈ fs, t.isProduct = false)
    (hlen : 2 ≤ ((if c = 1 then [] else [Expr.const c]) ++ fs.filter fun f => !f.isConstant).length) :
    NormalProduct ((if c = 1 then [] else [Expr.const c]) ++ fs.filter fun f => !f.isConstant) := by
  have hvary : ∀ t ∈ fs.filter fun f => !f.isConstant, ¬ t.isConstant = true := fun t ht => by
    simpa using (List.mem_filter.mp ht).2
  refine ⟨hlen, ?_, fun t ht => ?_, fun d hd => ?_⟩
  · rw [List.countP_append, List.countP_eq_zero.mpr hvary]
    split <;> simp [Expr.isConstant, Expr.constant?]
  · rcases List.mem_append.mp ht with ht | ht
    · split at ht
      · cases ht
      · exact List.mem_singleton.mp ht ▸ rfl
    · exact hfs t (List.mem_filter.mp ht).1
  · rcases List.mem_append.mp hd with hd | hd
    · split at hd
      · cases hd
      · next hone => exact Expr.const.inj (List.mem_singleton.mp hd) ▸ ⟨hc, hone⟩
    · exact absurd rfl (hvary _ hd)

theorem neat_productOf (hfs : ∀ t ∈ fs, S.Neat t ∧ t.isProduct = false)
    (hvary : ∃ t ∈ fs, t.isConstant = false) : S.Neat (Expr.productOf fs) := by
  rw [Expr.productOf]
  generalize (fs.filterMap Expr.constant?).foldl (· * ·) 1 = c
  by_cases hc : c = 0
  · rw [if_pos hc]
    exact neat_const
  have hnormal := normalProduct_of_constants hc fun t ht => (hfs t ht).2
  have hall : ∀ t ∈ (if c = 1 then [] else [Expr.const c]) ++ fs.filter fun f => !f.isConstant,
      S.Neat t := by
    intro t ht
    rcases List.mem_append.mp ht with ht | ht
    · split at ht
      · cases ht
      · exact List.mem_singleton.mp ht ▸ neat_const
    · exact (hfs t (List.mem_filter.mp ht).1).1
  have hne : (if c = 1 then [] else [Expr.const c]) ++ (fs.filter fun f => !f.isConstant) ≠ [] := by
    obtain ⟨t, ht, hconst⟩ := hvary
    exact List.append_ne_nil_of_right_ne_nil _
      (List.ne_nil_of_mem (List.mem_filter.mpr ⟨ht, by simp [hconst]⟩))
  rw [if_neg hc]
  generalize (if c = 1 then [] else [Expr.const c]) ++ (fs.filter fun f => !f.isConstant) = all at *
  split
  · next t => exact hall t List.mem_cons_self
  · next hone =>
    have hlen : 2 ≤ all.length := by
      rcases all with _ | ⟨t, _ | ⟨u, us⟩⟩
      · exact absurd rfl hne
      · exact absurd rfl (hone t)
      · simp
    exact ⟨orderly_product.mpr ⟨⟨hnormal hlen, fun t ht => (hall t ht).trimmed⟩,
      fun t ht => (hall t ht).orderly⟩, Expr.trimmed_of_recurrence? rfl⟩

/-- The factors of two expressions together, which are not both constants. -/
theorem neat_productOf_factors (ht : S.Neat t) (hu : S.Neat u)
    (hvary : t.isConstant = false ∨ u.isConstant = false) :
    S.Neat (Expr.productOf (t.factors ++ u.factors)) := by
  refine neat_productOf (fun s hs => ?_) ?_
  · rcases List.mem_append.mp hs with hs | hs
    · exact ⟨ht.of_mem_factors hs, isProduct_of_mem_factors ht.orderly hs⟩
    · exact ⟨hu.of_mem_factors hs, isProduct_of_mem_factors hu.orderly hs⟩
  · rcases hvary with hconst | hconst
    · obtain ⟨s, hs, hvary⟩ := exists_factor ht.orderly hconst
      exact ⟨s, List.mem_append_left _ hs, hvary⟩
    · obtain ⟨s, hs, hvary⟩ := exists_factor hu.orderly hconst
      exact ⟨s, List.mem_append_right _ hs, hvary⟩

theorem neat_product_recurrences {h h' : BlockId} {as bs : List Expr}
    (hr : S.Neat (.recurrence h as)) (hr' : S.Neat (.recurrence h' bs)) :
    S.Neat (.product [.recurrence h as, .recurrence h' bs]) := by
  have hnormal : Expr.NormalProduct [.recurrence h as, .recurrence h' bs] :=
    ⟨by simp, by simp [Expr.isConstant, Expr.constant?], forall_mem_pair.mpr ⟨rfl, rfl⟩, by simp⟩
  exact ⟨orderly_product.mpr ⟨⟨hnormal, forall_mem_pair.mpr ⟨hr.trimmed, hr'.trimmed⟩⟩,
    forall_mem_pair.mpr ⟨hr.orderly, hr'.orderly⟩⟩, Expr.trimmed_of_recurrence? rfl⟩

theorem neat_scale (he : S.Neat e) : S.Neat (S.scale c e) := by
  have hfactors : ∀ {e : Expr}, S.Neat e → e.isConstant = false → S.Neat (if c = 0 then .zero
      else if c = 1 then e else Expr.productOf (.const c :: e.factors)) := by
    intro e he hconst
    split
    · exact neat_const
    split
    · exact he
    · exact neat_productOf_factors (t := .const c) neat_const he (.inr hconst)
  induction e using Expr.byParts with
  | const d =>
    rw [Scope.scale]
    exact neat_const
  | unknown v => exact hfactors he rfl
  | sum ts => exact hfactors he rfl
  | product ts => exact hfactors he rfl
  | recurrence k ops ih =>
    obtain ⟨⟨hl, -⟩, -⟩ := orderly_recurrence.mp he.orderly
    rw [Scope.scale, scaleAll_eq_map]
    split
    · exact neat_const
    split
    · exact he
    split
    · exact neat_recurrenceOf hl (mt List.map_eq_nil_iff.mp he.orderly.operands_ne_nil)
        (List.forall_mem_map.mpr fun o ho => ih o ho (neat_of_operand he.orderly ho))
    · next hnone =>
      obtain ⟨l, hl⟩ := hl
      exact absurd (by rw [hl]; rfl) hnone

theorem neat_mul (ht : S.Neat t) (hu : S.Neat u) : S.Neat (S.mul t u) := by
  -- a factor that the loop leaves alone goes into the operands
  have spread : ∀ {h ops e}, S.Neat (.recurrence h ops) → S.Neat e →
      (∀ o ∈ ops, S.Neat o → S.Neat e → S.Neat (S.mul o e)) →
      S.Neat (Expr.recurrenceOf h (ops.map fun o => S.mul o e)) := by
    intro h ops e hr he ih
    exact neat_recurrenceOf (orderly_recurrence.mp hr.orderly).1.1
      (mt List.map_eq_nil_iff.mp hr.orderly.operands_ne_nil)
      (List.forall_mem_map.mpr fun o ho => ih o ho (neat_of_operand hr.orderly ho) he)
  have nonconstant : ∀ {e : Expr}, (∀ c, e = .const c → False) → e.isConstant = false := by
    intro e he
    cases e with
    | const c => exact (he c rfl).elim
    | unknown | sum | product | recurrence => rfl
  fun_induction S.mul t u with
  | case1 c e => exact neat_scale hu
  | case2 e c => exact neat_scale ht
  | case3 h a b c d square ihbd ihac ihad ihbc =>
    obtain ⟨ha, hb⟩ := forall_mem_pair.mp fun o ho => neat_of_operand ht.orderly ho
    obtain ⟨hc, hd⟩ := forall_mem_pair.mp fun o ho => neat_of_operand hu.orderly ho
    have hsquare : S.Neat square := ihbd hb hd
    have hstep : S.Neat (S.add [S.mul a d, S.mul b c, square]) :=
      neat_add (List.forall_mem_cons.mpr ⟨(ihad ha hd).orderly,
        forall_mem_pair.mpr ⟨(ihbc hb hc).orderly, hsquare.orderly⟩⟩)
    exact neat_recurrenceOf (orderly_recurrence.mp ht.orderly).1.1 (List.cons_ne_nil _ _)
      (List.forall_mem_cons.mpr ⟨ihac ha hc, forall_mem_pair.mpr ⟨hstep, neat_scale hsquare⟩⟩)
  | case4 h as bs => exact neat_product_recurrences ht hu
  | case5 h as h' bs hne hd ih => exact spread ht hu ih
  | case6 h as h' bs hne hn hd ih => exact spread hu ht ih
  | case7 h as h' bs => exact neat_product_recurrences ht hu
  | case8 h as e hc hr hd ih => exact spread ht hu ih
  | case9 h as e hc hr hd => exact neat_productOf_factors ht hu (.inl rfl)
  | case10 e h bs hc hr hd ih => exact spread hu ht ih
  | case11 e h bs hc hr hd => exact neat_productOf_factors ht hu (.inr rfl)
  | case12 t u hc => exact neat_productOf_factors ht hu (.inl (nonconstant hc))

end Scope
end LoopStride
