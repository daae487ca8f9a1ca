import Mathlib.Data.Prod.Lex
import LoopStride.Proofs.Expr.Depth
import LoopStride.Proofs.Expr.Meaning

/-! Recursions that end, and that sums and products of symbolic values are among them. A sum inside a
sum holds fewer recurrences than the whole. A product inside a product is smaller, or one of its
factors is constant and the others were not: a square that is doubled may be larger than the factors
it comes of. -/
namespace LoopStride

section
variable {α β : Type} {level : (α → β) → α → β} {result : α → β} {P : α → Prop} {r : α → α → Prop}
  {a : α} {b b' : β}

/-- A recursion is given by one of its levels, which finds its result from what `below` gives for the
calls it makes. It leads from `a` to a result if it looks at no calls but such as lead to a result. -/
inductive Ends (level : (α → β) → α → β) : α → β → Prop where
  | intro {a : α} {below : α → β} {calls : α → Prop}
    (hcalls : ∀ c, calls c → Ends level c (below c))
    (hlevel : ∀ other : α → β, (∀ c, calls c → other c = below c) → level other a = level below a) :
    Ends level a (level below a)

theorem Ends.unique (h : Ends level a b) (h' : Ends level a b') : b = b' := by
  induction h generalizing b' with
  | @intro a below calls _ hlevel ih =>
    cases h' with
    | @intro _ below' calls' hcalls' hlevel' =>
      classical
      -- answers to the calls of both
      let other : α → β := fun c => if calls c then below c else below' c
      have hleft : ∀ c, calls c → other c = below c := fun c hc => if_pos hc
      have hright : ∀ c, calls' c → other c = below' c := by
        intro c hc'
        by_cases hc : calls c
        · exact (if_pos hc).trans (ih c hc (hcalls' c hc'))
        · exact if_neg hc
      exact (hlevel other hleft).symm.trans (hlevel' other hright)

/-- A function that satisfies the recursion is what it leads to, if the calls go down. -/
theorem ends_iff (hr : WellFounded r) (hresult : ∀ a, P a → level result a = result a)
    (hlevel : ∀ a other, P a → (∀ c, P c → r c a → other c = result c) →
      level other a = level result a) (ha : P a) : Ends level a b ↔ b = result a := by
  have hends : ∀ a, P a → Ends level a (result a) := by
    intro a
    induction a using hr.induction with
    | _ a ih =>
      intro ha
      have hcalls : ∀ c, P c ∧ r c a → Ends level c (result c) := fun c hc => ih c hc.2 hc.1
      rw [← hresult a ha]
      exact .intro hcalls fun other h => hlevel a other ha fun c hc hr => h c ⟨hc, hr⟩
  constructor
  · exact fun h => h.unique (hends a ha)
  · rintro rfl
    exact hends a ha

end

open LoopStride.Expr (recurrencesAll)

namespace Scope
variable {S : Scope} {ts as bs : List Expr} {e t u : Expr} {c : Int64} {h : BlockId}
  {inner inner' : Expr × Expr → Expr} {p : Expr × Expr}

/-- Each sum that arises inside one has fewer recurrences to add up. -/
theorem ends_add_iff : Ends S.addWith ts e ↔ e = S.add ts := by
  refine ends_iff (P := fun _ => True) (measure recurrencesAll).wf
    (fun ts _ => (S.add_eq_addWith ts).symm) (fun ts other _ hother => ?_) trivial
  have hagree : Agree (recurrencesAll ts) S.add other :=
    ⟨fun hlt => (hother _ trivial hlt).symm, fun _ => S.recurrences_add_le _⟩
  exact (hagree.addWith.eq (Nat.lt_succ_self _)).symm

/-! ### Products -/

/-- A recurrence times a factor, operand by operand. -/
def scaleWith (mul : Expr × Expr → Expr) (h : BlockId) (ops : List Expr) (e : Expr) : Expr :=
  Expr.recurrenceOf h (ops.map fun o => mul (o, e))

/-- The product of two recurrences of one loop, the square of their steps doubled by a product
too. -/
def mulSameLoopWith (S : Scope) (mul : Expr × Expr → Expr) (h : BlockId) :
    List Expr → List Expr → Expr
  | [a, b], [c, d] =>
    let square := mul (b, d)
    Expr.recurrenceOf h
      [mul (a, c), S.add [mul (a, d), mul (b, c), square], mul (.const 2, square)]
  | as, bs => .product [.recurrence h as, .recurrence h bs]

/-- The product of two factors of which neither is zero or one. -/
def mulProperWith (S : Scope) (mul : Expr × Expr → Expr) : Expr → Expr → Expr
  | .recurrence h as, .recurrence h' bs =>
    if h = h' then S.mulSameLoopWith mul h as bs
    else if S.distributes h (.recurrence h' bs) then scaleWith mul h as (.recurrence h' bs)
    else if S.distributes h' (.recurrence h as) then scaleWith mul h' bs (.recurrence h as)
    else Expr.productOf [.recurrence h as, .recurrence h' bs]
  | .recurrence h as, e =>
    if S.distributes h e then scaleWith mul h as e
    else Expr.productOf (.recurrence h as :: e.factors)
  | e, .recurrence h bs =>
    if S.distributes h e then scaleWith mul h bs e
    else Expr.productOf (e.factors ++ [.recurrence h bs])
  | t, u => Expr.productOf (t.factors ++ u.factors)

/-- A product, where `mul` stands for all products that arise inside, those by a constant included. -/
def mulWith (S : Scope) (mul : Expr × Expr → Expr) : Expr × Expr → Expr
  | (.const a, .const b) => .const (a * b)
  | (t, u) =>
    if t = .zero ∨ u = .zero then .zero
    else if t = .const 1 then u
    else if u = .const 1 then t
    else S.mulProperWith mul t u

theorem distributes_const : S.distributes h (.const c) = (S.forest.ofHeader? h).isSome := by
  rw [distributes]
  cases S.forest.ofHeader? h <;> rfl

theorem mul_const (e : Expr) (c : Int64) : S.mul e (.const c) = S.scale c e := by
  cases e with
  | const d => rw [mul, scale, scale, Int64.mul_comm]
  | unknown | sum | product | recurrence => rw [mul]; simp

theorem productOf_concat_const (fs : List Expr) (c : Int64) :
    Expr.productOf (fs ++ [Expr.const c]) = Expr.productOf (.const c :: fs) := by
  have hconstant : ((fs ++ [Expr.const c]).filterMap Expr.constant?).foldl (· * ·) 1 =
      ((Expr.const c :: fs).filterMap Expr.constant?).foldl (· * ·) 1 := by
    simp only [List.filterMap_append, List.filterMap_cons, List.filterMap_nil, Expr.constant?,
      List.foldl_append, List.foldl_cons, List.foldl_nil, Expr.foldl_mul_eq]
    grind
  have hothers : (fs ++ [Expr.const c]).filter (fun f => !f.isConstant) =
      (Expr.const c :: fs).filter fun f => !f.isConstant := by
    simp [Expr.isConstant, Expr.constant?]
  rw [Expr.productOf, hconstant, hothers, ← Expr.productOf]

theorem scaleWith_const (h : BlockId) (ops : List Expr) (c : Int64) :
    scaleWith (fun p => S.mul p.1 p.2) h ops (.const c) =
      Expr.recurrenceOf h (S.scaleAll c ops) := by
  rw [scaleWith, scaleAll_eq_map]
  simp only [mul_const]

theorem mulWith_const_left (S : Scope) (c : Int64) (e : Expr) :
    S.mulWith (fun p => S.mul p.1 p.2) (.const c, e) = S.scale c e := by
  cases e with
  | const d => rw [mulWith, scale]
  | recurrence h ops =>
    rw [mulWith, mulProperWith, distributes_const, scaleWith_const, scale] <;>
      simp [Expr.zero, Expr.factors]
  | unknown | sum | product => rw [mulWith, mulProperWith, scale] <;> simp [Expr.zero, Expr.factors]

theorem mulWith_const_right (S : Scope) (c : Int64) (e : Expr) :
    S.mulWith (fun p => S.mul p.1 p.2) (e, .const c) = S.scale c e := by
  cases e with
  | const d => rw [mulWith, scale, Int64.mul_comm]
  | recurrence h ops =>
    rw [mulWith, mulProperWith, distributes_const, scaleWith_const, scale] <;>
      simp [Expr.zero, Expr.factors, ← productOf_concat_const]
  | unknown | sum | product =>
    rw [mulWith, mulProperWith, scale, ← productOf_concat_const] <;> simp [Expr.zero, Expr.factors]

theorem mulWith_proper (ht : ∀ c, t ≠ .const c) (hu : ∀ c, u ≠ .const c) :
    S.mulWith inner (t, u) = S.mulProperWith inner t u := by
  rw [mulWith]
  · have hzero : ¬(t = Expr.zero ∨ u = Expr.zero) := not_or.mpr ⟨ht 0, hu 0⟩
    rw [if_neg hzero, if_neg (ht 1), if_neg (hu 1)]
  · exact fun a _ ha _ => ht a ha

/-- Multiplication is what its levels make of it. -/
theorem mulWith_mul (S : Scope) (t u : Expr) :
    S.mulWith (fun p => S.mul p.1 p.2) (t, u) = S.mul t u := by
  have hrec : ∀ (h : BlockId) (ops : List Expr) (c : Int64), Expr.recurrence h ops ≠ .const c :=
    fun _ _ _ => Expr.noConfusion
  fun_induction S.mul t u with
  | case1 c e => exact S.mulWith_const_left c e
  | case2 e c => exact S.mulWith_const_right c e
  | case3 h a b c d square =>
    rw [mulWith_proper (hrec _ _) (hrec _ _), mulProperWith, if_pos rfl, mulSameLoopWith]
    dsimp only [square]
    rw [mul]
  | case4 h as bs hn =>
    rw [mulWith_proper (hrec _ _) (hrec _ _), mulProperWith, if_pos rfl, mulSameLoopWith]
    exact hn
  | case5 h as h' bs hne hd =>
    rw [mulWith_proper (hrec _ _) (hrec _ _), mulProperWith, if_neg hne, if_pos hd, scaleWith]
  | case6 h as h' bs hne hn hd =>
    rw [mulWith_proper (hrec _ _) (hrec _ _), mulProperWith, if_neg hne, if_neg hn, if_pos hd,
      scaleWith]
  | case7 h as h' bs hne hn hd =>
    rw [mulWith_proper (hrec _ _) (hrec _ _), mulProperWith, if_neg hne, if_neg hn, if_neg hd]
    rfl
  | case8 h as e hc hr hd =>
    rw [mulWith_proper (hrec _ _) hc, mulProperWith, if_pos hd, scaleWith]
    exact hr
  | case9 h as e hc hr hd =>
    rw [mulWith_proper (hrec _ _) hc, mulProperWith, if_neg hd]
    exact hr
  | case10 e h bs hc hr hd =>
    rw [mulWith_proper hc (hrec _ _), mulProperWith, if_pos hd, scaleWith]
    exact hr
  | case11 e h bs hc hr hd =>
    rw [mulWith_proper hc (hrec _ _), mulProperWith, if_neg hd]
    exact hr
  | case12 t u hct hcu hboth hr hr' =>
    rw [mulWith_proper hct hcu, mulProperWith]
    · exact hr
    · exact hr'
    · exact hboth

theorem scaleWith_congr {ops : List Expr} (hagree : ∀ o ∈ ops, inner (o, e) = inner' (o, e)) :
    scaleWith inner h ops e = scaleWith inner' h ops e := by
  rw [scaleWith, scaleWith, List.map_congr_left hagree]

/-- Whether two factors are free of constants, and their size. -/
noncomputable def weight (p : Expr × Expr) : Nat × Nat :=
  (if p.1.isConstant || p.2.isConstant then 0 else 1, sizeOf p.1 + sizeOf p.2)

/-- A product by a constant is lighter than one without, and a smaller one is lighter that has no
fewer constants. -/
def Lighter (p q : Expr × Expr) : Prop := Prod.Lex (· < ·) (· < ·) (weight p) (weight q)

theorem lighter_wf : WellFounded Lighter :=
  InvImage.wf weight (Prod.lex Nat.lt_wfRel Nat.lt_wfRel).wf

theorem lighter_of_lt {q : Expr × Expr}
    (hkind : q.1.isConstant || q.2.isConstant → p.1.isConstant || p.2.isConstant)
    (hsize : sizeOf p.1 + sizeOf p.2 < sizeOf q.1 + sizeOf q.2) : Lighter p q := by
  have hle : (weight p).1 ≤ (weight q).1 := by
    by_cases hq : q.1.isConstant || q.2.isConstant
    · simp only [weight, if_pos hq, if_pos (hkind hq), Nat.le_refl]
    · simp only [weight, if_neg hq]
      split <;> omega
  rcases Nat.lt_or_eq_of_le hle with hlt | heq
  · exact Prod.lex_def.mpr (.inl hlt)
  · exact Prod.lex_def.mpr (.inr ⟨heq, hsize⟩)

theorem sizeOf_lt_recurrence {o : Expr} {ops : List Expr} (ho : o ∈ ops) (h : BlockId) :
    sizeOf o < sizeOf (Expr.recurrence h ops) := by
  have := List.sizeOf_lt_of_mem ho
  rw [Expr.recurrence.sizeOf_spec]
  omega

theorem isConstant_recurrence (h : BlockId) (ops : List Expr) :
    (Expr.recurrence h ops).isConstant = false := rfl

theorem lighter_left {o : Expr} {ops : List Expr} (ho : o ∈ ops) :
    Lighter (o, e) (.recurrence h ops, e) :=
  lighter_of_lt (by simp +contextual [isConstant_recurrence])
    (Nat.add_lt_add_right (sizeOf_lt_recurrence ho h) _)

theorem lighter_right {o : Expr} {ops : List Expr} (ho : o ∈ ops) :
    Lighter (o, e) (e, .recurrence h ops) := by
  have hsize := sizeOf_lt_recurrence ho h
  exact lighter_of_lt (by simp +contextual [isConstant_recurrence]) (by dsimp only; omega)

theorem lighter_both {a b : Expr} {h' : BlockId} (ha : a ∈ as) (hb : b ∈ bs) :
    Lighter (a, b) (.recurrence h as, .recurrence h' bs) :=
  lighter_of_lt (by simp [isConstant_recurrence])
    (Nat.add_lt_add (sizeOf_lt_recurrence ha h) (sizeOf_lt_recurrence hb h'))

theorem lighter_const {h' : BlockId} :
    Lighter (.const c, e) (.recurrence h as, .recurrence h' bs) :=
  Prod.lex_def.mpr (.inl (by simp [weight, Expr.isConstant, Expr.constant?]))

theorem mulSameLoopWith_congr (hagree : ∀ a ∈ as, ∀ b ∈ bs, inner (a, b) = inner' (a, b))
    (hconst : ∀ c e, inner (.const c, e) = inner' (.const c, e)) :
    S.mulSameLoopWith inner h as bs = S.mulSameLoopWith inner' h as bs := by
  rw [mulSameLoopWith.eq_def, mulSameLoopWith.eq_def]
  split
  · next a b c d =>
    dsimp only
    rw [hagree a (by simp) c (by simp), hagree a (by simp) d (by simp),
      hagree b (by simp) c (by simp), hagree b (by simp) d (by simp), hconst]
  · rfl

theorem mulProperWith_congr (hagree : ∀ q, Lighter q (t, u) → inner q = inner' q) :
    S.mulProperWith inner t u = S.mulProperWith inner' t u := by
  rw [mulProperWith.eq_def, mulProperWith.eq_def]
  split
  · rw [mulSameLoopWith_congr (fun a ha b hb => hagree _ (lighter_both ha hb))
        (fun c e => hagree _ lighter_const),
      scaleWith_congr fun o ho => hagree _ (lighter_left ho),
      scaleWith_congr fun o ho => hagree _ (lighter_right ho)]
  · rw [scaleWith_congr fun o ho => hagree _ (lighter_left ho)]
  · rw [scaleWith_congr fun o ho => hagree _ (lighter_right ho)]
  · rfl

theorem mulWith_congr (hagree : ∀ q, Lighter q p → inner q = inner' q) :
    S.mulWith inner p = S.mulWith inner' p := by
  rw [mulWith.eq_def, mulWith.eq_def]
  split
  · rfl
  · rw [mulProperWith_congr hagree]

/-- Multiplication ends, whatever the products inside are, the doubling of a square included. -/
theorem ends_mul_iff : Ends S.mulWith (t, u) e ↔ e = S.mul t u :=
  ends_iff (P := fun _ => True) lighter_wf (fun p _ => S.mulWith_mul p.1 p.2)
    (fun _ _ _ hother => mulWith_congr fun q hq => hother q trivial hq) trivial

end Scope
end LoopStride
