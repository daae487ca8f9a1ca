import LoopStride.Proofs.Expr.Form

/-! The text of an expression can be read in one way only. Whatever comes behind it, as long as that
is no digit, a text leaves off at one place and is that of one expression. -/
namespace LoopStride

/-! ### Numbers and names -/

/-- A number that ends here is at its end. -/
def Stops (r : List Char) : Prop := ∀ c ∈ r.head?, c.isDigit = false

section
variable {r s : List Char} {m n : Nat} {i j : Int} {v w : Value} {c : Char}

theorem stops_cons (h : c.isDigit = false) : Stops (c :: r) := by
  intro d hd
  obtain rfl : c = d := by simpa using hd
  exact h

theorem isDigit_of_mem_digits (h : c ∈ Nat.toDigits 10 n) : c.isDigit = true :=
  Nat.isDigit_of_mem_toDigits (by decide) (by decide) h

theorem takeWhile_digits (hr : Stops r) :
    (Nat.toDigits 10 n ++ r).takeWhile Char.isDigit = Nat.toDigits 10 n := by
  rw [List.takeWhile_append_of_pos fun c => isDigit_of_mem_digits]
  cases r with
  | nil => simp
  | cons c r => simp [hr c rfl]

theorem digits_append_inj (hr : Stops r) (hs : Stops s)
    (h : Nat.toDigits 10 m ++ r = Nat.toDigits 10 n ++ s) : m = n ∧ r = s := by
  have hdigits : Nat.toDigits 10 m = Nat.toDigits 10 n := by
    rw [← takeWhile_digits hr, h, takeWhile_digits hs]
  refine ⟨?_, List.append_cancel_left (hdigits ▸ h)⟩
  rw [← Nat.ofDigitChars_ten_toDigits (n := m), hdigits, Nat.ofDigitChars_ten_toDigits]

theorem digits_append_ne (h : c.isDigit = false) : Nat.toDigits 10 n ++ r ≠ c :: s := by
  cases hn : Nat.toDigits 10 n with
  | nil => exact absurd hn Nat.toDigits_ne_nil
  | cons d ds =>
    intro hcons
    obtain ⟨rfl, -⟩ := List.cons.inj hcons
    rw [isDigit_of_mem_digits (n := n) (hn ▸ List.mem_cons_self)] at h
    cases h

/-- A number is its digits, or a sign and the digits of the number without it. -/
theorem toList_toString_int (i : Int) : (toString i).toList =
    if 0 ≤ i then Nat.toDigits 10 i.toNat else '-' :: Nat.toDigits 10 (-i).toNat := by
  rw [Int.toString_eq_repr, Int.repr_eq_if]
  split <;> simp

theorem number_append_inj (hr : Stops r) (hs : Stops s)
    (h : (toString i).toList ++ r = (toString j).toList ++ s) : i = j ∧ r = s := by
  have hsign : '-'.isDigit = false := by decide
  rw [toList_toString_int, toList_toString_int] at h
  by_cases hi : 0 ≤ i <;> by_cases hj : 0 ≤ j
  · rw [if_pos hi, if_pos hj] at h
    obtain ⟨hij, hrs⟩ := digits_append_inj hr hs h
    exact ⟨by omega, hrs⟩
  · rw [if_pos hi, if_neg hj] at h
    exact absurd h (digits_append_ne hsign)
  · rw [if_neg hi, if_pos hj] at h
    exact absurd h.symm (digits_append_ne hsign)
  · rw [if_neg hi, if_neg hj] at h
    obtain ⟨hij, hrs⟩ := digits_append_inj hr hs (List.cons.inj h).2
    exact ⟨by omega, hrs⟩

/-- A value that does not read as a number. -/
def Value.IsName (v : Value) : Prop := ∀ n bits, v ≠ .literal (.int n bits)

theorem Value.IsName.cases (h : v.IsName) :
    (∃ id, v = .result id) ∨ (∃ id, v = .param id) ∨ v = .null := by
  cases v with
  | result id => exact .inl ⟨id, rfl⟩
  | param id => exact .inr (.inl ⟨id, rfl⟩)
  | literal l =>
    cases l with
    | int n bits => exact absurd rfl (h n bits)
    | null => exact .inr (.inr rfl)

theorem Value.render_append_inj (hv : v.IsName) (hw : w.IsName) (hr : Stops r) (hs : Stops s)
    (h : v.render.toList ++ r = w.render.toList ++ s) : v = w ∧ r = s := by
  have hletter : 'a'.isDigit = false := by decide
  -- the first two characters tell results, parameters and the null address apart
  rcases hv.cases with ⟨id, rfl⟩ | ⟨id, rfl⟩ | rfl <;>
    rcases hw.cases with ⟨id', rfl⟩ | ⟨id', rfl⟩ | rfl <;>
    simp [Value.render, renderInst, renderParam, Value.null, Literal.render] at h
  · obtain ⟨rfl, hrs⟩ := digits_append_inj hr hs h
    exact ⟨rfl, hrs⟩
  · exact absurd h (digits_append_ne hletter)
  · exact absurd h.symm (digits_append_ne hletter)
  · obtain ⟨rfl, hrs⟩ := digits_append_inj hr hs h
    exact ⟨rfl, hrs⟩
  · exact ⟨rfl, h⟩

end

namespace Expr

/-- The text shows what stands at the top: brackets have a sign between them, and what is written as a
number is a constant. -/
def Clear : Expr → Prop
  | sum ts | product ts => 2 ≤ ts.length
  | unknown v => v.IsName
  | const _ | recurrence _ _ => True

/-- Clear at any depth. -/
def Legible (e : Expr) : Prop := ∀ p ∈ e.parts, p.Clear

variable {e a b : Expr} {ts us : List Expr} {v : Value} {h : BlockId} {r s : List Char}

theorem forall_mem_partsAll_iff :
    (∀ p ∈ partsAll ts, p.Clear) ↔ ∀ t ∈ ts, t.Legible := by
  simp only [mem_partsAll_iff, Legible]
  exact ⟨fun H t ht p hp => H p ⟨t, ht, hp⟩, fun H p ⟨t, ht, hp⟩ => H t ht p hp⟩

theorem legible_const (c : Int64) : (const c).Legible := by simp [Legible, parts, Clear]

theorem legible_unknown : (unknown v).Legible ↔ v.IsName := by simp [Legible, parts, Clear]

theorem legible_sum : (sum ts).Legible ↔ 2 ≤ ts.length ∧ ∀ t ∈ ts, t.Legible := by
  rw [Legible, parts, List.forall_mem_cons, forall_mem_partsAll_iff, Clear]

theorem legible_product : (product ts).Legible ↔ 2 ≤ ts.length ∧ ∀ t ∈ ts, t.Legible := by
  rw [Legible, parts, List.forall_mem_cons, forall_mem_partsAll_iff, Clear]

theorem legible_recurrence : (recurrence h ts).Legible ↔ ∀ t ∈ ts, t.Legible := by
  rw [Legible, parts, List.forall_mem_cons, forall_mem_partsAll_iff, Clear, true_and]

/-! ### First characters -/

def text (e : Expr) : List Char := e.render.toList

theorem text_const (c : Int64) : (const c).text = (toString c.toInt).toList := by rw [text, render]

theorem text_unknown (v : Value) : (unknown v).text = v.render.toList := by rw [text, render]

/-- What the first character of a text announces. -/
inductive Lead where
  | number | name | bracket | brace

def lead? (c : Char) : Option Lead :=
  if c.isDigit = true ∨ c = '-' then some .number
  else if c = '%' ∨ c = 'n' then some .name
  else if c = '(' then some .bracket
  else if c = '\x7b' then some .brace
  else none

def lead : Expr → Lead
  | const _ => .number
  | unknown _ => .name
  | sum _ | product _ => .bracket
  | recurrence _ _ => .brace

/-! ### Lists -/

/-- How a list is written: with a sign before each term but the first and a mark at its end. The mark
is told from a sign, and from a term, by its first character. -/
structure Style where
  first : Char
  rest : List Char
  close : Char
  first_stops : first.isDigit = false
  close_stops : close.isDigit = false
  first_ne_close : first ≠ close
  close_leads : lead? close = none

namespace Style

def sums : Style := ⟨' ', ['+', ' '], ')', rfl, rfl, by decide, rfl⟩

def products : Style := ⟨' ', ['*', ' '], ')', rfl, rfl, by decide, rfl⟩

def operands : Style := ⟨',', ['+', ','], '\x7d', rfl, rfl, by decide, rfl⟩

variable (p : Style)

def tail : List Expr → List Char
  | [] => [p.close]
  | t :: ts => p.first :: (p.rest ++ (t.text ++ tail ts))

def list : List Expr → List Char
  | [] => [p.close]
  | t :: ts => t.text ++ p.tail ts

theorem list_eq_intercalate (ts : List Expr) : p.list ts =
    (p.first :: p.rest).intercalate ((renderAll ts).map String.toList) ++ [p.close] := by
  rw [renderAll_eq_map, List.map_map]
  cases ts with
  | nil => rfl
  | cons t ts =>
    induction ts generalizing t with
    | nil => simp [list, tail, text]
    | cons u us ih =>
      have hu := ih u
      rw [list] at hu
      rw [list, tail, hu, List.map_cons, List.map_cons, List.map_cons, List.intercalate_cons_cons]
      simp [text]

theorem stops_tail : Stops (p.tail ts ++ r) := by
  cases ts with
  | nil => exact stops_cons p.close_stops
  | cons t ts => exact stops_cons p.first_stops

end Style

theorem text_sum (ts : List Expr) : (sum ts).text = '(' :: Style.sums.list ts := by
  simp [text, render, Style.list_eq_intercalate, Style.sums]

theorem text_product (ts : List Expr) : (product ts).text = '(' :: Style.products.list ts := by
  simp [text, render, Style.list_eq_intercalate, Style.products]

theorem text_recurrence (h : BlockId) (ts : List Expr) : (recurrence h ts).text =
    '\x7b' :: (Style.operands.list ts ++
      '<' :: '%' :: 'b' :: 'b' :: (Nat.toDigits 10 h ++ ['>'])) := by
  simp [text, render, Style.list_eq_intercalate, Style.operands, renderBlock]

/-! ### Reading -/

theorem exists_text_eq_cons (he : e.Legible) :
    ∃ c cs, e.text = c :: cs ∧ lead? c = some e.lead := by
  cases e with
  | const n =>
    rw [text_const, toList_toString_int]
    split
    · cases hd : Nat.toDigits 10 n.toInt.toNat with
      | nil => exact absurd hd Nat.toDigits_ne_nil
      | cons d ds =>
        exact ⟨d, ds, rfl, if_pos (.inl (isDigit_of_mem_digits (hd ▸ List.mem_cons_self)))⟩
    · exact ⟨_, _, rfl, rfl⟩
  | unknown v =>
    rw [text_unknown]
    rcases (legible_unknown.mp he).cases with ⟨id, rfl⟩ | ⟨id, rfl⟩ | rfl
    · exact ⟨'%', Nat.toDigits 10 id, by simp [Value.render, renderInst], rfl⟩
    · exact ⟨'%', 'a' :: 'r' :: 'g' :: Nat.toDigits 10 id, by simp [Value.render, renderParam], rfl⟩
    · exact ⟨'n', ['u', 'l', 'l'], rfl, rfl⟩
  | sum ts => exact ⟨_, _, text_sum ts, rfl⟩
  | product ts => exact ⟨_, _, text_product ts, rfl⟩
  | recurrence h ts => exact ⟨_, _, text_recurrence h ts, rfl⟩

/-- Texts that agree are of the same kind. -/
theorem lead_eq (ha : a.Legible) (hb : b.Legible) (h : a.text ++ r = b.text ++ s) :
    a.lead = b.lead := by
  obtain ⟨c, cs, hc, hlead⟩ := exists_text_eq_cons ha
  obtain ⟨d, ds, hd, hlead'⟩ := exists_text_eq_cons hb
  rw [hc, hd] at h
  obtain ⟨rfl, -⟩ := List.cons.inj h
  exact Option.some.inj (hlead.symm.trans hlead')

/-- No other expression has a text that starts as this one does, and it ends at one place. -/
def ReadOff (a : Expr) : Prop := ∀ b r s, b.Legible → Stops r → Stops s →
  a.text ++ r = b.text ++ s → a = b ∧ r = s

namespace Style
variable {p : Style}

theorem close_ne_text (he : e.Legible) : p.close :: r ≠ e.text ++ s := by
  obtain ⟨c, cs, hc, hlead⟩ := exists_text_eq_cons he
  rw [hc]
  intro h
  obtain ⟨rfl, -⟩ := List.cons.inj h
  rw [p.close_leads] at hlead
  cases hlead

theorem tail_append_inj (hts : ∀ t ∈ ts, t.ReadOff) (hus : ∀ u ∈ us, u.Legible)
    (h : p.tail ts ++ r = p.tail us ++ s) : ts = us ∧ r = s := by
  induction ts generalizing us with
  | nil =>
    cases us with
    | nil => exact ⟨rfl, (List.cons.inj h).2⟩
    | cons u us => exact absurd (List.cons.inj h).1.symm p.first_ne_close
  | cons t ts ih =>
    cases us with
    | nil => exact absurd (List.cons.inj h).1 p.first_ne_close
    | cons u us =>
      obtain ⟨ht, hts'⟩ := List.forall_mem_cons.mp hts
      obtain ⟨hu, hus'⟩ := List.forall_mem_cons.mp hus
      simp only [tail, List.cons_append, List.append_assoc] at h
      have hterm := List.append_cancel_left (List.cons.inj h).2
      obtain ⟨rfl, hrest⟩ := ht u _ _ hu p.stops_tail p.stops_tail hterm
      obtain ⟨rfl, hrs⟩ := ih hts' hus' hrest
      exact ⟨rfl, hrs⟩

theorem list_append_inj (hlegible : ∀ t ∈ ts, t.Legible) (hts : ∀ t ∈ ts, t.ReadOff)
    (hus : ∀ u ∈ us, u.Legible) (h : p.list ts ++ r = p.list us ++ s) : ts = us ∧ r = s := by
  cases ts with
  | nil =>
    cases us with
    | nil => exact ⟨rfl, (List.cons.inj h).2⟩
    | cons u us =>
      rw [list, list, List.append_assoc] at h
      exact absurd h (close_ne_text (hus u List.mem_cons_self))
  | cons t ts =>
    cases us with
    | nil =>
      rw [list, list, List.append_assoc] at h
      exact absurd h.symm (close_ne_text (hlegible t List.mem_cons_self))
    | cons u us =>
      obtain ⟨ht, hts'⟩ := List.forall_mem_cons.mp hts
      obtain ⟨hu, hus'⟩ := List.forall_mem_cons.mp hus
      rw [list, list, List.append_assoc, List.append_assoc] at h
      obtain ⟨rfl, hrest⟩ := ht u _ _ hu p.stops_tail p.stops_tail h
      obtain ⟨rfl, hrs⟩ := tail_append_inj hts' hus' hrest
      exact ⟨rfl, hrs⟩

/-- Lists of two terms or more differ if their signs do. -/
theorem list_append_ne {q : Style}
    (hpq : ∀ x y, p.first :: (p.rest ++ x) ≠ q.first :: (q.rest ++ y)) (hlen : 2 ≤ ts.length)
    (hlen' : 2 ≤ us.length) (hts : ∀ t ∈ ts, t.ReadOff) (hus : ∀ u ∈ us, u.Legible) :
    p.list ts ++ r ≠ q.list us ++ s := by
  match ts, us with
  | t :: t' :: ts, u :: u' :: us =>
    intro h
    rw [list, list, List.append_assoc, List.append_assoc] at h
    obtain ⟨-, hrest⟩ := hts t List.mem_cons_self u _ _ (hus u List.mem_cons_self)
      p.stops_tail q.stops_tail h
    simp only [tail, List.cons_append, List.append_assoc] at hrest
    exact hpq _ _ hrest

end Style

theorem Legible.readOff (ha : a.Legible) : a.ReadOff := by
  induction a using byParts with
  | const c =>
    intro b r s hb hr hs h
    cases b with
    | const d =>
      rw [text_const, text_const] at h
      obtain ⟨hcd, hrs⟩ := number_append_inj hr hs h
      exact ⟨congrArg const (Int64.toInt_inj.mp hcd), hrs⟩
    | _ => cases lead_eq ha hb h
  | unknown v =>
    intro b r s hb hr hs h
    cases b with
    | unknown w =>
      rw [text_unknown, text_unknown] at h
      obtain ⟨rfl, hrs⟩ :=
        Value.render_append_inj (legible_unknown.mp ha) (legible_unknown.mp hb) hr hs h
      exact ⟨rfl, hrs⟩
    | _ => cases lead_eq ha hb h
  | sum ts ih =>
    intro b r s hb hr hs h
    obtain ⟨hlen, hts⟩ := legible_sum.mp ha
    have hread : ∀ t ∈ ts, t.ReadOff := fun t ht => ih t ht (hts t ht)
    cases b with
    | sum us =>
      rw [text_sum, text_sum] at h
      obtain ⟨rfl, hrs⟩ :=
        Style.list_append_inj hts hread (legible_sum.mp hb).2 (List.cons.inj h).2
      exact ⟨rfl, hrs⟩
    | product us =>
      obtain ⟨hlen', hus⟩ := legible_product.mp hb
      rw [text_sum, text_product] at h
      exact absurd (List.cons.inj h).2
        (Style.list_append_ne (by simp [Style.sums, Style.products]) hlen hlen' hread hus)
    | _ => cases lead_eq ha hb h
  | product ts ih =>
    intro b r s hb hr hs h
    obtain ⟨hlen, hts⟩ := legible_product.mp ha
    have hread : ∀ t ∈ ts, t.ReadOff := fun t ht => ih t ht (hts t ht)
    cases b with
    | product us =>
      rw [text_product, text_product] at h
      obtain ⟨rfl, hrs⟩ :=
        Style.list_append_inj hts hread (legible_product.mp hb).2 (List.cons.inj h).2
      exact ⟨rfl, hrs⟩
    | sum us =>
      obtain ⟨hlen', hus⟩ := legible_sum.mp hb
      rw [text_product, text_sum] at h
      exact absurd (List.cons.inj h).2
        (Style.list_append_ne (by simp [Style.sums, Style.products]) hlen hlen' hread hus)
    | _ => cases lead_eq ha hb h
  | recurrence k ts ih =>
    intro b r s hb hr hs h
    have hts := legible_recurrence.mp ha
    have hread : ∀ t ∈ ts, t.ReadOff := fun t ht => ih t ht (hts t ht)
    cases b with
    | recurrence k' us =>
      rw [text_recurrence, text_recurrence] at h
      simp only [List.cons_append, List.append_assoc] at h
      obtain ⟨rfl, hrest⟩ :=
        Style.list_append_inj hts hread (legible_recurrence.mp hb) (List.cons.inj h).2
      simp only [List.cons.injEq, true_and] at hrest
      obtain ⟨rfl, hrs⟩ := digits_append_inj (stops_cons rfl) (stops_cons rfl) hrest
      exact ⟨rfl, (List.cons.inj hrs).2⟩
    | _ => cases lead_eq ha hb h

/-- Expressions that hold two terms at least in all brackets, and no number for a name, are the same
if their texts are. -/
theorem render_eq_iff (ha : a.Legible) (hb : b.Legible) : a.render = b.render ↔ a = b := by
  refine ⟨fun h => ?_, congrArg render⟩
  have htext : a.text ++ [] = b.text ++ [] := by rw [text, text, h]
  exact (ha.readOff b [] [] hb (by simp [Stops]) (by simp [Stops]) htext).1

/-- Around a single term the brackets do not tell a sum from a product, and a literal prints as a
constant does. -/
example : (sum [unknown (.int 1)]).render = (product [const 1]).render := by decide

end Expr

/-- A recurrence that steps by one of another loop, and one with the operands of both. -/
def nestedTerms : Expr :=
  .sum [.recurrence 1 [.unknown (.result 12), .recurrence 2 [.const 0, .const (-1)]], .unknown .null]

def flatTerms : Expr :=
  .sum [.recurrence 1 [.unknown (.result 12), .const 0, .const (-1)], .unknown .null]

theorem Expr.render_eq_iff_nestedTerms :
    nestedTerms.Legible ∧ flatTerms.Legible ∧ nestedTerms.render ≠ flatTerms.render := by
  have hnested : nestedTerms.Legible := by
    simp [nestedTerms, legible_sum, legible_recurrence, legible_unknown, legible_const,
      Value.IsName, Value.null]
  have hflat : flatTerms.Legible := by
    simp [flatTerms, legible_sum, legible_recurrence, legible_unknown, legible_const,
      Value.IsName, Value.null]
  exact ⟨hnested, hflat, (render_eq_iff hnested hflat).not.mpr (by decide)⟩

end LoopStride
