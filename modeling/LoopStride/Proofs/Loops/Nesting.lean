import Mathlib.Data.List.Basic
import LoopStride.Proofs.Loops.Natural

/-! Natural loops nest: two bodies that meet are one inside the other. Hence the smallest body
around a header is that of the parent, parents come first, and depths count the loops around. -/
namespace LoopStride

/-- The body of `a` is a proper part of the body of `b`. -/
def Loop.Inside (a b : Loop) : Prop := a.body ⊆ b.body ∧ ¬ b.body ⊆ a.body

namespace LoopForest

/-- Number `i` has the smallest body of the loops with property `S`, without a tie. -/
def IsSmallest (F : LoopForest) (S : Loop → Prop) (i : LoopId) : Prop :=
  ∃ a, F.get? i = some a ∧ S a ∧
    ∀ j b, F.get? j = some b → S b → j ≠ i → a.body.length < b.body.length

theorem IsSmallest.unique {F : LoopForest} {S : Loop → Prop} {i j : LoopId}
    (hi : F.IsSmallest S i) (hj : F.IsSmallest S j) : i = j := by
  obtain ⟨a, hia, ha, hle⟩ := hi
  obtain ⟨b, hjb, hb, hle'⟩ := hj
  by_contra hne
  exact lt_asymm (hle j b hjb hb (Ne.symm hne)) (hle' i a hia ha hne)

/-- The loops form a forest under containment of their bodies, with parents, depths and queries to
match. -/
structure IsNested (F : LoopForest) : Prop where
  disjoint_or_inside : ∀ i j a b, F.get? i = some a → F.get? j = some b → i ≠ j →
    a.body.Disjoint b.body ∨ a.Inside b ∨ b.Inside a
  parent_eq_some_iff : ∀ i a, F.get? i = some a →
    ∀ p, a.parent = some p ↔ F.IsSmallest a.Inside p
  parent_eq_none_iff : ∀ i a, F.get? i = some a →
    (a.parent = none ↔ ∀ b ∈ F.loops, ¬ a.Inside b)
  parent_lt : ∀ i a, F.get? i = some a → ∀ p, a.parent = some p → p < i
  depth_eq : ∀ i a, F.get? i = some a →
    a.depth = F.loops.countP fun b => b.body.contains a.header
  isNestedIn_iff : ∀ i j a b, F.get? i = some a → F.get? j = some b →
    (F.isNestedIn i j = true ↔ a.body ⊆ b.body)
  innermost?_eq_some_iff : ∀ x i, F.innermost? x = some i ↔ F.IsSmallest (x ∈ ·.body) i
  innermost?_eq_none_iff : ∀ x, F.innermost? x = none ↔ ∀ a ∈ F.loops, x ∉ a.body

end LoopForest

/-! ### Choosing the best of a list -/

/-- A fold that keeps the better of two finds a best one, and fails on the empty list alone. -/
theorem foldl_best (le : Nat → Nat → Prop) (step : Option Nat → Nat → Option Nat)
    (refl : ∀ j, le j j) (trans : ∀ {i j k}, le i j → le j k → le i k)
    (none_step : ∀ j, step none j = some j)
    (some_step : ∀ k j, step (some k) j = some j ∧ le j k ∨ step (some k) j = some k ∧ le k j)
    (xs : List Nat) : (xs.foldl step none = none ↔ xs = []) ∧
      ∀ p, xs.foldl step none = some p → p ∈ xs ∧ ∀ j ∈ xs, le p j := by
  have key : ∀ (xs : List Nat) (k : Nat), ∃ p, xs.foldl step (some k) = some p ∧
      p ∈ k :: xs ∧ ∀ j ∈ k :: xs, le p j := by
    intro xs
    induction xs with
    | nil => exact fun k => ⟨k, rfl, by simp, by simpa using refl k⟩
    | cons x xs ih =>
      intro k
      have better : ∃ y, step (some k) x = some y ∧ y ∈ [k, x] ∧ le y k ∧ le y x := by
        rcases some_step k x with ⟨h, hle⟩ | ⟨h, hle⟩
        · exact ⟨x, h, by simp, hle, refl x⟩
        · exact ⟨k, h, by simp, refl k, hle⟩
      obtain ⟨y, hy, hmem, hyk, hyx⟩ := better
      obtain ⟨p, hp, hpm, hle⟩ := ih y
      have hpy := hle y (by simp)
      refine ⟨p, by rw [List.foldl_cons, hy, hp], ?_, fun j hj => ?_⟩
      · rcases List.mem_cons.mp hpm with rfl | hpm
        · exact (List.sublist_append_left [k, x] xs).subset hmem
        · simp [hpm]
      · cases hj with
        | head => exact trans hpy hyk
        | tail _ hj =>
          rcases List.mem_cons.mp hj with rfl | hj
          · exact trans hpy hyx
          · exact hle j (by simp [hj])
  cases xs with
  | nil => simp
  | cons x xs =>
    obtain ⟨p, hp, hpm, hle⟩ := key xs x
    rw [List.foldl_cons, none_step, hp]
    refine ⟨by simp, fun q hq => ?_⟩
    rw [← Option.some.inj hq]
    exact ⟨hpm, hle⟩

theorem parentAmong_spec (bodies : List (List BlockId)) (i : LoopId) (h : BlockId) :
    (parentAmong bodies i h = none ↔ ∀ j, j ≠ i → h ∉ bodies.getD j []) ∧
    ∀ p, parentAmong bodies i h = some p → p ≠ i ∧ h ∈ bodies.getD p [] ∧
      ∀ j, j ≠ i → h ∈ bodies.getD j [] →
        (bodies.getD p []).length ≤ (bodies.getD j []).length := by
  have hmem : ∀ j, j ∈ (List.range bodies.length).filter
      (fun j => j != i && (bodies.getD j []).contains h) ↔ j ≠ i ∧ h ∈ bodies.getD j [] := by
    intro j
    simp only [List.mem_filter, List.mem_range, Bool.and_eq_true, bne_iff_ne, ne_eq,
      List.contains_iff_mem, and_iff_right_iff_imp]
    rintro ⟨-, hj⟩
    by_contra hlt
    simp [List.getD, List.getElem?_eq_none (not_lt.mp hlt)] at hj
  obtain ⟨hnone, hsome⟩ := foldl_best
    (fun j k => (bodies.getD j []).length ≤ (bodies.getD k []).length)
    (fun best j => match best with
      | none => some j
      | some k => if (bodies.getD j []).length < (bodies.getD k []).length then some j else some k)
    (fun _ => le_rfl) (fun h h' => h.trans h') (fun _ => rfl)
    (fun k j => by
      by_cases hlt : (bodies.getD j []).length < (bodies.getD k []).length
      · exact .inl ⟨if_pos hlt, hlt.le⟩
      · exact .inr ⟨if_neg hlt, not_lt.mp hlt⟩)
    ((List.range bodies.length).filter fun j => j != i && (bodies.getD j []).contains h)
  constructor
  · refine hnone.trans (List.eq_nil_iff_forall_not_mem.trans (forall_congr' fun j => ?_))
    rw [hmem, not_and]
  · intro p hp
    obtain ⟨hpm, hle⟩ := hsome p hp
    obtain ⟨hpi, hph⟩ := (hmem p).mp hpm
    exact ⟨hpi, hph, fun j hj hjh => hle j ((hmem j).mpr ⟨hj, hjh⟩)⟩

/-- The depth below a given parent, from the depths so far. -/
def depthUnder (ds : List Nat) : Option LoopId → Nat
  | none => 1
  | some p => ds.getD p 1 + 1

theorem depthsOf_concat (ps : List (Option LoopId)) (p : Option LoopId) :
    depthsOf (ps ++ [p]) = depthsOf ps ++ [depthUnder (depthsOf ps) p] := by
  rw [depthsOf, List.foldl_append]
  cases p <;> rfl

theorem length_depthsOf (ps : List (Option LoopId)) : (depthsOf ps).length = ps.length := by
  induction ps using List.reverseRecOn with
  | nil => rfl
  | append_singleton ps p ih => simp [depthsOf_concat, ih]

/-- If parents come first, the depths of the parents are settled before they are read. -/
theorem getD_depthsOf {ps : List (Option LoopId)} {i : LoopId} {p : Option LoopId}
    (hi : ps[i]? = some p) (hp : ∀ q, p = some q → q < i) :
    (depthsOf ps).getD i 1 = depthUnder (depthsOf ps) p := by
  induction ps using List.reverseRecOn with
  | nil => simp at hi
  | append_singleton ps p' ih =>
    have hlen := length_depthsOf ps
    have getD_left : ∀ (x : Nat) j, j < ps.length →
        (depthsOf ps ++ [x]).getD j 1 = (depthsOf ps).getD j 1 := by
      intro x j hj
      simp [List.getD, List.getElem?_append_left (hlen ▸ hj)]
    have under_left : ∀ (x : Nat), i ≤ ps.length →
        depthUnder (depthsOf ps ++ [x]) p = depthUnder (depthsOf ps) p := by
      intro x hle
      cases p with
      | none => rfl
      | some q => rw [depthUnder, getD_left x q ((hp q rfl).trans_le hle), depthUnder]
    rw [depthsOf_concat]
    rcases Nat.lt_trichotomy i ps.length with hlt | rfl | hgt
    · rw [List.getElem?_append_left hlt] at hi
      rw [getD_left _ i hlt, ih hi, under_left _ hlt.le]
    · obtain rfl : p' = p := by simpa using hi
      rw [under_left _ le_rfl]
      simp [List.getD, ← hlen]
    · have hle : (ps ++ [p']).length ≤ i := by rwa [List.length_append, List.length_singleton]
      rw [List.getElem?_eq_none hle] at hi
      exact absurd hi (by simp)

/-- One element more is counted if one element more has the property. -/
theorem countP_succ {α : Type} {P Q : α → Bool} {a : α} {l : List α} (hn : l.Nodup) (ha : a ∈ l)
    (hQ : Q a = false) (hP : ∀ c ∈ l, P c = true ↔ c = a ∨ Q c = true) :
    l.countP P = l.countP Q + 1 := by
  induction l with
  | nil => simp at ha
  | cons x l ih =>
    obtain ⟨hx, hn⟩ := List.nodup_cons.mp hn
    have hP' := fun c hc => hP c (List.mem_cons_of_mem _ hc)
    by_cases hxa : x = a
    · subst hxa
      have hPx : P x = true := (hP x (by simp)).mpr (.inl rfl)
      have hrest : l.countP P = l.countP Q := by
        refine List.countP_congr fun c hc => ?_
        rw [hP' c hc]
        exact ⟨fun h => h.resolve_left fun he => hx (he ▸ hc), .inr⟩
      simp [hPx, hQ, hrest]
    · have hPx : P x = Q x := by
        rw [Bool.eq_iff_iff, hP x (by simp)]
        exact ⟨fun h => h.resolve_left hxa, .inr⟩
      rw [List.countP_cons, List.countP_cons, hPx,
        ih hn ((List.mem_cons.mp ha).resolve_left (Ne.symm hxa)) hP']
      omega

theorem Loop.Inside.length_lt {a b : Loop} (ha : a.body.Nodup) (h : a.Inside b) :
    a.body.length < b.body.length := by
  have hsub := List.subperm_of_subset ha h.1
  refine lt_of_le_of_ne hsub.length_le fun he => h.2 ?_
  exact (hsub.perm_of_length_le he.ge).symm.subset

/-! ### Bodies that meet -/

namespace Flow
variable {g : Flow} {a b c : Loop} {h h' u u' x y : BlockId} {i j k p : LoopId}

/-- A body that holds the header of another loop holds the whole loop. -/
theorem InBody.trans (hu : g.BackEdge u h) (hu' : g.BackEdge u' h') (hh : g.InBody h h')
    (hx : g.InBody h' x) : g.InBody h x := by
  rcases hh with rfl | ⟨hr', l, hl, hhl⟩
  · exact hx
  rcases hx with rfl | ⟨hr, l', hl', hxl'⟩
  · exact .inr ⟨hr', l, hl, hhl⟩
  have hd : g.StrictlyDominates h h' :=
    ⟨InBody.dominates hu (.inr ⟨hr', l, hl, hhl⟩), hhl.left.symm⟩
  -- from `h` the latch is not to be reached around `h'`, which does not dominate `h`
  have hne : ∀ {y}, g.Leads (· ≠ h') y l' → y ≠ h := by
    rintro y hy rfl
    exact hl'.2.not_leads ((hd.1.reaches_left.leads_around hd.not_dominates).trans hy)
  refine .inr ⟨hr, l, hl, hxl'.induct_back (C := fun z => g.Leads (· ≠ h) z l)
    (fun hl'h => ?_) fun hx he hy ih => ?_⟩
  · exact hhl.head (hne (.refl hl'h)) hl'.1
  · exact ih.head (hne (hy.head hx he)) he

/-- Whatever lies between the header and a block of the body, as dominators go, is in the body. -/
theorem InBody.between (hd : g.Dominates h y) (hx : g.InBody h x) (hyx : g.Dominates y x) :
    g.InBody h y := by
  by_cases hne : y = h
  · exact .inl hne
  have hs : g.StrictlyDominates h y := ⟨hd, Ne.symm hne⟩
  have hl : g.Leads (· ≠ h) y x := hyx.leads.mono fun z hz he => hs.not_dominates (he ▸ hz)
  rcases hx with rfl | ⟨-, l, hl', hxl⟩
  · exact absurd rfl hl.right
  · exact .inr ⟨hyx.reaches_left, l, hl', hl.trans hxl⟩

theorem InBody.total (hu : g.BackEdge u h) (hu' : g.BackEdge u' h') (hx : g.InBody h x)
    (hx' : g.InBody h' x) : g.InBody h h' ∨ g.InBody h' h := by
  have hd := InBody.dominates hu hx
  have hd' := InBody.dominates hu' hx'
  cases hd.total hd' with
  | inl hhh => exact .inl (between hhh hx hd')
  | inr hhh => exact .inr (between hhh hx' hd)

theorem header_mem_body (hi : g.loops.get? i = some a) : a.header ∈ a.body :=
  (mem_body_iff hi).mpr (.inl rfl)

theorem body_nodup (hi : g.loops.get? i = some a) : a.body.Nodup :=
  body_of_get? hi ▸ loopBody_nodup _

theorem eq_of_header_eq (hi : g.loops.get? i = some a) (hj : g.loops.get? j = some b)
    (h : a.header = b.header) : i = j := by
  have h1 := ofHeader?_eq_some_iff.mpr ⟨a, hi, rfl⟩
  have h2 := ofHeader?_eq_some_iff.mpr ⟨b, hj, rfl⟩
  rw [h, h2] at h1
  exact (Option.some.inj h1).symm

theorem strictlyDominates_of_mem (hi : g.loops.get? i = some a) (hj : g.loops.get? j = some b)
    (hne : i ≠ j) (h : a.header ∈ b.body) : g.StrictlyDominates b.header a.header := by
  obtain ⟨u, hu⟩ := backEdge_of_get? hj
  refine ⟨InBody.dominates hu ((mem_body_iff hj).mp h), fun he => hne ?_⟩
  exact eq_of_header_eq hi hj he.symm

theorem inside_iff (hi : g.loops.get? i = some a) (hj : g.loops.get? j = some b) :
    a.Inside b ↔ i ≠ j ∧ a.header ∈ b.body := by
  constructor
  · intro h
    refine ⟨?_, h.1 (header_mem_body hi)⟩
    rintro rfl
    rw [hi, Option.some.injEq] at hj
    exact h.2 (hj ▸ List.Subset.refl _)
  · rintro ⟨hne, h⟩
    obtain ⟨u, hu⟩ := backEdge_of_get? hi
    obtain ⟨v, hv⟩ := backEdge_of_get? hj
    refine ⟨fun x hx => ?_, fun hsub => ?_⟩
    · exact (mem_body_iff hj).mpr
        (((mem_body_iff hj).mp h).trans hv hu ((mem_body_iff hi).mp hx))
    · have hb := (mem_body_iff hi).mp (hsub (header_mem_body hj))
      exact (strictlyDominates_of_mem hi hj hne h).not_dominates (hb.dominates hu)

theorem inside_or_inside (hi : g.loops.get? i = some a) (hj : g.loops.get? j = some b)
    (hne : i ≠ j) (ha : x ∈ a.body) (hb : x ∈ b.body) : a.Inside b ∨ b.Inside a := by
  obtain ⟨u, hu⟩ := backEdge_of_get? hi
  obtain ⟨v, hv⟩ := backEdge_of_get? hj
  cases InBody.total hu hv ((mem_body_iff hi).mp ha) ((mem_body_iff hj).mp hb) with
  | inl h => exact .inr ((inside_iff hj hi).mpr ⟨Ne.symm hne, (mem_body_iff hi).mpr h⟩)
  | inr h => exact .inl ((inside_iff hi hj).mpr ⟨hne, (mem_body_iff hj).mpr h⟩)

theorem inside_of_length_le (hi : g.loops.get? i = some a) (hj : g.loops.get? j = some b)
    (hne : i ≠ j) (ha : x ∈ a.body) (hb : x ∈ b.body) (hle : a.body.length ≤ b.body.length) :
    a.Inside b := by
  refine (inside_or_inside hi hj hne ha hb).resolve_right fun h => ?_
  exact absurd (h.length_lt (body_nodup hj)) (not_lt.mpr hle)

theorem lt_of_inside (hi : g.loops.get? i = some a) (hj : g.loops.get? j = some b)
    (h : a.Inside b) : j < i := by
  obtain ⟨hne, hm⟩ := (inside_iff hi hj).mp h
  have hd := (strictlyDominates_of_mem hi hj hne hm).idxOf_lt
  obtain ⟨hi', hia⟩ := List.getElem?_eq_some_iff.mp (header_of_get? hi)
  obtain ⟨hj', hjb⟩ := List.getElem?_eq_some_iff.mp (header_of_get? hj)
  rcases Nat.lt_trichotomy i j with hlt | heq | hgt
  · have := List.pairwise_iff_getElem.mp headers_sorted i j hi' hj' hlt
    rw [hia, hjb] at this
    omega
  · exact absurd heq hne
  · exact hgt

/-! ### Parents and depths -/

theorem getD_bodies (hj : g.loops.get? j = some b) : g.bodies.getD j [] = b.body := by
  simp [bodies, List.getD, header_of_get? hj, body_of_get? hj]

theorem exists_of_mem_getD_bodies (h : x ∈ g.bodies.getD j []) :
    ∃ b, g.loops.get? j = some b := by
  rw [get?_loops]
  cases hh : (g.headers g.dominators)[j]? with
  | none => simp [bodies, List.getD, hh] at h
  | some h' => exact ⟨_, rfl⟩

theorem parent_of_get? (hi : g.loops.get? i = some a) :
    a.parent = parentAmong g.bodies i a.header := by
  rw [get?_loops, Option.map_eq_some_iff] at hi
  obtain ⟨h, hh, rfl⟩ := hi
  rfl

theorem parent_eq_none_iff (hi : g.loops.get? i = some a) :
    a.parent = none ↔ ∀ j b, g.loops.get? j = some b → ¬ a.Inside b := by
  rw [parent_of_get? hi, (parentAmong_spec g.bodies i a.header).1]
  constructor
  · intro h j b hj hab
    obtain ⟨hne, hm⟩ := (inside_iff hi hj).mp hab
    exact h j (Ne.symm hne) (getD_bodies hj ▸ hm)
  · intro h j hji hm
    obtain ⟨b, hj⟩ := exists_of_mem_getD_bodies hm
    exact h j b hj ((inside_iff hi hj).mpr ⟨Ne.symm hji, getD_bodies hj ▸ hm⟩)

theorem isSmallest_of_parent (hi : g.loops.get? i = some a) (hp : a.parent = some p) :
    g.loops.IsSmallest a.Inside p := by
  rw [parent_of_get? hi] at hp
  obtain ⟨hpi, hm, hle⟩ := (parentAmong_spec g.bodies i a.header).2 p hp
  obtain ⟨b, hb⟩ := exists_of_mem_getD_bodies hm
  rw [getD_bodies hb] at hm hle
  refine ⟨b, hb, (inside_iff hi hb).mpr ⟨Ne.symm hpi, hm⟩, fun j c hj hac hjp => ?_⟩
  obtain ⟨hij, hmc⟩ := (inside_iff hi hj).mp hac
  have hbc := hle j (Ne.symm hij) (getD_bodies hj ▸ hmc)
  rw [getD_bodies hj] at hbc
  exact (inside_of_length_le hb hj (Ne.symm hjp) hm hmc hbc).length_lt (body_nodup hb)

theorem parent_eq_some_iff (hi : g.loops.get? i = some a) :
    a.parent = some p ↔ g.loops.IsSmallest a.Inside p := by
  refine ⟨isSmallest_of_parent hi, fun h => ?_⟩
  obtain ⟨b, hb, hab, -⟩ := id h
  cases hq : a.parent with
  | none => exact absurd hab ((parent_eq_none_iff hi).mp hq p b hb)
  | some q => rw [(isSmallest_of_parent hi hq).unique h]

theorem parent_lt (hi : g.loops.get? i = some a) (hp : a.parent = some p) : p < i := by
  obtain ⟨b, hb, hab, -⟩ := isSmallest_of_parent hi hp
  exact lt_of_inside hi hb hab

theorem depth_of_get? (hi : g.loops.get? i = some a) :
    a.depth = match a.parent with
      | none => 1
      | some p => g.loops.depthOf p + 1 := by
  have depth_eq : ∀ {j b}, g.loops.get? j = some b → b.depth = (depthsOf g.parents).getD j 1 := by
    intro j b hj
    rw [get?_loops, Option.map_eq_some_iff] at hj
    obtain ⟨h, hh, rfl⟩ := hj
    rfl
  have hpar : g.parents[i]? = some a.parent := by
    simp [parents, header_of_get? hi, parent_of_get? hi]
  rw [depth_eq hi, getD_depthsOf hpar fun q hq => parent_lt hi hq]
  cases hp : a.parent with
  | none => rfl
  | some p =>
    obtain ⟨b, hb, -⟩ := isSmallest_of_parent hi hp
    simp [depthUnder, LoopForest.depthOf, hb, depth_eq hb]

theorem depth_of_parent (hi : g.loops.get? i = some a) (hp : a.parent = some p)
    (hb : g.loops.get? p = some b) : a.depth = b.depth + 1 := by
  rw [depth_of_get? hi, hp]
  simp [LoopForest.depthOf, hb]

theorem inside_iff_of_parent (hi : g.loops.get? i = some a) (hp : a.parent = some p)
    (hb : g.loops.get? p = some b) (hj : g.loops.get? j = some c) :
    a.Inside c ↔ j = p ∨ b.Inside c := by
  obtain ⟨b', hb', hab, hle⟩ := isSmallest_of_parent hi hp
  rw [hb, Option.some.injEq] at hb'
  subst hb'
  constructor
  · intro hac
    refine or_iff_not_imp_left.mpr fun hjp => ?_
    exact inside_of_length_le hb hj (Ne.symm hjp) (hab.1 (header_mem_body hi))
      (hac.1 (header_mem_body hi)) (hle j c hj hac hjp).le
  · rintro (rfl | hbc)
    · rw [hb, Option.some.injEq] at hj
      exact hj ▸ hab
    · exact ⟨fun x hx => hbc.1 (hab.1 hx), fun h => hbc.2 fun x hx => hab.1 (h hx)⟩

theorem depth_lt_of_inside (hi : g.loops.get? i = some a) (hj : g.loops.get? j = some b)
    (h : a.Inside b) : b.depth < a.depth := by
  induction i using Nat.strong_induction_on generalizing a with
  | _ i ih =>
    cases hp : a.parent with
    | none => exact absurd h ((parent_eq_none_iff hi).mp hp j b hj)
    | some p =>
      obtain ⟨c, hc, hac, -⟩ := isSmallest_of_parent hi hp
      rw [depth_of_parent hi hp hc]
      rcases (inside_iff_of_parent hi hp hc hj).mp h with rfl | hcb
      · rw [hc, Option.some.injEq] at hj
        exact hj ▸ Nat.lt_succ_self _
      · exact (ih p (lt_of_inside hi hc hac) hc hcb).trans (Nat.lt_succ_self _)

theorem loops_nodup : g.loops.loops.Nodup :=
  List.Nodup.of_map Loop.header (loops_headers ▸ headers_nodup)

theorem eq_of_get? (hi : g.loops.get? i = some a) (hj : g.loops.get? j = some b) :
    b = a ↔ j = i := by
  refine ⟨fun h => eq_of_header_eq hj hi (h ▸ rfl), ?_⟩
  rintro rfl
  exact Option.some.inj (hj.symm.trans hi)

theorem header_mem_iff (hi : g.loops.get? i = some a) (hj : g.loops.get? j = some b) :
    a.header ∈ b.body ↔ j = i ∨ a.Inside b := by
  rw [inside_iff hi hj]
  by_cases hji : j = i
  · have hba := (eq_of_get? hi hj).mpr hji
    simp [hji, hba, header_mem_body hi]
  · simp [hji, Ne.symm hji]

theorem subset_iff (hi : g.loops.get? i = some a) (hj : g.loops.get? j = some b) :
    a.body ⊆ b.body ↔ j = i ∨ a.Inside b := by
  rw [← header_mem_iff hi hj]
  refine ⟨fun h => h (header_mem_body hi), fun h => ?_⟩
  cases (header_mem_iff hi hj).mp h with
  | inl hji =>
    rw [(eq_of_get? hi hj).mpr hji]
    exact List.Subset.refl _
  | inr hab => exact hab.1

theorem depth_eq_countP (hi : g.loops.get? i = some a) :
    a.depth = g.loops.loops.countP fun b => b.body.contains a.header := by
  -- the parent has a smaller number and its header one loop less around it
  induction i using Nat.strong_induction_on generalizing a with
  | _ i ih =>
    have ha : a ∈ g.loops.loops := List.mem_of_getElem? hi
    have around : ∀ c ∈ g.loops.loops, ∃ j, g.loops.get? j = some c ∧
        (c.body.contains a.header = true ↔ c = a ∨ a.Inside c) := by
      intro c hc
      obtain ⟨j, hj⟩ := List.mem_iff_getElem?.mp hc
      exact ⟨j, hj, by rw [List.contains_iff_mem, header_mem_iff hi hj, eq_of_get? hi hj]⟩
    cases hp : a.parent with
    | none =>
      have hout := (parent_eq_none_iff hi).mp hp
      have hone := countP_succ (Q := fun _ => false) loops_nodup ha rfl fun c hc => by
        obtain ⟨j, hj, hcj⟩ := around c hc
        exact hcj.trans (or_congr_right ⟨fun h => absurd h (hout j c hj), fun h => by cases h⟩)
      rw [hone, depth_of_get? hi, hp]
      simp
    | some p =>
      obtain ⟨b, hb, hab, -⟩ := isSmallest_of_parent hi hp
      have hnot : b.header ∉ a.body := by
        rw [header_mem_iff hb hi, not_or]
        exact ⟨(lt_of_inside hi hb hab).ne', fun h => h.2 hab.1⟩
      have hone := countP_succ (Q := fun c => c.body.contains b.header) loops_nodup ha
        (by simpa using hnot) fun c hc => by
          obtain ⟨j, hj, hcj⟩ := around c hc
          rw [hcj, List.contains_iff_mem, header_mem_iff hb hj, inside_iff_of_parent hi hp hb hj]
      rw [hone, depth_of_parent hi hp hb, ih p (lt_of_inside hi hb hab) hb]

/-! ### Queries -/

theorem mem_enclosing_iff (hi : g.loops.get? i = some a) (hj : g.loops.get? j = some b) {n : Nat}
    (hn : i ≤ n) : j ∈ g.loops.enclosing n i ↔ a.body ⊆ b.body := by
  rw [subset_iff hi hj]
  induction n generalizing i a with
  | zero =>
    obtain rfl : i = 0 := Nat.le_zero.mp hn
    have hout : ¬ a.Inside b := fun h => absurd (lt_of_inside hi hj h) (Nat.not_lt_zero _)
    simp [LoopForest.enclosing, hout]
  | succ n ih =>
    rw [LoopForest.enclosing, hi, Option.bind_some]
    cases hp : a.parent with
    | none =>
      have hout := (parent_eq_none_iff hi).mp hp j b hj
      simp [hout]
    | some p =>
      obtain ⟨c, hc, -⟩ := isSmallest_of_parent hi hp
      have hpn := Nat.le_of_lt_succ ((parent_lt hi hp).trans_le hn)
      rw [List.mem_cons, ih hc hpn, inside_iff_of_parent hi hp hc hj]

theorem isNestedIn_iff (hi : g.loops.get? i = some a) (hj : g.loops.get? j = some b) :
    g.loops.isNestedIn i j = true ↔ a.body ⊆ b.body := by
  rw [LoopForest.isNestedIn, List.contains_iff_mem]
  exact mem_enclosing_iff hi hj (List.getElem?_eq_some_iff.mp hi).1.le

theorem contains_iff : g.loops.contains i x = true ↔ ∃ a, g.loops.get? i = some a ∧ x ∈ a.body := by
  rw [LoopForest.contains]
  cases g.loops.get? i <;> simp

theorem innermost?_spec : (g.loops.innermost? x = none ↔ ∀ a ∈ g.loops.loops, x ∉ a.body) ∧
    ∀ i, g.loops.innermost? x = some i → g.loops.IsSmallest (x ∈ ·.body) i := by
  have hmem : ∀ j, j ∈ (List.range g.loops.size).filter (g.loops.contains · x) ↔
      ∃ b, g.loops.get? j = some b ∧ x ∈ b.body := by
    intro j
    rw [List.mem_filter, contains_iff, List.mem_range, and_iff_right_iff_imp]
    rintro ⟨b, hj, -⟩
    exact (List.getElem?_eq_some_iff.mp hj).1
  obtain ⟨hnone, hsome⟩ := foldl_best
    (fun j k => g.loops.depthOf k ≤ g.loops.depthOf j)
    (fun best l => match best with
      | none => some l
      | some k => if g.loops.depthOf k ≤ g.loops.depthOf l then some l else some k)
    (fun _ => le_rfl) (fun h h' => h'.trans h) (fun _ => rfl)
    (fun k j => by
      by_cases hle : g.loops.depthOf k ≤ g.loops.depthOf j
      · exact .inl ⟨if_pos hle, hle⟩
      · exact .inr ⟨if_neg hle, (not_le.mp hle).le⟩)
    ((List.range g.loops.size).filter (g.loops.contains · x))
  constructor
  · refine hnone.trans (List.eq_nil_iff_forall_not_mem.trans ⟨fun h a ha hx => ?_, fun h j hj => ?_⟩)
    · obtain ⟨j, hj⟩ := List.mem_iff_getElem?.mp ha
      exact h j ((hmem j).mpr ⟨a, hj, hx⟩)
    · obtain ⟨b, hb, hx⟩ := (hmem j).mp hj
      exact h b (List.mem_of_getElem? hb) hx
  · intro i hi
    obtain ⟨him, hle⟩ := hsome i hi
    obtain ⟨a, ha, hxa⟩ := (hmem i).mp him
    refine ⟨a, ha, hxa, fun j b hj hxb hji => ?_⟩
    cases inside_or_inside ha hj (Ne.symm hji) hxa hxb with
    | inl h => exact h.length_lt (body_nodup ha)
    | inr h =>
      have hdeep := depth_lt_of_inside hj ha h
      have hmax := hle j ((hmem j).mpr ⟨b, hj, hxb⟩)
      simp only [LoopForest.depthOf, ha, hj, Option.map_some, Option.getD_some] at hmax
      omega

theorem innermost?_eq_some_iff :
    g.loops.innermost? x = some i ↔ g.loops.IsSmallest (x ∈ ·.body) i := by
  refine ⟨innermost?_spec.2 i, fun h => ?_⟩
  obtain ⟨a, ha, hx, -⟩ := id h
  cases hq : g.loops.innermost? x with
  | none => exact absurd hx (innermost?_spec.1.mp hq a (List.mem_of_getElem? ha))
  | some q => rw [(innermost?_spec.2 q hq).unique h]

end Flow

/-- The loops of a function form a forest under containment. -/
theorem Func.loops_nested (f : Func) : f.flow.loops.IsNested where
  disjoint_or_inside i j a b hi hj hne := by
    refine or_iff_not_imp_left.mpr fun h => ?_
    simp only [List.Disjoint, not_forall, exists_prop] at h
    obtain ⟨x, hxa, hxb, -⟩ := h
    exact Flow.inside_or_inside hi hj hne hxa hxb
  parent_eq_some_iff i a hi p := Flow.parent_eq_some_iff hi
  parent_eq_none_iff i a hi := by
    rw [Flow.parent_eq_none_iff hi]
    constructor
    · intro h b hb
      obtain ⟨j, hj⟩ := List.mem_iff_getElem?.mp hb
      exact h j b hj
    · exact fun h j b hj => h b (List.mem_of_getElem? hj)
  parent_lt i a hi p hp := Flow.parent_lt hi hp
  depth_eq i a hi := Flow.depth_eq_countP hi
  isNestedIn_iff i j a b hi hj := Flow.isNestedIn_iff hi hj
  innermost?_eq_some_iff x i := Flow.innermost?_eq_some_iff
  innermost?_eq_none_iff x := Flow.innermost?_spec.1

end LoopStride
