import LoopStride.Value

/-! Sets of instructions, kept in ascending order, so that equal sets are equal values. -/
namespace LoopStride

def insertAscending (id : InstId) : List InstId → List InstId
  | [] => [id]
  | m :: ms =>
    if id < m then id :: m :: ms
    else if id = m then m :: ms
    else m :: insertAscending id ms

theorem mem_insertAscending {a id : InstId} {ms : List InstId} :
    a ∈ insertAscending id ms ↔ a = id ∨ a ∈ ms := by
  induction ms with
  | nil => simp [insertAscending]
  | cons m ms ih => grind [insertAscending]

theorem pairwise_insertAscending {id : InstId} {ms : List InstId}
    (h : ms.Pairwise (· < ·)) : (insertAscending id ms).Pairwise (· < ·) := by
  induction ms with
  | nil => simp [insertAscending]
  | cons m ms ih =>
    have hm := (List.pairwise_cons.mp h).1
    have hs := ih (List.pairwise_cons.mp h).2
    unfold insertAscending
    split
    · next hlt =>
      refine List.pairwise_cons.mpr ⟨fun a ha => ?_, h⟩
      rcases List.mem_cons.mp ha with rfl | ha
      · exact hlt
      · exact Nat.lt_trans hlt (hm a ha)
    · next hge =>
      split
      · exact h
      · next hne =>
        refine List.pairwise_cons.mpr ⟨fun a ha => ?_, hs⟩
        rcases mem_insertAscending.mp ha with rfl | ha
        · exact Nat.lt_of_le_of_ne (Nat.le_of_not_lt hge) (Ne.symm hne)
        · exact hm a ha

structure InstSet where
  members : List InstId
  ascending : members.Pairwise (· < ·)
  deriving DecidableEq

namespace InstSet

def empty : InstSet := ⟨[], .nil⟩

instance : EmptyCollection InstSet := ⟨empty⟩

instance : Membership InstId InstSet := ⟨fun s id => id ∈ s.members⟩

variable (s : InstSet)

def insert (id : InstId) : InstSet :=
  ⟨insertAscending id s.members, pairwise_insertAscending s.ascending⟩

def contains (id : InstId) : Bool := s.members.contains id

def size : Nat := s.members.length

def isEmpty : Bool := s.members.isEmpty

def ofList (ids : List InstId) : InstSet := ids.foldl insert ∅

@[simp] theorem mem_insert {a id : InstId} : a ∈ s.insert id ↔ a = id ∨ a ∈ s :=
  mem_insertAscending

@[simp] theorem not_mem_empty {a : InstId} : a ∉ (∅ : InstSet) := List.not_mem_nil

@[simp] theorem contains_iff {id : InstId} : s.contains id = true ↔ id ∈ s := by
  simp [contains, Membership.mem]

theorem ext {s t : InstSet} (h : ∀ id, id ∈ s ↔ id ∈ t) : s = t := by
  obtain ⟨as, ha⟩ := s
  obtain ⟨bs, hb⟩ := t
  have perm : as.Perm bs :=
    (List.perm_ext_iff_of_nodup (ha.imp Nat.ne_of_lt) (hb.imp Nat.ne_of_lt)).mpr h
  have : as = bs := perm.eq_of_pairwise (fun a b _ _ hab hba => absurd hab (Nat.lt_asymm hba)) ha hb
  subst this
  rfl

end InstSet
end LoopStride
