import Mathlib.Data.Nat.Find
import LoopStride.Proofs.Dominators.Exact

/-! The sweeps come to an end. Once every link is the closest dominator of its block, no relinking
changes it; and whatever the links are at any point before, the meeting points that are asked for are
found, with no number and no link missing on the way. -/
namespace LoopStride
variable {g : Flow} {m : Links} {order : List BlockId} {a b d p q u v : BlockId} {fuel : Nat}
  {number link : BlockId → Option Nat}

/-- Two blocks move up, always the later one, and come together at `d`. Each move finds the numbers
of both and the link of the one that moves; the numbers are compared once more where the two are
one. -/
inductive Joins (number link : BlockId → Option Nat) : BlockId → BlockId → BlockId → Prop where
  | here {d i : Nat} (hi : number d = some i) : Joins number link d d d
  | left {a b d u i j : Nat} (hi : number a = some i) (hj : number b = some j) (hij : j < i)
    (hu : link a = some u) (h : Joins number link u b d) : Joins number link a b d
  | right {a b d u i j : Nat} (hi : number a = some i) (hj : number b = some j) (hij : i < j)
    (hu : link b = some u) (h : Joins number link a u d) : Joins number link a b d

/-- A meeting point is found only if nothing on the way is missing. -/
theorem joins_of_meet (h : meet number link fuel a b = some d) (hd : (number d).isSome) :
    Joins number link a b d := by
  induction fuel generalizing a b with
  | zero => cases h
  | succ fuel ih =>
    rw [meet] at h
    split at h
    · next hab =>
      obtain rfl := Option.some.inj h
      obtain ⟨i, hi⟩ := Option.isSome_iff_exists.mp hd
      exact hab ▸ .here hi
    · split at h
      · next i j hi hj =>
        split at h
        · next hij =>
          obtain ⟨u, hu, h⟩ := Option.bind_eq_some_iff.mp h
          exact .left hi hj hij hu (ih h)
        · split at h
          · next hij =>
            obtain ⟨u, hu, h⟩ := Option.bind_eq_some_iff.mp h
            exact .right hi hj hij hu (ih h)
          · cases h
      · cases h

namespace Links

theorem set_eq_self (h : m.get? b = some u) : m.set b u = m := by
  induction m with
  | nil => cases h
  | cons e m ih =>
    rw [get?_cons] at h
    rw [set]
    split at h
    · next hb =>
      obtain rfl := Option.some.inj h
      rw [if_pos hb.symm, hb]
    · next hb => rw [if_neg (Ne.symm hb), ih h]

/-- Linked blocks have a meeting point, and the way to it misses nothing. -/
theorem Rooted.joins_meetAt {entry : BlockId} (hm : m.Rooted entry order) (ha : (m.get? a).isSome)
    (hb : (m.get? b).isSome) :
    ∃ d, meetAt order m a b = some d ∧ Joins order.idxOf? m.get? a b d := by
  obtain ⟨d, hd, hmeet⟩ := hm.meetAt_eq_some ha hb
  obtain ⟨u, hu⟩ := Option.isSome_iff_exists.mp (hm.climbs_isSome ha (hmeet.common (.inl rfl)))
  have hnumber : (order.idxOf? d).isSome := by simp [idxOf?_eq_some_idxOf (hm.mem_order hu)]
  exact ⟨d, hd, joins_of_meet hd hnumber⟩

/-- A link that lies on all paths to its block stays when the block is relinked. -/
theorem Sound.relink_eq_self (hm : m.Sound g) (hall : ∀ c, g.Reaches c → (m.get? c).isSome)
    (hpasses : ∀ c, m.Passes g g.reversePostorder.length c) (hne : b ≠ g.entry)
    (hpb : g.Edge p b) (hp : g.Reaches p)
    (hlt : g.reversePostorder.idxOf p < g.reversePostorder.idxOf b) :
    g.relink g.reversePostorder m b = m := by
  obtain ⟨d, hd, -⟩ := hm.rooted.relink_eq_set hpb (hall p hp)
  obtain ⟨u, hu⟩ := Option.isSome_iff_exists.mp (hall b (hp.next hpb))
  have hnew : (g.relink g.reversePostorder m b).get? b = some d := by
    rw [hd, get?_set, if_pos rfl]
  -- before and after, the link is the closest dominator
  have hclosest := hm.immediatelyDominates (hpasses b) hne hu
  have hsound := (hm.relink hne hpb (hall p hp) hlt).1
  have hpasses' : (g.relink g.reversePostorder m b).Passes g g.reversePostorder.length b :=
    fun c hc hw => hm.relink_passes hall hpasses hne hpb (hall p hp) c hc hw.succ
  obtain rfl := hclosest.unique (hsound.immediatelyDominates hpasses' hne hnew)
  rw [hd, set_eq_self hu]

end Links

namespace Flow

def linksAfter (g : Flow) (n : Nat) : Links :=
  (g.sweep g.reversePostorder)^[n] [(g.entry, g.entry)]

/-- Some relinking in a sweep changes the links. -/
def Stirs (g : Flow) (m : Links) : Prop :=
  ∃ pre b suf, g.reversePostorder.drop 1 = pre ++ b :: suf ∧
    g.relinkAll (pre ++ [b]) m ≠ g.relinkAll pre m

/-- At some point in some sweep the links are `m`, and `b` is to be relinked next. -/
def Relinks (g : Flow) (m : Links) (b : BlockId) : Prop :=
  ∃ n pre suf, g.reversePostorder.drop 1 = pre ++ b :: suf ∧ m = g.relinkAll pre (g.linksAfter n)

/-- To relink `b` under the links `m`, its predecessor `q` is to meet the point `d` that was found for
the linked predecessors ahead of `q`. -/
def AsksMeeting (g : Flow) (m : Links) (b q d : BlockId) : Prop :=
  ∃ p ahead rest,
    (g.predecessors b).filter (fun p => (m.get? p).isSome) = p :: (ahead ++ q :: rest) ∧
    ahead.foldlM (fun d q => meetAt g.reversePostorder m q d) p = some d

theorem linksAfter_sound (g : Flow) (n : Nat) : (g.linksAfter n).Sound g := by
  cases n with
  | zero => exact Links.start_sound g
  | succ n => exact (g.iterate_sweep n).1

theorem Relinks.sound (h : g.Relinks m b) : m.Sound g := by
  obtain ⟨n, pre, suf, hsplit, rfl⟩ := h
  exact (relinkAll_linked (g.linksAfter_sound n) hsplit).1

theorem AsksMeeting.linked {entry : BlockId} (hm : m.Rooted entry g.reversePostorder)
    (h : g.AsksMeeting m b q d) : (m.get? q).isSome ∧ (m.get? d).isSome := by
  obtain ⟨p, ahead, rest, hlinked, hd⟩ := h
  have hsome : ∀ x ∈ p :: (ahead ++ q :: rest), (m.get? x).isSome := by
    intro x hx
    rw [← hlinked] at hx
    exact (List.mem_filter.mp hx).2
  obtain ⟨d', hd', hmeet⟩ := hm.foldlM_meetAt ahead p fun x hx => hsome x
    (List.mem_cons.mpr ((List.mem_cons.mp hx).imp_right (List.mem_append_left _)))
  obtain rfl := Option.some.inj (hd.symm.trans hd')
  exact ⟨hsome q (by simp),
    hm.climbs_isSome (hsome p List.mem_cons_self) (hmeet.common List.mem_cons_self)⟩

/-! ### The end of the sweeps -/

theorem sweep_eq_self (h : ¬ g.Stirs m) : g.sweep g.reversePostorder m = m := by
  have hkeep : ∀ {pre suf}, g.reversePostorder.drop 1 = pre ++ suf → g.relinkAll pre m = m := by
    intro pre suf hsplit
    induction pre using List.reverseRecOn generalizing suf with
    | nil => rfl
    | append_singleton pre b ih =>
      have hbefore : g.reversePostorder.drop 1 = pre ++ b :: suf := by simp [hsplit]
      rw [← ih hbefore]
      by_contra hne
      exact h ⟨pre, b, suf, hbefore, by rwa [ih hbefore] at hne ⊢⟩
  exact hkeep (List.append_nil _).symm

/-- As many sweeps as there are blocks, and one more, leave nothing to change. -/
theorem not_stirs_linksAfter (g : Flow) :
    ¬ g.Stirs (g.linksAfter (g.reversePostorder.length + 1)) := by
  obtain ⟨hm, hall, hpasses⟩ := g.iterate_sweep g.reversePostorder.length
  have hkeep : ∀ {pre suf}, g.reversePostorder.drop 1 = pre ++ suf →
      g.relinkAll pre (g.linksAfter (g.reversePostorder.length + 1)) =
        g.linksAfter (g.reversePostorder.length + 1) := fun hsplit =>
    relinkAll_induct (I := fun _ m => m = g.linksAfter (g.reversePostorder.length + 1)) rfl
      (by
        rintro _ b p _ hne he - hp hlt rfl
        exact hm.relink_eq_self hall hpasses hne he hp hlt) hsplit
  rintro ⟨pre, b, suf, hsplit, hne⟩
  have hdone : g.reversePostorder.drop 1 = (pre ++ [b]) ++ suf := by simp [hsplit]
  exact hne ((hkeep hdone).trans (hkeep hsplit).symm)

theorem linksAfter_eq {n k : Nat} (h : ¬ g.Stirs (g.linksAfter n)) (hnk : n ≤ k) :
    g.linksAfter k = g.linksAfter n := by
  obtain ⟨j, rfl⟩ := Nat.exists_eq_add_of_le' hnk
  rw [linksAfter, Function.iterate_add_apply]
  exact Function.iterate_fixed (sweep_eq_self h) j

end Flow

/-- The sweeps go on as long as they change a link, and there are at most as many of them as blocks
and two more: the links after the last are the dominators. At every point on the way, each meeting
point that is asked for is found, and no number and no link that is looked up for it is missing. -/
theorem Func.dominators_settle (f : Func) :
    (∃ n ≤ f.flow.reversePostorder.length + 1,
      (∀ k < n, f.flow.Stirs (f.flow.linksAfter k)) ∧ ¬ f.flow.Stirs (f.flow.linksAfter n) ∧
      f.flow.dominators.links = (f.flow.linksAfter n).filter fun l => l.1 != f.entry) ∧
    ∀ m b q d, f.flow.Relinks m b → f.flow.AsksMeeting m b q d →
      ∃ c, meetAt f.flow.reversePostorder m q d = some c ∧
        Joins f.flow.reversePostorder.idxOf? m.get? q d c := by
  constructor
  · classical
    have hend : ∃ n, ¬ f.flow.Stirs (f.flow.linksAfter n) := ⟨_, f.flow.not_stirs_linksAfter⟩
    have hbound : Nat.find hend ≤ f.flow.reversePostorder.length + 1 :=
      Nat.find_min' hend f.flow.not_stirs_linksAfter
    refine ⟨Nat.find hend, hbound, fun k hk => not_not.mp (Nat.find_min hend hk),
      Nat.find_spec hend, ?_⟩
    -- the sweeps of the definition are no fewer
    have hsquare := Nat.le_mul_self f.flow.reversePostorder.length
    rw [← Flow.linksAfter_eq (Nat.find_spec hend) (k :=
      f.flow.reversePostorder.length * f.flow.reversePostorder.length + 2) (by omega)]
    rw [Flow.dominators, Flow.settle_eq_iterate]
    rfl
  · intro m b q d hm hasks
    obtain ⟨hq, hd⟩ := hasks.linked hm.sound.rooted
    exact hm.sound.rooted.joins_meetAt hq hd

end LoopStride
