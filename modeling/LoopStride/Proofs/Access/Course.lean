import Mathlib.Data.List.Nodup
import LoopStride.Proofs.Passes.Honest

/-! The course of a work list, turn by turn. No instruction waits twice, and what waits is taken up
unless the limit is met. So whatever is queued anew on account of the handler is classified anew. -/
namespace LoopStride

/-- The candidate that an instruction is, its origin included. -/
def Inquiry.candidate? (q : Inquiry) (f : Func) (id : InstId) : Option Candidate :=
  match f.classify q.accesses q.oracle q.config.policy id with
  | .ok (.recurrence degree r true, _) =>
    match f.originOf q.oracle r.header id with
    | .ok origin => some ⟨id, degree, r, origin, q.gain⟩
    | .error _ => none
  | _ => none

theorem Inquiry.candidate?_eq_some_iff {q : Inquiry} {f : Func} {id : InstId} {c : Candidate} :
    q.candidate? f id = some c ↔
      (∃ notes, f.classify q.accesses q.oracle q.config.policy id =
        .ok (.recurrence c.degree c.descriptor true, notes)) ∧
      f.originOf q.oracle c.descriptor.header id = .ok c.origin ∧
      c.instruction = id ∧ c.gain = q.gain := by
  rw [candidate?]
  constructor
  · intro h
    split at h
    · next degree r notes hclass =>
      split at h
      · next origin horigin =>
        cases h
        exact ⟨⟨notes, hclass⟩, horigin, rfl, rfl⟩
      · cases h
    · cases h
  · rintro ⟨⟨notes, hclass⟩, horigin, rfl, hgain⟩
    rw [hclass]
    dsimp only
    rw [horigin, ← hgain]

/-! ### The queue -/

namespace Worklist
variable {η : Type} {q : Inquiry} {w : Worklist η} {id : InstId} {rest : List InstId}

/-- The queue holds no instruction twice, and what is said to wait is what it holds. -/
structure InStep (w : Worklist η) : Prop where
  nodup : w.queue.Nodup
  mem_queued_iff : ∀ x, x ∈ w.queued ↔ x ∈ w.queue

theorem inStep_start {handler : η} {f : Func} (hf : f.listedIds.Nodup) :
    (start q handler f).InStep :=
  ⟨hf.filter _, fun _ => Iff.rfl⟩

theorem InStep.next (h : w.InStep) (hq : w.queue = id :: rest) : (w.next id rest).InStep := by
  have hcons := hq ▸ h.nodup
  obtain ⟨hid, hrest⟩ := List.nodup_cons.mp hcons
  refine ⟨hrest, fun x => ?_⟩
  change x ∈ w.queued.filter (· != id) ↔ x ∈ rest
  rw [List.mem_filter, h.mem_queued_iff, hq, List.mem_cons, bne_iff_ne]
  constructor
  · exact fun hx => hx.1.resolve_left hx.2
  · exact fun hx => ⟨.inr hx, fun he => hid (he ▸ hx)⟩

theorem InStep.enqueue (h : w.InStep) (id : InstId) : (w.enqueue id).InStep ∧
    ∀ x, x ∈ (w.enqueue id).queue ↔ x ∈ w.queue ∨ x = id := by
  rw [Worklist.enqueue]
  by_cases hid : id ∈ w.queued
  · rw [if_pos hid]
    have hmem := (h.mem_queued_iff id).mp hid
    exact ⟨h, fun x => ⟨.inl, fun hx => hx.elim (fun hx => hx) fun he => he ▸ hmem⟩⟩
  · rw [if_neg hid]
    have hnot : id ∉ w.queue := fun hmem => hid ((h.mem_queued_iff id).mpr hmem)
    refine ⟨⟨?_, fun x => ?_⟩, fun x => by simp⟩
    · apply List.Nodup.append h.nodup (List.nodup_singleton id)
      exact List.disjoint_singleton.mpr hnot
    · simp [h.mem_queued_iff, or_comm]

theorem InStep.foldl_enqueue (h : w.InStep) (ids : List InstId) :
    (ids.foldl Worklist.enqueue w).InStep ∧
    ∀ x, x ∈ (ids.foldl Worklist.enqueue w).queue ↔ x ∈ w.queue ∨ x ∈ ids := by
  induction ids generalizing w with
  | nil => exact ⟨h, fun x => by simp⟩
  | cons id ids ih =>
    obtain ⟨hstep, hmem⟩ := h.enqueue id
    obtain ⟨hrest, hmem'⟩ := ih hstep
    refine ⟨hrest, fun x => ?_⟩
    rw [List.foldl_cons, hmem', hmem, List.mem_cons, or_assoc]

theorem InStep.enqueueReaders (h : w.InStep) (id : InstId) : (w.enqueueReaders q id).InStep ∧
    ∀ x, x ∈ (w.enqueueReaders q id).queue ↔
      x ∈ w.queue ∨ x ∈ w.func.users id ∧ q.isRelevant w.func x = true := by
  obtain ⟨hstep, hmem⟩ := h.foldl_enqueue ((w.func.users id).filter (q.isRelevant w.func))
  refine ⟨hstep, fun x => ?_⟩
  rw [← List.mem_filter]
  exact hmem x

/-! ### Verdicts -/

/-- The verdict on an instruction takes the place of the one before. -/
def record (w : Worklist η) (id : InstId) (verdict : Classification) : Worklist η :=
  { w with latest := (id, verdict) :: w.latest.filter fun e => e.1 != id }

theorem lookup_record (w : Worklist η) (id x : InstId) (verdict : Classification) :
    (w.record id verdict).latest.lookup x =
      if x = id then some verdict else w.latest.lookup x := by
  have hfilter : ∀ entries : List (InstId × Classification), x ≠ id →
      (entries.filter fun e => e.1 != id).lookup x = entries.lookup x := by
    intro entries hx
    induction entries with
    | nil => rfl
    | cons e entries ih =>
      by_cases he : e.1 = id
      · rw [List.filter_cons_of_neg (by simp [he]), ih, List.lookup_cons,
          beq_false_of_ne (he ▸ hx)]
      · rw [List.filter_cons_of_pos (by simp [he]), List.lookup_cons, List.lookup_cons, ih]
  rw [record, List.lookup_cons]
  by_cases hx : x = id
  · rw [if_pos hx, beq_iff_eq.mpr hx]
  · rw [if_neg hx, beq_false_of_ne hx]
    exact hfilter _ hx

theorem mem_foldl_distinct {ids seen : List InstId} {x : InstId} :
    x ∈ ids.foldl (fun ids id => if id ∈ ids then ids else ids ++ [id]) seen ↔
      x ∈ seen ∨ x ∈ ids := by
  induction ids generalizing seen with
  | nil => simp
  | cons id ids ih =>
    rw [List.foldl_cons, ih, List.mem_cons, ← or_assoc]
    apply or_congr_left
    by_cases hid : id ∈ seen
    · rw [if_pos hid]
      exact ⟨.inl, fun hx => hx.elim (fun hx => hx) fun he => he ▸ hid⟩
    · rw [if_neg hid, List.mem_append, List.mem_singleton]

theorem lookup_classifications (w : Worklist η) (x : InstId) : w.classifications.lookup x =
    if x ∈ w.func.listedIds then w.latest.lookup x else none := by
  have key : ∀ ids : List InstId,
      (ids.filterMap fun id => (w.latest.lookup id).map (id, ·)).lookup x =
        if x ∈ ids then w.latest.lookup x else none := by
    intro ids
    induction ids with
    | nil => rfl
    | cons id ids ih =>
      rw [List.filterMap_cons]
      cases hid : w.latest.lookup id with
      | none =>
        rw [Option.map_none, ih]
        by_cases hx : x = id
        · rw [hx, hid, ite_self, ite_self]
        · simp only [List.mem_cons, hx, false_or]
      | some verdict =>
        rw [Option.map_some, List.lookup_cons, ih]
        by_cases hx : x = id
        · rw [beq_iff_eq.mpr hx, hx, if_pos List.mem_cons_self, hid]
        · simp only [beq_false_of_ne hx, List.mem_cons, hx, false_or]
  rw [classifications, key]
  apply if_congr _ rfl rfl
  rw [mem_foldl_distinct, or_iff_right List.not_mem_nil]

theorem foldl_distinct_of_nodup {ids seen : List InstId} (h : (seen ++ ids).Nodup) :
    ids.foldl (fun ids id => if id ∈ ids then ids else ids ++ [id]) seen = seen ++ ids := by
  induction ids generalizing seen with
  | nil => exact (List.append_nil seen).symm
  | cons id ids ih =>
    have hid : id ∉ seen := fun hmem =>
      (List.nodup_append.mp h).2.2 id hmem id List.mem_cons_self rfl
    rw [List.append_cons] at h
    rw [List.foldl_cons, if_neg hid, ih h, ← List.append_cons]

/-- Of a list without duplicates only those elements count that yield something. -/
theorem filterMap_of_sublist {β : Type} {g : InstId → Option β} {ids all : List InstId}
    (h : ids.Sublist all) (hn : all.Nodup) (hnone : ∀ x ∈ all, x ∉ ids → g x = none) :
    all.filterMap g = ids.filterMap g := by
  induction h with
  | slnil => rfl
  | cons x h ih =>
    obtain ⟨hx, hn⟩ := List.nodup_cons.mp hn
    obtain ⟨hnone, hrest⟩ := List.forall_mem_cons.mp hnone
    rw [List.filterMap_cons_none (hnone fun hmem => hx (h.subset hmem)), ih hn hrest]
  | cons_cons x h ih =>
    obtain ⟨hx, hn⟩ := List.nodup_cons.mp hn
    have hrest := ih hn fun y hy hnot => hnone y (List.mem_cons_of_mem x hy) fun hmem =>
      (List.mem_cons.mp hmem).elim (fun he => hx (he ▸ hy)) hnot
    rw [List.filterMap_cons, List.filterMap_cons, hrest]

/-- On a function that lists each instruction once, the classifications of those that were taken up
are told in the order of the listing. -/
theorem classifications_eq {ids : List InstId} (hn : w.func.listedIds.Nodup)
    (hids : ids.Sublist w.func.listedIds) (hnone : ∀ x ∉ ids, w.latest.lookup x = none) :
    w.classifications = ids.filterMap fun id => (w.latest.lookup id).map (id, ·) := by
  rw [classifications, foldl_distinct_of_nodup hn, List.nil_append]
  exact filterMap_of_sublist hids hn fun x _ hx => by rw [hnone x hx, Option.map_none]

end Worklist

section
variable {η : Type} [Handler η]

/-- Whatever it is handed, the handler changes functions by growing them alone. -/
def Handler.Extends (h : η) : Prop :=
  ∀ h', Becomes h h' → ∀ (f : Func) c, f.Grows (Handler.handle h' f c).func

theorem Handler.Extends.next {h : η} (hh : Handler.Extends h) (f : Func) (c : Candidate) :
    Handler.Extends (Handler.handle h f c).handler :=
  fun h' hb => hh h' (.head ⟨f, c, rfl⟩ hb)

/-! ### What a step can do -/

namespace Worklist
variable {q : Inquiry} {w w' : Worklist η} {id : InstId} {verdict : Classification} {n : Nat}

def handOver (w : Worklist η) (c : Candidate) (notes : List Note) : Worklist η :=
  { w with
    handler := (Handler.handle w.handler w.func c).handler
    func := (Handler.handle w.handler w.func c).func
    notes }

def keep (w : Worklist η) (c : Candidate) : Worklist η :=
  { w with candidates := w.candidates ++ [c] }

/-- The instruction is a candidate that the handler acts on. -/
def ActsOn (q : Inquiry) (w : Worklist η) (id : InstId) : Prop :=
  ∃ c, q.candidate? w.func id = some c ∧ (Handler.handle w.handler w.func c).result = .ok true

/-- What a step that succeeds makes of a work list: its instruction is no candidate, or the handler
declines it, or the handler acts on it and its readers are queued. -/
inductive Settles (q : Inquiry) (w : Worklist η) (id : InstId) (verdict : Classification) :
    Worklist η → Prop where
  | passed (notes : List Note) (hc : q.candidate? w.func id = none)
      (hv : verdict.isCandidate = false) :
      Settles q w id verdict ({ w with notes }.record id verdict)
  | declined (c : Candidate) (notes : List Note) (hc : q.candidate? w.func id = some c)
      (hr : (Handler.handle w.handler w.func c).result = .ok false) :
      Settles q w id verdict (((w.handOver c notes).keep c).record id verdict)
  | acted (c : Candidate) (notes : List Note) (hc : q.candidate? w.func id = some c)
      (hr : (Handler.handle w.handler w.func c).result = .ok true) :
      Settles q w id verdict
        ((({ w.handOver c notes with changed := true }.enqueueReaders q id).keep c).record
          id verdict)

theorem settles_of_settle (hs : settle q w id = (w', none)) : ∃ verdict notes,
    w.func.classify q.accesses q.oracle q.config.policy id = .ok (verdict, notes) ∧
      Settles q w id verdict w' := by
  rw [settle] at hs
  cases hclass : w.func.classify q.accesses q.oracle q.config.policy id with
  | error e =>
    rw [hclass] at hs
    cases hs
  | ok answer =>
    obtain ⟨verdict, notes⟩ := answer
    rw [hclass] at hs
    refine ⟨verdict, notes, rfl, ?_⟩
    cases verdict with
    | ineligible reason =>
      cases hs
      exact .passed _ (by rw [Inquiry.candidate?, hclass]) rfl
    | recurrence degree r isCandidate =>
      cases isCandidate with
      | false =>
        cases hs
        exact .passed _ (by rw [Inquiry.candidate?, hclass]) rfl
      | true =>
        dsimp only at hs
        rw [offer] at hs
        dsimp only at hs
        cases horigin : w.func.originOf q.oracle r.header id with
        | error e =>
          rw [horigin] at hs
          cases hs
        | ok origin =>
          have hc : q.candidate? w.func id = some ⟨id, degree, r, origin, q.gain⟩ :=
            Inquiry.candidate?_eq_some_iff.mpr ⟨⟨notes, hclass⟩, horigin, rfl, rfl⟩
          rw [horigin] at hs
          dsimp only at hs
          cases hr : (Handler.handle w.handler w.func ⟨id, degree, r, origin, q.gain⟩).result with
          | error e =>
            rw [hr] at hs
            cases hs
          | ok acted =>
            rw [hr] at hs
            cases acted with
            | false =>
              cases hs
              exact .declined _ _ hc hr
            | true =>
              cases hs
              exact .acted _ _ hc hr

theorem Settles.tally (hs : Settles q w id verdict w') : w'.steps = w.steps ∧
    w'.latest = (id, verdict) :: w.latest.filter (fun e => e.1 != id) ∧
    w'.candidates = w.candidates ++ (q.candidate? w.func id).toList := by
  cases hs with
  | passed notes hc =>
    rw [hc]
    exact ⟨rfl, rfl, (List.append_nil _).symm⟩
  | declined c notes hc =>
    rw [hc]
    exact ⟨rfl, rfl, rfl⟩
  | acted c notes hc =>
    rw [hc, enqueueReaders_frame]
    exact ⟨rfl, rfl, rfl⟩

/-- A step that succeeds comes to know the origin of each candidate. -/
theorem Settles.isCandidate_eq_false (hs : Settles q w id verdict w')
    (hnone : q.candidate? w.func id = none) : verdict.isCandidate = false := by
  cases hs with
  | passed _ _ hv => exact hv
  | declined c _ hc => cases hc.symm.trans hnone
  | acted c _ hc => cases hc.symm.trans hnone

theorem Settles.changed_iff (hs : Settles q w id verdict w') :
    w'.changed = true ↔ w.changed = true ∨ w.ActsOn q id := by
  cases hs with
  | passed notes hc =>
    have hnot : ¬ w.ActsOn q id := fun ⟨c, hc', _⟩ => by cases hc.symm.trans hc'
    exact (or_iff_left hnot).symm
  | declined c notes hc hr =>
    have hnot : ¬ w.ActsOn q id := by
      intro ⟨c', hc', hr'⟩
      obtain rfl := Option.some.inj (hc.symm.trans hc')
      cases hr.symm.trans hr'
    exact (or_iff_left hnot).symm
  | acted c notes hc hr =>
    rw [enqueueReaders_frame]
    exact ⟨fun _ => .inr ⟨c, hc, hr⟩, fun _ => rfl⟩

theorem Settles.grows (hs : Settles q w id verdict w') (hh : Handler.Extends w.handler) :
    Handler.Extends w'.handler ∧ w.func.Grows w'.func := by
  cases hs with
  | passed => exact ⟨hh, .refl⟩
  | declined c => exact ⟨hh.next _ c, hh _ .refl _ c⟩
  | acted c =>
    rw [enqueueReaders_frame]
    exact ⟨hh.next _ c, hh _ .refl _ c⟩

/-- Nothing leaves the queue, and what the handler acted on brings in its readers. -/
theorem Settles.queue (hs : Settles q w id verdict w') (h : w.InStep) : w'.InStep ∧
    (∀ x ∈ w.queue, x ∈ w'.queue) ∧
    (w.ActsOn q id → ∀ x ∈ w'.func.users id, q.isRelevant w'.func x = true → x ∈ w'.queue) := by
  have hchanged := hs.changed_iff
  cases hs with
  | passed notes hc =>
    refine ⟨⟨h.nodup, h.mem_queued_iff⟩, fun x hx => hx, fun ⟨c, hc', _⟩ => ?_⟩
    cases hc.symm.trans hc'
  | declined c notes hc hr =>
    refine ⟨⟨h.nodup, h.mem_queued_iff⟩, fun x hx => hx, fun ⟨c', hc', hr'⟩ => ?_⟩
    obtain rfl := Option.some.inj (hc.symm.trans hc')
    cases hr.symm.trans hr'
  | acted c notes =>
    have hover : InStep { w.handOver c notes with changed := true } := ⟨h.nodup, h.mem_queued_iff⟩
    obtain ⟨hstep, hmem⟩ := hover.enqueueReaders (q := q) id
    refine ⟨⟨hstep.nodup, hstep.mem_queued_iff⟩, fun x hx => (hmem x).mpr (.inl hx), ?_⟩
    intro _ x hx hr
    apply (hmem x).mpr
    rw [enqueueReaders_frame] at hx hr
    exact .inr ⟨hx, hr⟩

end Worklist

/-! ### Turns -/

/-- A turn of a work list: the state before it, the instruction taken up, and the state after. -/
structure Turn (η : Type) where
  before : Worklist η
  id : InstId
  after : Worklist η

namespace Turn
variable {q : Inquiry} {t : Turn η} {x : InstId}

/-- The turn takes its instruction from the front of the queue, and the step succeeds. -/
def Taken (q : Inquiry) (t : Turn η) : Prop :=
  ∃ rest, t.before.queue = t.id :: rest ∧ (t.before.next t.id rest).settle q t.id = (t.after, none)

def Acted (q : Inquiry) (t : Turn η) : Prop := t.before.ActsOn q t.id

theorem Taken.settles (ht : t.Taken q) : ∃ rest verdict notes, t.before.queue = t.id :: rest ∧
    t.before.func.classify q.accesses q.oracle q.config.policy t.id = .ok (verdict, notes) ∧
    (t.before.next t.id rest).Settles q t.id verdict t.after := by
  obtain ⟨rest, hq, hs⟩ := ht
  obtain ⟨verdict, notes, hclass, hsettles⟩ := Worklist.settles_of_settle hs
  exact ⟨rest, verdict, notes, hq, hclass, hsettles⟩

theorem Taken.steps (ht : t.Taken q) : t.after.steps = t.before.steps + 1 := by
  obtain ⟨_, _, _, -, -, hs⟩ := ht.settles
  exact hs.tally.1

theorem Taken.candidates (ht : t.Taken q) :
    t.after.candidates = t.before.candidates ++ (q.candidate? t.before.func t.id).toList := by
  obtain ⟨_, _, _, -, -, hs⟩ := ht.settles
  exact hs.tally.2.2

/-- The instruction is classified, and the last verdicts on the others stay. -/
theorem Taken.verdict (ht : t.Taken q) : ∃ verdict notes,
    t.before.func.classify q.accesses q.oracle q.config.policy t.id = .ok (verdict, notes) ∧
    (q.candidate? t.before.func t.id = none → verdict.isCandidate = false) ∧
    ∀ x, t.after.latest.lookup x = if x = t.id then some verdict else t.before.latest.lookup x := by
  obtain ⟨_, verdict, notes, -, hclass, hs⟩ := ht.settles
  refine ⟨verdict, notes, hclass, hs.isCandidate_eq_false, fun x => ?_⟩
  rw [hs.tally.2.1]
  exact Worklist.lookup_record _ _ _ _

theorem Taken.changed_iff (ht : t.Taken q) :
    t.after.changed = true ↔ t.before.changed = true ∨ t.Acted q := by
  obtain ⟨_, _, _, -, -, hs⟩ := ht.settles
  exact hs.changed_iff

theorem Taken.grows (ht : t.Taken q) (hh : Handler.Extends t.before.handler) :
    Handler.Extends t.after.handler ∧ t.before.func.Grows t.after.func := by
  obtain ⟨_, _, _, -, -, hs⟩ := ht.settles
  exact hs.grows hh

/-- Only the instruction taken up leaves the queue, and what was acted on brings in its readers, of
which it may be one itself. -/
theorem Taken.queue (ht : t.Taken q) (h : t.before.InStep) : t.after.InStep ∧
    (∀ x ∈ t.before.queue, x = t.id ∨ x ∈ t.after.queue) ∧
    (t.Acted q → ∀ x ∈ t.after.func.users t.id, q.isRelevant t.after.func x = true →
      x ∈ t.after.queue) := by
  obtain ⟨_, _, _, hq, -, hs⟩ := ht.settles
  obtain ⟨hstep, hkept, hreaders⟩ := hs.queue (h.next hq)
  refine ⟨hstep, fun x hx => ?_, hreaders⟩
  rw [hq, List.mem_cons] at hx
  exact hx.imp_right (hkept x)

end Turn

/-! ### Courses -/

/-- The turns that lead from one work list to another. -/
inductive Course (q : Inquiry) : Worklist η → List (Turn η) → Worklist η → Prop where
  | nil (w : Worklist η) : Course q w [] w
  | cons {t : Turn η} {turns : List (Turn η)} {w : Worklist η} (taken : t.Taken q)
      (rest : Course q t.after turns w) : Course q t.before (t :: turns) w

namespace Course
variable {q : Inquiry} {w w' : Worklist η} {turns earlier later : List (Turn η)} {t : Turn η}
  {x : InstId}

theorem steps (h : Course q w turns w') : w'.steps = w.steps + turns.length := by
  induction h with
  | nil w => rfl
  | cons ht _ ih =>
    rw [ih, ht.steps, List.length_cons]
    omega

theorem changed_iff (h : Course q w turns w') :
    w'.changed = true ↔ w.changed = true ∨ ∃ t ∈ turns, t.Acted q := by
  induction h with
  | nil w => simp
  | cons ht _ ih => rw [ih, ht.changed_iff, List.exists_mem_cons_iff, or_assoc]

theorem grows (h : Course q w turns w') (hh : Handler.Extends w.handler) :
    w.func.Grows w'.func := by
  induction h with
  | nil w => exact .refl
  | cons ht _ ih =>
    obtain ⟨hh', hgrows⟩ := ht.grows hh
    exact hgrows.trans (ih hh')

theorem inStep (h : Course q w turns w') (hw : w.InStep) :
    w'.InStep ∧ ∀ t ∈ turns, t.before.InStep := by
  induction h with
  | nil w => exact ⟨hw, fun _ ht => absurd ht List.not_mem_nil⟩
  | cons ht _ ih =>
    obtain ⟨hlast, hrest⟩ := ih (ht.queue hw).1
    exact ⟨hlast, List.forall_mem_cons.mpr ⟨hw, hrest⟩⟩

/-- What waits is taken up or still waits at the end. -/
theorem serves (h : Course q w turns w') (hw : w.InStep) (hx : x ∈ w.queue) :
    x ∈ w'.queue ∨ ∃ t ∈ turns, t.id = x := by
  -- along the course `x` stays in the queue until its own turn
  induction h with
  | nil w => exact .inl hx
  | @cons t _ _ ht _ ih =>
    obtain ⟨hstep, hkept, -⟩ := ht.queue hw
    rw [List.exists_mem_cons_iff]
    by_cases hid : x = t.id
    · exact .inr (.inl hid.symm)
    · exact (ih hstep ((hkept x hx).resolve_left hid)).imp_right .inr

/-- A verdict once given is replaced but never lost. -/
theorem isSome_lookup (h : Course q w turns w')
    (hx : (w.latest.lookup x).isSome ∨ ∃ t ∈ turns, t.id = x) :
    (w'.latest.lookup x).isSome := by
  induction h with
  | nil w => simpa using hx
  | @cons t _ _ ht _ ih =>
    obtain ⟨verdict, notes, -, -, hlatest⟩ := ht.verdict
    apply ih
    rw [hlatest]
    by_cases hid : x = t.id
    · exact .inl (by rw [if_pos hid]; rfl)
    · rw [if_neg hid]
      rw [List.exists_mem_cons_iff] at hx
      exact hx.imp_right fun hx => hx.resolve_left (Ne.symm hid)

/-- A course can be cut at any of its turns. -/
theorem of_append (h : Course q w (earlier ++ t :: later) w') :
    t.Taken q ∧ Course q t.after later w' := by
  induction earlier generalizing w with
  | nil =>
    cases h with
    | cons ht hrest => exact ⟨ht, hrest⟩
  | cons t' earlier ih =>
    cases h with
    | cons _ hrest => exact ih hrest

/-- The relevant readers of what the handler acted on are taken up later on, or still wait. -/
theorem serves_readers (h : Course q w (earlier ++ t :: later) w') (hw : w.InStep)
    (ha : t.Acted q) (hx : x ∈ t.after.func.users t.id)
    (hr : q.isRelevant t.after.func x = true) : x ∈ w'.queue ∨ ∃ t' ∈ later, t'.id = x := by
  obtain ⟨ht, hrest⟩ := h.of_append
  have hbefore : t.before.InStep :=
    (h.inStep hw).2 t (List.mem_append_right _ List.mem_cons_self)
  obtain ⟨hstep, -, hreaders⟩ := ht.queue hbefore
  exact hrest.serves hstep (hreaders ha x hx hr)

end Course

/-- A run that does not fail is a course. It stops short of an empty queue at the limit alone. -/
theorem Worklist.exists_course {q : Inquiry} {n : Nat} {w : Worklist η}
    (h : ∀ e, (run q n w).2 ≠ .failed e) : ∃ turns, Course q w turns (run q n w).1 ∧
      turns.length ≤ n ∧ ((run q n w).2 = .limited ↔ (run q n w).1.queue ≠ []) ∧
      ((run q n w).2 = .limited → turns.length = n) := by
  induction n generalizing w with
  | zero =>
    refine ⟨[], ?_⟩
    rw [run]
    split
    · next hq =>
      exact ⟨.nil w, Nat.le_refl _, ⟨fun he => Ending.noConfusion he,
        fun hne => absurd (List.isEmpty_iff.mp hq) hne⟩, fun _ => rfl⟩
    · next hq =>
      exact ⟨.nil w, Nat.le_refl _, ⟨fun _ hnil => hq (List.isEmpty_iff.mpr hnil),
        fun _ => rfl⟩, fun _ => rfl⟩
  | succ n ih =>
    rw [run] at h ⊢
    cases hq : w.queue with
    | nil =>
      exact ⟨[], .nil w, Nat.zero_le _, ⟨fun he => Ending.noConfusion he,
        fun hne => absurd hq hne⟩, fun he => Ending.noConfusion he⟩
    | cons id rest =>
      rw [hq] at h
      dsimp only at h ⊢
      cases hs : settle q (w.next id rest) id with
      | mk w' failure? =>
        rw [hs] at h
        cases failure? with
        | some e => exact absurd rfl (h e)
        | none =>
          obtain ⟨turns, hcourse, hlength, hlimited, hfull⟩ := ih h
          refine ⟨⟨w, id, w'⟩ :: turns, ?_, ?_, hlimited, fun he => ?_⟩
          · exact .cons (t := ⟨w, id, w'⟩) ⟨rest, hq, hs⟩ hcourse
          · exact Nat.succ_le_succ hlength
          · rw [List.length_cons, hfull he]

/-! ### The pass -/

/-- The report on a work list that started on `f` and went through these turns to `w`: no step is
uncounted, and no instruction that was queued is forgotten. -/
structure AccessReport.IsThorough (r : AccessReport) (q : Inquiry) (f : Func)
    (turns : List (Turn η)) (w : Worklist η) : Prop where
  steps_eq : r.steps = turns.length
  steps_le : r.steps ≤ q.config.maxSteps
  waits_once : w.queue.Nodup ∧ ∀ t ∈ turns, t.before.queue.Nodup
  hitLimit_iff : r.hitLimit = true ↔ w.queue ≠ []
  classified : r.hitLimit = false → ∀ id ∈ q.relevant f,
    (∃ t ∈ turns, t.id = id) ∧ (r.classification? id).isSome
  /-- Where the handler acts, each reader that matters then has a later turn. -/
  reclassified : r.hitLimit = false → ∀ earlier t later, turns = earlier ++ t :: later →
    t.Acted q → ∀ user ∈ t.after.func.users t.id, q.isRelevant t.after.func user = true →
      ∃ t' ∈ later, t'.id = user
  changed_iff : r.changed = true ↔ ∃ t ∈ turns, t.Acted q

namespace AccessPass
variable {p : AccessPass η} {f : Func} {a : Analyses} {changed : Bool}

/-- A run of the pass that succeeds is a course that starts on the function and ends at the limit
or with nothing left. -/
theorem exists_course (hrun : (p.run f a).result = .ok changed) :
    ∃ oracle gain limited turns, prerequisites p.config a = .ok (oracle, gain) ∧
      let q : Inquiry := ⟨p.config, (f.traceAccesses p.config).1, oracle, gain⟩
      let w := (Worklist.run q p.config.maxSteps (.start q p.handler f)).1
      Course q (.start q p.handler f) turns w ∧ turns.length ≤ p.config.maxSteps ∧
        (limited = true ↔ w.queue ≠ []) ∧ (limited = true → turns.length = p.config.maxSteps) ∧
        (p.run f a).pass.reports = p.reports ++ [.ofWorklist q.accesses w limited] ∧
        (p.run f a).func = w.func ∧ changed = w.changed := by
  rcases p.run_cases f a with ⟨e, -, -, -, herr, -⟩ |
    ⟨oracle, gain, hpre, -, hfunc, ⟨e, -, herr, -⟩ | ⟨limited, hend, hok, hreports⟩⟩
  · cases herr.symm.trans hrun
  · cases herr.symm.trans hrun
  · set q : Inquiry := ⟨p.config, (f.traceAccesses p.config).1, oracle, gain⟩
    obtain ⟨turns, hcourse, hlength, hlimited, hfull⟩ := Worklist.exists_course
      (q := q) (n := p.config.maxSteps) (w := .start q p.handler f)
      (fun e he => by cases limited <;> cases hend.symm.trans he)
    have hlimit : limited = true ↔
        (Worklist.run q p.config.maxSteps (.start q p.handler f)).2 = .limited := by
      rw [hend]
      cases limited <;> decide
    exact ⟨oracle, gain, limited, turns, hpre, hcourse, hlength, hlimit.trans hlimited,
      fun hl => hfull (hlimit.mp hl), hreports, hfunc,
      (Except.ok.inj (hok.symm.trans hrun)).symm⟩

/-- Whatever the handler answers, a run that succeeds is a course of turns that loses no work. -/
theorem run_thorough (p : AccessPass η) (hh : Handler.Extends p.handler) (f : Func)
    (hf : f.listedIds.Nodup) (a : Analyses) {changed : Bool}
    (hrun : (p.run f a).result = .ok changed) :
    ∃ oracle gain limited turns, prerequisites p.config a = .ok (oracle, gain) ∧
      let q : Inquiry := ⟨p.config, (f.traceAccesses p.config).1, oracle, gain⟩
      let w := (Worklist.run q p.config.maxSteps (.start q p.handler f)).1
      let report := AccessReport.ofWorklist q.accesses w limited
      Course q (.start q p.handler f) turns w ∧ report.IsThorough q f turns w ∧
        (p.run f a).pass.reports = p.reports ++ [report] ∧
        (p.run f a).func = w.func ∧ changed = report.changed := by
  obtain ⟨oracle, gain, limited, turns, hpre, hcourse, hlength, hlimit, -, hreports, hfunc,
    hchanged⟩ := exists_course hrun
  refine ⟨oracle, gain, limited, turns, hpre, hcourse, ?_, hreports, hfunc, hchanged⟩
  set q : Inquiry := ⟨p.config, (f.traceAccesses p.config).1, oracle, gain⟩
  set w := (Worklist.run q p.config.maxSteps (.start q p.handler f)).1
  have hstart : (Worklist.start q p.handler f).InStep := Worklist.inStep_start hf
  have hsteps : w.steps = turns.length := hcourse.steps.trans (Nat.zero_add _)
  have hdrained : limited = false → ∀ x, x ∉ w.queue := by
    intro hl x hx
    have hlimit' := hlimit.mpr (List.ne_nil_of_mem hx)
    cases hl.symm.trans hlimit'
  exact
    { steps_eq := hsteps
      steps_le := Nat.le_trans (Nat.le_of_eq hsteps) hlength
      waits_once := ⟨(hcourse.inStep hstart).1.nodup,
        fun t ht => ((hcourse.inStep hstart).2 t ht).nodup⟩
      hitLimit_iff := hlimit
      classified := fun hl id hid => by
        have hturn := (hcourse.serves hstart hid).resolve_left (hdrained hl id)
        refine ⟨hturn, ?_⟩
        have hlisted : id ∈ w.func.listedIds :=
          (hcourse.grows hh).mem_listedIds (List.mem_filter.mp hid).1
        change (w.classifications.lookup id).isSome
        rw [Worklist.lookup_classifications, if_pos hlisted]
        exact hcourse.isSome_lookup (.inr hturn)
      reclassified := fun hl earlier t later he ha user huser hr =>
        ((he ▸ hcourse).serves_readers hstart ha huser hr).resolve_left (hdrained hl user)
      changed_iff := hcourse.changed_iff.trans (or_iff_right Bool.false_ne_true) }

end AccessPass
end

/-- Forms an address in the header of a loop and another one from it in the latch, which is listed
ahead of the header. -/
def latchListedFirst : Func where
  name := "latch_listed_first"
  params := #[]
  blocks := #[
    { terminator := .jump 2 },
    { listing := [4, 5, 6, 7], terminator := .branch (.result 7) 2 3 },
    { listing := [0, 1, 2, 3], terminator := .jump 1 },
    { terminator := .ret none }]
  entry := 0
  arena := #[
    ⟨.phi (.int 64) [(0, .int 0), (1, .result 6)], 2⟩,
    ⟨.arith .mul (.int 64) (.result 0) (.int 4), 2⟩,
    ⟨.arith .add (.int 64) (.result 1) (.int 0), 2⟩,
    ⟨.cast .intToPtr (.result 2) .ptr, 2⟩,
    ⟨.arith .add (.int 64) (.result 2) (.int 8), 1⟩,
    ⟨.cast .intToPtr (.result 4) .ptr, 1⟩,
    ⟨.arith .add (.int 64) (.result 0) (.int 1), 1⟩,
    ⟨.compare .slt (.result 6) (.int 16), 1⟩]
  uses := #[(0, 1), (1, 2), (2, 3), (2, 4), (4, 5), (0, 6), (6, 7), (6, 0)]

def doublingPass : AccessPass Multiplier := ⟨{}, ⟨2⟩, .notRun, [], {}⟩

/-- What a run of the pass leaves behind, with the analyses that it declares. -/
def doubled (f : Func) : PassRun (AccessPass Multiplier) :=
  doublingPass.run f (.compute f AccessPass.usage.required default)

/-- Three additions wait at the start, and the one in the latch has two turns. -/
theorem AccessPass.run_thorough_latchListedFirst :
    (Handler.Extends doublingPass.handler ∧ latchListedFirst.listedIds.Nodup ∧
      (doubled latchListedFirst).result = .ok true) ∧
    ∃ q turns w report,
      Course q (.start q doublingPass.handler latchListedFirst) turns w ∧
      report.IsThorough q latchListedFirst turns w ∧
      (doubled latchListedFirst).pass.reports = [report] ∧
      turns.length = 4 ∧ report.hitLimit = false := by
  have hextends : Handler.Extends doublingPass.handler := (Multiplier.complies ⟨2⟩).grows
  have hlisted : latchListedFirst.listedIds.Nodup := by decide +kernel
  have hresult : (doubled latchListedFirst).result = .ok true := by decide +kernel
  have hcounts : (doubled latchListedFirst).pass.reports.map (fun r => (r.steps, r.hitLimit)) =
      [(4, false)] := by decide +kernel
  obtain ⟨oracle, gain, limited, turns, -, hcourse, hthorough, hreports, -⟩ :=
    run_thorough doublingPass hextends latchListedFirst hlisted _ hresult
  rw [doubled] at hcounts
  rw [hreports] at hcounts
  obtain ⟨hsteps, hlimit⟩ := Prod.ext_iff.mp (List.singleton_inj.mp hcounts)
  exact ⟨⟨hextends, hlisted, hresult⟩, _, turns, _, _, hcourse, hthorough, hreports,
    hthorough.steps_eq.symm.trans hsteps, hlimit⟩

end LoopStride
