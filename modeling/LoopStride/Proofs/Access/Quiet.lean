import LoopStride.Proofs.Access.Course

/-! With a handler that never acts, the work list comes to each instruction of its queue once. The
report lists what it came to in the order of the listing, and the candidates among that. -/
namespace LoopStride

def Candidate.entry (c : Candidate) : InstId × Classification :=
  (c.instruction, .recurrence c.degree c.descriptor true)

section
variable {η : Type} [Handler η]

/-- Whatever it is handed, the handler does not act. -/
structure Handler.Quiet (h : η) : Prop where
  declines : ∀ h', Becomes h h' → ∀ f c, (Handler.handle h' f c).result = .ok false
  keeps : ∀ h', Becomes h h' → ∀ f c, (Handler.handle h' f c).func = f

theorem Handler.Quiet.next {h : η} (hh : Handler.Quiet h) (f : Func) (c : Candidate) :
    Handler.Quiet (Handler.handle h f c).handler where
  declines h' hb := hh.declines h' (.head ⟨f, c, rfl⟩ hb)
  keeps h' hb := hh.keeps h' (.head ⟨f, c, rfl⟩ hb)

theorem Recorder.quiet (r : Recorder) : Handler.Quiet r where
  declines _ _ _ _ := rfl
  keeps _ _ _ _ := rfl

/-! ### Courses without an action -/

variable {q : Inquiry} {w w' : Worklist η} {t : Turn η} {turns : List (Turn η)} {x : InstId}

theorem Worklist.Settles.quiet {id : InstId} {verdict : Classification}
    (hs : Settles q w id verdict w') (hh : Handler.Quiet w.handler) :
    Handler.Quiet w'.handler ∧ w'.func = w.func ∧ w'.queue = w.queue ∧ ¬ w.ActsOn q id := by
  have hnot : ¬ w.ActsOn q id := fun ⟨c, _, hr⟩ => by cases hr.symm.trans (hh.declines _ .refl _ c)
  cases hs with
  | passed => exact ⟨hh, rfl, rfl, hnot⟩
  | declined c => exact ⟨hh.next _ c, hh.keeps _ .refl _ c, rfl, hnot⟩
  | acted c _ hc hr => exact absurd ⟨c, hc, hr⟩ hnot

/-- A turn takes its instruction off the queue and leaves the function as it is. -/
theorem Turn.Taken.quiet (ht : t.Taken q) (hh : Handler.Quiet t.before.handler) :
    Handler.Quiet t.after.handler ∧ t.after.func = t.before.func ∧
      t.before.queue = t.id :: t.after.queue ∧ ¬ t.Acted q := by
  obtain ⟨rest, verdict, notes, hq, -, hs⟩ := ht.settles
  obtain ⟨hh', hfunc, hrest, hnot⟩ := hs.quiet hh
  exact ⟨hh', hfunc, hq.trans (congrArg (List.cons t.id) hrest.symm), hnot⟩

namespace Course

theorem quiet (h : Course q w turns w') (hh : Handler.Quiet w.handler) :
    w'.func = w.func ∧ w.queue = turns.map Turn.id ++ w'.queue ∧
      w'.candidates = w.candidates ++ (turns.map Turn.id).filterMap (q.candidate? w.func) ∧
      w'.changed = w.changed := by
  induction h with
  | nil w => simp
  | @cons t turns w' ht _ ih =>
    obtain ⟨hh', hfunc, hqueue, hnot⟩ := ht.quiet hh
    obtain ⟨hfunc', hqueue', hcands, hchanged⟩ := ih hh'
    have hsame : t.after.changed = t.before.changed :=
      Bool.eq_iff_iff.mpr (ht.changed_iff.trans (or_iff_left hnot))
    refine ⟨hfunc'.trans hfunc, ?_, ?_, hchanged.trans hsame⟩
    · rw [hqueue, hqueue', List.map_cons, List.cons_append]
    · rw [hcands, ht.candidates, hfunc, List.map_cons, List.filterMap_cons, List.append_assoc]
      cases q.candidate? t.before.func t.id <;> rfl

/-- Up to a limit, the queue is taken up in its order. -/
theorem takes (h : Course q w turns w') (hh : Handler.Quiet w.handler) {n : Nat} {limited : Bool}
    (hlength : turns.length ≤ n) (hlimit : limited = true ↔ w'.queue ≠ [])
    (hfull : limited = true → turns.length = n) :
    turns.map Turn.id = w.queue.take n ∧ (limited = true ↔ n < w.queue.length) := by
  have hqueue := (h.quiet hh).2.1
  have hcount : w.queue.length = turns.length + w'.queue.length := by
    rw [hqueue, List.length_append, List.length_map]
  by_cases hnil : w'.queue = []
  · have hnot : ¬ limited = true := fun hl => hlimit.mp hl hnil
    rw [hnil, List.length_nil] at hcount
    rw [hnil, List.append_nil] at hqueue
    rw [hqueue, List.take_of_length_le (by rwa [List.length_map]), List.length_map]
    exact ⟨rfl, ⟨fun hl => absurd hl hnot, fun hlt => by omega⟩⟩
  · have hn := hfull (hlimit.mpr hnil)
    have hpos := List.length_pos_iff.mpr hnil
    refine ⟨?_, ⟨fun _ => by omega, fun _ => hlimit.mpr hnil⟩⟩
    rw [hqueue, List.take_left' ((List.length_map _).trans hn)]

/-- The last verdict on an instruction that was taken up is what its classification gives, and tells
whether it is a candidate. -/
theorem verdicts (h : Course q w turns w') (hh : Handler.Quiet w.handler) :
    (∀ x ∈ turns.map Turn.id, ∃ verdict notes,
      w.func.classify q.accesses q.oracle q.config.policy x = .ok (verdict, notes) ∧
      (q.candidate? w.func x = none → verdict.isCandidate = false) ∧
      w'.latest.lookup x = some verdict) ∧
    ∀ x ∉ turns.map Turn.id, w'.latest.lookup x = w.latest.lookup x := by
  induction h with
  | nil w => simp
  | @cons t turns w' ht _ ih =>
    obtain ⟨hh', hfunc, -⟩ := ht.quiet hh
    obtain ⟨hin, hout⟩ := ih hh'
    rw [hfunc] at hin
    obtain ⟨verdict, notes, hclass, hcand, hlatest⟩ := ht.verdict
    rw [List.map_cons]
    refine ⟨fun x hx => ?_, fun x hx => ?_⟩
    · by_cases hlater : x ∈ turns.map Turn.id
      · exact hin x hlater
      · obtain rfl := (List.mem_cons.mp hx).resolve_right hlater
        exact ⟨verdict, notes, hclass, hcand, by rw [hout _ hlater, hlatest, if_pos rfl]⟩
    · obtain ⟨hne, hlater⟩ := not_or.mp (mt List.mem_cons.mpr hx)
      rw [hout x hlater, hlatest, if_neg hne]

/-- What is left on an instruction that was taken up: its classification, and the candidate that it
is if it is one. -/
theorem entries (h : Course q w turns w') (hh : Handler.Quiet w.handler)
    (hx : x ∈ turns.map Turn.id) : ∃ verdict notes,
    (w'.latest.lookup x).map (x, ·) = some (x, verdict) ∧
      w.func.classify q.accesses q.oracle q.config.policy x = .ok (verdict, notes) ∧
      (q.candidate? w.func x).map Candidate.entry =
        (some (x, verdict)).filter fun e => e.2.isCandidate := by
  obtain ⟨verdict, notes, hclass, hnone, hlatest⟩ := (h.verdicts hh).1 x hx
  refine ⟨verdict, notes, by rw [hlatest, Option.map_some], hclass, ?_⟩
  cases hc : q.candidate? w.func x with
  | none => rw [Option.map_none, Option.filter_some_neg (by simp [hnone hc])]
  | some c =>
    obtain ⟨⟨notes', hclass'⟩, -, hinst, -⟩ := Inquiry.candidate?_eq_some_iff.mp hc
    obtain ⟨rfl, -⟩ := Prod.ext_iff.mp (Except.ok.inj (hclass.symm.trans hclass'))
    rw [Option.map_some, Option.filter_some_pos rfl, Candidate.entry, hinst]

end Course

/-! ### The report -/

/-- The report on a function that stays as it is: the relevant additions in the order of the
listing, as many as there are steps for, each with its verdict, and the candidates among them. -/
structure AccessReport.IsPlain (r : AccessReport) (q : Inquiry) (f : Func) : Prop where
  accesses_eq : r.accesses = q.accesses
  listed : r.classifications.map Prod.fst = (q.relevant f).take q.config.maxSteps
  verdicts : ∀ e ∈ r.classifications, ∃ notes,
    f.classify q.accesses q.oracle q.config.policy e.1 = .ok (e.2, notes)
  candidates_eq : r.candidates.map Candidate.entry =
    r.classifications.filter fun e => e.2.isCandidate
  candidates_once : (r.candidates.map Candidate.instruction).Nodup
  origins : ∀ c ∈ r.candidates,
    f.originOf q.oracle c.descriptor.header c.instruction = .ok c.origin ∧ c.gain = q.gain
  steps_eq : r.steps = min q.config.maxSteps (q.relevant f).length
  hitLimit_iff : r.hitLimit = true ↔ q.config.maxSteps < (q.relevant f).length
  unchanged : r.changed = false

theorem Course.isPlain {f : Func} {handler : η} {limited : Bool}
    (h : Course q (.start q handler f) turns w) (hh : Handler.Quiet handler)
    (hn : f.listedIds.Nodup) (htaken : turns.map Turn.id = (q.relevant f).take q.config.maxSteps)
    (hlimit : limited = true ↔ q.config.maxSteps < (q.relevant f).length) :
    (AccessReport.ofWorklist q.accesses w limited).IsPlain q f := by
  obtain ⟨hsame, -, hcands, hunchanged⟩ := h.quiet hh
  have hentries := fun x (hx : x ∈ turns.map Turn.id) => h.entries hh hx
  have hsub : (turns.map Turn.id).Sublist f.listedIds :=
    htaken ▸ (List.take_sublist _ _).trans List.filter_sublist
  have hclasses : w.classifications =
      (turns.map Turn.id).filterMap fun id => (w.latest.lookup id).map (id, ·) := by
    apply Worklist.classifications_eq (hsame ▸ hn) (hsame ▸ hsub)
    exact fun x hx => (h.verdicts hh).2 x hx
  have hlisted : w.classifications.map Prod.fst = turns.map Turn.id := by
    rw [hclasses, List.map_filterMap]
    refine (List.filterMap_congr fun x hx => ?_).trans List.filterMap_some
    obtain ⟨verdict, notes, he, -⟩ := hentries x hx
    rw [he, Option.map_some]
  have hverdicts : ∀ e ∈ w.classifications, ∃ notes,
      f.classify q.accesses q.oracle q.config.policy e.1 = .ok (e.2, notes) := by
    intro e he
    rw [hclasses] at he
    obtain ⟨x, hx, hentry⟩ := List.mem_filterMap.mp he
    obtain ⟨verdict, notes, hentry', hclass, -⟩ := hentries x hx
    obtain rfl := Option.some.inj (hentry'.symm.trans hentry)
    exact ⟨notes, hclass⟩
  have hcandidates : w.candidates.map Candidate.entry =
      w.classifications.filter fun e => e.2.isCandidate := by
    rw [hcands, hclasses, List.filter_filterMap]
    refine List.map_filterMap.trans (List.filterMap_congr fun x hx => ?_)
    obtain ⟨verdict, notes, he, -, hcand⟩ := hentries x hx
    rw [he]
    exact hcand
  have honce : (w.candidates.map Candidate.instruction).Nodup := by
    have hinst : w.candidates.map Candidate.instruction =
        (w.candidates.map Candidate.entry).map Prod.fst := by
      rw [List.map_map]
      rfl
    rw [hinst, hcandidates]
    exact (hn.sublist hsub).sublist (hlisted ▸ List.filter_sublist.map Prod.fst)
  have horigins : ∀ c ∈ w.candidates,
      f.originOf q.oracle c.descriptor.header c.instruction = .ok c.origin ∧ c.gain = q.gain := by
    intro c hc
    rw [hcands] at hc
    obtain ⟨x, -, hcand⟩ := List.mem_filterMap.mp hc
    obtain ⟨-, horigin, hinst, hgain⟩ := Inquiry.candidate?_eq_some_iff.mp hcand
    exact ⟨hinst ▸ horigin, hgain⟩
  have hsteps : w.steps = min q.config.maxSteps (q.relevant f).length := by
    rw [← List.length_take, ← htaken, List.length_map]
    exact h.steps.trans (Nat.zero_add _)
  exact ⟨rfl, hlisted.trans htaken, hverdicts, hcandidates, honce, horigins, hsteps, hlimit,
    hunchanged⟩

namespace AccessPass
variable {p : AccessPass η} {f : Func} {a : Analyses} {changed : Bool}

/-- A run of the pass with a quiet handler takes up the relevant additions in the order of the
listing until the limit is met. -/
theorem exists_course_of_quiet (hh : Handler.Quiet p.handler)
    (hrun : (p.run f a).result = .ok changed) :
    ∃ oracle gain limited turns, prerequisites p.config a = .ok (oracle, gain) ∧
      let q : Inquiry := ⟨p.config, (f.traceAccesses p.config).1, oracle, gain⟩
      let w := (Worklist.run q p.config.maxSteps (.start q p.handler f)).1
      Course q (.start q p.handler f) turns w ∧
        turns.map Turn.id = (q.relevant f).take q.config.maxSteps ∧
        (limited = true ↔ q.config.maxSteps < (q.relevant f).length) ∧
        (p.run f a).pass.reports = p.reports ++ [.ofWorklist q.accesses w limited] ∧
        (p.run f a).func = w.func ∧ changed = w.changed := by
  obtain ⟨oracle, gain, limited, turns, hpre, hcourse, hlength, hlimit, hfull, hreports, hfunc,
    hchanged⟩ := exists_course hrun
  obtain ⟨htaken, hlimit⟩ := hcourse.takes hh hlength hlimit hfull
  exact ⟨oracle, gain, limited, turns, hpre, hcourse, htaken, hlimit, hreports, hfunc, hchanged⟩

/-- A run that fails leaves no report, and one that succeeds leaves one. -/
theorem reports_run (p : AccessPass η) (f : Func) (a : Analyses) :
    (∃ e, (p.run f a).result = .error e ∧ (p.run f a).pass.reports = p.reports) ∨
    ∃ changed report, (p.run f a).result = .ok changed ∧
      (p.run f a).pass.reports = p.reports ++ [report] := by
  rcases p.run_cases f a with ⟨e, -, -, -, herr, hsame⟩ |
    ⟨_, _, -, -, -, ⟨e, -, herr, hsame⟩ | ⟨_, -, hok, hreports⟩⟩
  · exact .inl ⟨e, herr, hsame⟩
  · exact .inl ⟨e, herr, hsame⟩
  · exact .inr ⟨_, _, hok, hreports⟩

/-- What the pass reports with a handler that never acts. -/
theorem candidates_of_quiet {report : AccessReport} (hh : Handler.Quiet p.handler)
    (hreport : (p.run f a).pass.reports = p.reports ++ [report]) :
    ∃ oracle gain, prerequisites p.config a = .ok (oracle, gain) ∧
      let q : Inquiry := ⟨p.config, (f.traceAccesses p.config).1, oracle, gain⟩
      report.candidates = ((q.relevant f).take q.config.maxSteps).filterMap (q.candidate? f) ∧
        (report.hitLimit = true ↔ q.config.maxSteps < (q.relevant f).length) := by
  rcases p.reports_run f a with ⟨e, -, hsame⟩ | ⟨changed, _, hrun, -⟩
  · have hlength := congrArg List.length (hreport.symm.trans hsame)
    rw [List.length_append, List.length_singleton] at hlength
    omega
  · obtain ⟨oracle, gain, limited, turns, hpre, hcourse, htaken, hlimit, hreports, -⟩ :=
      exists_course_of_quiet hh hrun
    obtain rfl : report = _ :=
      List.singleton_inj.mp (List.append_cancel_left (hreport.symm.trans hreports))
    exact ⟨oracle, gain, hpre, htaken ▸ (hcourse.quiet hh).2.2.1, hlimit⟩

/-- A run that fails leaves no report, whatever its handler. On a function that lists each
instruction once, a run that succeeds with a quiet handler leaves one, which is the plain list of
verdicts. -/
theorem run_plain (p : AccessPass η) (f : Func) (a : Analyses) :
    (∀ e, (p.run f a).result = .error e → (p.run f a).pass.reports = p.reports) ∧
    (Handler.Quiet p.handler → f.listedIds.Nodup → ∀ changed,
      (p.run f a).result = .ok changed → ∃ oracle gain report,
        prerequisites p.config a = .ok (oracle, gain) ∧
        (p.run f a).pass.reports = p.reports ++ [report] ∧
        report.IsPlain ⟨p.config, (f.traceAccesses p.config).1, oracle, gain⟩ f ∧
        (p.run f a).func = f ∧ changed = false) := by
  refine ⟨fun e he => ?_, fun hh hn changed hrun => ?_⟩
  · rcases p.reports_run f a with ⟨_, -, hsame⟩ | ⟨_, _, hok, -⟩
    · exact hsame
    · cases hok.symm.trans he
  obtain ⟨oracle, gain, limited, turns, hpre, hcourse, htaken, hlimit, hreports, hfunc, hchanged⟩ :=
    exists_course_of_quiet hh hrun
  obtain ⟨hsame, -, -, hunchanged⟩ := hcourse.quiet hh
  exact ⟨oracle, gain, _, hpre, hreports, hcourse.isPlain hh hn htaken hlimit,
    hfunc.trans hsame, hchanged.trans hunchanged⟩

end AccessPass
end

def recordingPass : AccessPass Recorder := ⟨{}, {}, .notRun, [], {}⟩

/-- What the pass leaves behind on a function, with the analyses that it declares. -/
def recorded (f : Func) : List AccessReport :=
  (recordingPass.run f (.compute f AccessPass.usage.required default)).pass.reports

/-- Records, but looks at two instructions of a function at most. -/
def glancingPass : AccessPass Recorder := ⟨{ maxSteps := 2 }, {}, .notRun, [], {}⟩

def glanced (f : Func) : PassRun (AccessPass Recorder) :=
  glancingPass.run f (.compute f AccessPass.usage.required default)

/-- Of the three additions that wait, the one in the header is not looked at. -/
theorem AccessPass.run_plain_latchListedFirst :
    (Handler.Quiet glancingPass.handler ∧ latchListedFirst.listedIds.Nodup ∧
      (glanced latchListedFirst).result = .ok false) ∧
    ∃ q report, (glanced latchListedFirst).pass.reports = [report] ∧
      report.IsPlain q latchListedFirst ∧ report.hitLimit = true ∧
      report.classifications.map Prod.fst = [4, 6] := by
  have hquiet : Handler.Quiet glancingPass.handler := Recorder.quiet {}
  have hlisted : latchListedFirst.listedIds.Nodup := by decide +kernel
  have hresult : (glanced latchListedFirst).result = .ok false := by decide +kernel
  have htold : (glanced latchListedFirst).pass.reports.map
      (fun r => (r.hitLimit, r.classifications.map Prod.fst)) = [(true, [4, 6])] := by
    decide +kernel
  obtain ⟨oracle, gain, report, -, hreports, hplain, -⟩ :=
    (run_plain glancingPass latchListedFirst _).2 hquiet hlisted false hresult
  rw [glanced, hreports] at htold
  obtain ⟨hlimit, hids⟩ := Prod.ext_iff.mp (List.singleton_inj.mp htold)
  exact ⟨⟨hquiet, hlisted, hresult⟩, _, report, hreports, hplain, hlimit, hids⟩

end LoopStride
