import LoopStride.Proofs.Passes.Calls

/-! How passes are run in rounds. The calls that a run makes are told round by round: each round has
one call for every pass in the order of the list, each call goes on from what the one before it left,
and the rounds end with a failure, with the first round that changes nothing, or with the limit. The
runs on the functions of a program follow one another in the same way. -/
namespace LoopStride

/-! ### Steps one after the other -/

section
variable {α β : Type}

/-- The first step is given `x`, each other what the one before it left, and the last leaves `y`. -/
def Threads (given left : β → α) (x : α) : List β → α → Prop
  | [], y => y = x
  | s :: steps, y => given s = x ∧ Threads given left (left s) steps y

theorem threads_append {given left : β → α} {x z : α} {steps later : List β} :
    Threads given left x (steps ++ later) z ↔
      ∃ y, Threads given left x steps y ∧ Threads given left y later z := by
  induction steps generalizing x with
  | nil => simp [Threads]
  | cons s steps ih => simp [Threads, ih, and_assoc]

/-- What steps come to when a failure ends them: that failure, or whether any of them reports a
change. -/
structure Amounts (answers : List (Except Fault Bool)) (result : Except Fault Bool) : Prop where
  /-- Only the last step of all can fail. -/
  stops : ∀ answer ∈ answers.dropLast, ∃ changed, answer = .ok changed
  failed_iff : ∀ e, result = .error e ↔ .error e ∈ answers
  changed_iff : ∀ changed, result = .ok changed → (changed = true ↔ .ok true ∈ answers)

namespace Amounts
variable {answers later : List (Except Fault Bool)} {answer result : Except Fault Bool}
  {changed : Bool}

theorem nil : Amounts [] (.ok false) where
  stops _ h := by cases h
  failed_iff _ := by simp
  changed_iff _ h := by cases h; simp

theorem single (answer : Except Fault Bool) : Amounts [answer] answer where
  stops _ h := by cases h
  failed_iff e := by rw [List.mem_singleton, eq_comm]
  changed_iff changed h := by rw [h, List.mem_singleton, Except.ok.injEq, eq_comm]

theorem answers_of_ok (h : Amounts answers (.ok changed)) (hmem : answer ∈ answers) :
    ∃ changed, answer = .ok changed := by
  cases answer with
  | ok changed => exact ⟨changed, rfl⟩
  | error e => cases (h.failed_iff e).mpr hmem

theorem eq_false_of_ok (h : Amounts answers (.ok false)) (hmem : answer ∈ answers) :
    answer = .ok false := by
  obtain ⟨changed, rfl⟩ := h.answers_of_ok hmem
  cases changed with
  | false => rfl
  | true => cases (h.changed_iff false rfl).mpr hmem

/-- What follows steps without a failure adds its own changes, or its failure. -/
theorem append (h : Amounts answers (.ok changed)) (hlater : Amounts later result) :
    Amounts (answers ++ later) (result.map fun more => changed || more) where
  stops answer hmem := by
    -- without anything to follow, the last of these steps would be the last of all
    rw [List.dropLast_append] at hmem
    split at hmem
    · exact h.stops answer hmem
    · rcases List.mem_append.mp hmem with hmem | hmem
      · exact h.answers_of_ok hmem
      · exact hlater.stops answer hmem
  failed_iff e := by
    have hnone : .error e ∉ answers := fun hmem => by cases (h.failed_iff e).mpr hmem
    rw [List.mem_append, or_iff_right hnone, ← hlater.failed_iff]
    cases result <;> simp [Except.map]
  changed_iff all hall := by
    cases result with
    | error e => cases hall
    | ok more =>
      obtain rfl : (changed || more) = all := Except.ok.inj hall
      rw [Bool.or_eq_true, List.mem_append, h.changed_iff changed rfl, hlater.changed_iff more rfl]

end Amounts
end

/-! ### The calls of a run -/

section
variable {σ : Type}

/-- Number `i` of each round that gets so far. -/
def column (rounds : List (List (Call σ))) (i : Nat) : List (Call σ) :=
  rounds.filterMap fun calls => calls[i]?

theorem column_cons (calls : List (Call σ)) (rounds : List (List (Call σ))) (i : Nat) :
    column (calls :: rounds) i = column [calls] i ++ column rounds i :=
  List.filterMap_append (l := [calls])

variable [Pass σ]

namespace Call

def outcome (c : Call σ) : PassRun σ := Pass.run c.pass c.func c.analyses

def answer (c : Call σ) : Except Fault Bool := c.outcome.result

end Call

/-- The calls, round by round, that lead from passes `ws` and a function `f` to passes `ws'`, a
function `g` and a result. -/
structure Transcript (ws : List (Watched σ)) (f : Func) (rounds : List (List (Call σ)))
    (ws' : List (Watched σ)) (g : Func) (result : Except Fault Bool) : Prop where
  same_passes : ws'.length = ws.length
  /-- Number `i` of a round is a call of pass number `i`, in the state that its last call left; there
  are no other calls. -/
  called : ∀ i w w', ws[i]? = some w → ws'[i]? = some w' →
    w'.calls = w.calls ++ column rounds i ∧
      Threads Call.pass (fun c => c.outcome.pass) w.pass (column rounds i) w'.pass
  length_le : ∀ calls ∈ rounds, calls.length ≤ ws.length
  /-- A round in which no call fails has one for every pass. -/
  full : ∀ calls ∈ rounds, (∀ c ∈ calls, ∀ e, c.answer ≠ .error e) → calls.length = ws.length
  /-- The function is handed on from call to call, also from one round to the next. -/
  handed : Threads Call.func (fun c => c.outcome.func) f rounds.flatten g
  amounts : Amounts (rounds.flatten.map Call.answer) result

/-- The calls of a run that is allowed a number of rounds. -/
structure Chronicle (limit : Nat) (ws : List (Watched σ)) (f : Func)
    (rounds : List (List (Call σ))) (r : PipelineRun (Watched σ) Func) : Prop extends
    Transcript ws f rounds r.passes r.subject r.result where
  rounds_le : rounds.length ≤ limit
  /-- Another round follows only where some call changes something. -/
  goes_on : ∀ calls ∈ rounds.dropLast, ∃ c ∈ calls, c.answer = .ok true
  /-- No other round follows only after a failure, after a round without a change, or at the limit. -/
  ends : (∃ last ∈ rounds.getLast?,
      (∃ c ∈ last, ∃ e, c.answer = .error e) ∨ ∀ c ∈ last, c.answer = .ok false) ∨
    rounds.length = limit

variable {target : CostTable} {w : Watched σ} {ws ws' ws'' : List (Watched σ)} {f g h : Func}
  {a : Analyses} {c : Call σ} {calls : List (Call σ)} {rounds : List (List (Call σ))}
  {result : Except Fault Bool} {changed : Bool} {e : Fault}

namespace Transcript

theorem nil (ws : List (Watched σ)) (f : Func) : Transcript ws f [] ws f (.ok false) where
  same_passes := rfl
  called i w w' hw hw' := by
    obtain rfl := Option.some.inj (hw.symm.trans hw')
    exact ⟨(List.append_nil _).symm, rfl⟩
  length_le _ h := by cases h
  full _ h := by cases h
  handed := rfl
  amounts := .nil

theorem empty (f : Func) :
    Transcript ([] : List (Watched σ)) f [[]] [] f (.ok false) where
  same_passes := rfl
  called _ _ _ hw := by cases hw
  length_le calls h := by
    obtain rfl := List.mem_singleton.mp h
    exact Nat.le_refl 0
  full calls h _ := by
    obtain rfl := List.mem_singleton.mp h
    rfl
  handed := rfl
  amounts := .nil

theorem failing (hc : c.answer = .error e) :
    Transcript (⟨c.pass, w.calls⟩ :: ws) c.func [[c]]
      (⟨c.outcome.pass, w.calls ++ [c]⟩ :: ws) c.outcome.func (.error e) where
  same_passes := rfl
  called i v v' hv hv' := by
    cases i with
    | zero =>
      cases hv
      cases hv'
      exact ⟨rfl, rfl, rfl⟩
    | succ i =>
      obtain rfl := Option.some.inj (hv.symm.trans hv')
      exact ⟨(List.append_nil _).symm, rfl⟩
  length_le calls h := by
    obtain rfl := List.mem_singleton.mp h
    exact Nat.succ_le_succ (Nat.zero_le _)
  full calls h hfails := by
    obtain rfl := List.mem_singleton.mp h
    exact absurd hc (hfails c (List.mem_singleton.mpr rfl) e)
  handed := ⟨rfl, rfl⟩
  amounts := hc ▸ .single c.answer

/-- A call that does not fail goes before the others of its round. -/
theorem cons (hc : c.answer = .ok changed)
    (hrest : Transcript ws c.outcome.func [calls] ws' g result) :
    Transcript (⟨c.pass, w.calls⟩ :: ws) c.func [c :: calls]
      (⟨c.outcome.pass, w.calls ++ [c]⟩ :: ws') g (result.map fun later => changed || later) where
  same_passes := congrArg Nat.succ hrest.same_passes
  called i v v' hv hv' := by
    cases i with
    | zero =>
      cases hv
      cases hv'
      exact ⟨rfl, rfl, rfl⟩
    | succ i => exact hrest.called i v v' hv hv'
  length_le cs h := by
    obtain rfl := List.mem_singleton.mp h
    exact Nat.succ_le_succ (hrest.length_le calls (List.mem_singleton.mpr rfl))
  full cs h hfails := by
    obtain rfl := List.mem_singleton.mp h
    have hlater := hrest.full calls (List.mem_singleton.mpr rfl)
    exact congrArg Nat.succ (hlater fun d hd => hfails d (List.mem_cons_of_mem c hd))
  handed := ⟨rfl, hrest.handed⟩
  amounts := by
    have hfirst := Amounts.single c.answer
    rw [hc] at hfirst
    rw [List.flatten_singleton, List.map_cons, hc, ← List.singleton_append]
    exact hfirst.append (by simpa using hrest.amounts)

/-- A round that changes something goes before the others. -/
theorem append (hround : Transcript ws f [calls] ws' g (.ok true))
    (hrest : Transcript ws' g rounds ws'' h result) :
    Transcript ws f (calls :: rounds) ws'' h (result.map fun _ => true) where
  same_passes := hrest.same_passes.trans hround.same_passes
  called i w w'' hw hw'' := by
    obtain ⟨w', hw'⟩ : ∃ w', ws'[i]? = some w' := by
      have hi := (List.getElem?_eq_some_iff.mp hw).1
      exact ⟨_, List.getElem?_eq_getElem (hround.same_passes ▸ hi)⟩
    obtain ⟨hcalls, hstates⟩ := hround.called i w w' hw hw'
    obtain ⟨hlater, hthen⟩ := hrest.called i w' w'' hw' hw''
    rw [column_cons]
    refine ⟨?_, threads_append.mpr ⟨w'.pass, hstates, hthen⟩⟩
    rw [hlater, hcalls, List.append_assoc]
  length_le cs hcs := by
    rcases List.mem_cons.mp hcs with rfl | hcs
    · exact hround.length_le cs (List.mem_singleton.mpr rfl)
    · exact hround.same_passes ▸ hrest.length_le cs hcs
  full cs hcs := by
    rcases List.mem_cons.mp hcs with rfl | hcs
    · exact hround.full cs (List.mem_singleton.mpr rfl)
    · exact hround.same_passes ▸ hrest.full cs hcs
  handed := by
    have hfirst := hround.handed
    rw [List.flatten_singleton] at hfirst
    exact threads_append.mpr ⟨g, hfirst, hrest.handed⟩
  amounts := by
    have hfirst := hround.amounts
    rw [List.flatten_singleton] at hfirst
    rw [List.flatten_cons, List.map_append]
    exact hfirst.append hrest.amounts

end Transcript

theorem runRound_transcript (ws : List (Watched σ)) (f : Func) (a : Analyses) :
    ∃ calls, Transcript ws f [calls] (runRound target ws f a).1.passes
      (runRound target ws f a).1.func (runRound target ws f a).2 := by
  induction ws generalizing f a with
  | nil => exact ⟨[], .empty f⟩
  | cons w ws ih =>
    let c : Call σ := ⟨w.pass, f, a.prepare f (Pass.usage w.pass).required target⟩
    have hpass : (runPass target w f a).1.pass = ⟨c.outcome.pass, w.calls ++ [c]⟩ :=
      pass_runPass target w f a
    have hfunc : (runPass target w f a).1.func = c.outcome.func := func_runPass target w f a
    have hresult : (runPass target w f a).1.result = c.answer := result_runPass target w f a
    rw [runRound]
    dsimp only
    rw [hpass, hfunc]
    split
    · next e herr => exact ⟨[c], .failing (hresult ▸ herr)⟩
    · next changed hok =>
      obtain ⟨calls, hrest⟩ := ih c.outcome.func (runPass target w f a).2
      exact ⟨c :: calls, .cons (hresult ▸ hok) hrest⟩

namespace Chronicle
variable {limit : Nat} {notes : List Note} {r : PipelineRun (Watched σ) Func}

theorem start (ws : List (Watched σ)) (f : Func) :
    Chronicle 0 ws f [] ⟨ws, f, .ok false, notes⟩ where
  toTranscript := .nil ws f
  rounds_le := Nat.le_refl 0
  goes_on _ h := by cases h
  ends := .inr rfl

theorem failed (hround : Transcript ws f [calls] ws' g (.error e)) :
    Chronicle (limit + 1) ws f [calls] ⟨ws', g, .error e, notes⟩ where
  toTranscript := hround
  rounds_le := Nat.succ_le_succ (Nat.zero_le limit)
  goes_on _ h := by cases h
  ends := by
    have hmem := (hround.amounts.failed_iff e).mp rfl
    rw [List.flatten_singleton] at hmem
    obtain ⟨c, hc, herr⟩ := List.mem_map.mp hmem
    exact .inl ⟨calls, rfl, .inl ⟨c, hc, e, herr⟩⟩

theorem settled (hround : Transcript ws f [calls] ws' g (.ok false)) :
    Chronicle (limit + 1) ws f [calls] ⟨ws', g, .ok false, notes⟩ where
  toTranscript := hround
  rounds_le := Nat.succ_le_succ (Nat.zero_le limit)
  goes_on _ h := by cases h
  ends := by
    refine .inl ⟨calls, rfl, .inr fun c hc => hround.amounts.eq_false_of_ok ?_⟩
    rw [List.flatten_singleton]
    exact List.mem_map_of_mem hc

theorem append (hrest : Chronicle limit ws' g rounds r)
    (hround : Transcript ws f [calls] ws' g (.ok true)) :
    Chronicle (limit + 1) ws f (calls :: rounds)
      ⟨r.passes, r.subject, r.result.map fun _ => true, notes⟩ where
  toTranscript := hround.append hrest.toTranscript
  rounds_le := Nat.succ_le_succ hrest.rounds_le
  goes_on cs hcs := by
    cases rounds with
    | nil => cases hcs
    | cons next rounds =>
      rw [List.dropLast_cons_cons] at hcs
      rcases List.mem_cons.mp hcs with rfl | hcs
      · have hmem := (hround.amounts.changed_iff true rfl).mp rfl
        rw [List.flatten_singleton] at hmem
        exact List.mem_map.mp hmem
      · exact hrest.goes_on cs hcs
  ends := by
    cases rounds with
    | nil =>
      rcases hrest.ends with ⟨last, hlast, -⟩ | hlength
      · cases hlast
      · exact .inr (congrArg Nat.succ hlength)
    | cons next rounds =>
      rw [List.getLast?_cons_cons]
      exact hrest.ends.imp_right (congrArg Nat.succ)

end Chronicle

/-- What is left of the limit bounds the rounds from here on. -/
theorem runRounds_chronicle (limit left : Nat) (ws : List (Watched σ)) (f : Func) (a : Analyses) :
    ∃ rounds, Chronicle left ws f rounds (runRounds target limit left ws f a) := by
  induction left generalizing ws f a with
  | zero => exact ⟨[], .start ws f⟩
  | succ left ih =>
    obtain ⟨calls, hround⟩ := runRound_transcript ws f a
    rw [runRounds]
    dsimp only
    split
    · next e herr =>
      rw [herr] at hround
      exact ⟨[calls], .failed hround⟩
    · next hok =>
      rw [hok] at hround
      exact ⟨[calls], .settled hround⟩
    · next hok =>
      rw [hok] at hround
      obtain ⟨rounds, hrest⟩ := ih _ _ _
      exact ⟨calls :: rounds, hrest.append hround⟩

/-! ### The functions of a program -/

namespace Pipeline

/-- Each of `runs` is the run on the next of the functions by the passes as the run before left
them, and the last run leaves them as `ps`. -/
def InTurn (m : Pipeline σ) : List (PipelineRun σ Func) → List Func → List σ → Prop
  | [], _, ps => ps = m.passes
  | r :: runs, f :: fs, ps => r = m.run f ∧ { m with passes := r.passes }.InTurn runs fs ps
  | _ :: _, [], _ => False

/-- The runs on functions `fs` that lead to functions `gs` and a result. -/
structure Visits (m : Pipeline σ) (fs : List Func) (runs : List (PipelineRun σ Func))
    (r : PipelineRun σ (List Func)) : Prop where
  inTurn : m.InTurn runs fs r.passes
  /-- Where no run fails, there is one for every function. -/
  full : (∀ x ∈ runs, ∀ e, x.result ≠ .error e) → runs.length = fs.length
  /-- Functions without a run are left as they are. -/
  subject_eq : r.subject = runs.map PipelineRun.subject ++ fs.drop runs.length
  amounts : Amounts (runs.map PipelineRun.result) r.result

theorem runAll_visits (m : Pipeline σ) (fs : List Func) : ∃ runs, m.Visits fs runs (m.runAll fs) := by
  induction fs generalizing m with
  | nil => exact ⟨[], rfl, fun _ => rfl, rfl, .nil⟩
  | cons f fs ih =>
    have hfirst := Amounts.single (m.run f).result
    rw [runAll]
    dsimp only
    split
    · next e herr =>
      refine ⟨[m.run f], ⟨rfl, rfl⟩, fun hfails => ?_, rfl, herr ▸ hfirst⟩
      exact absurd herr (hfails _ (List.mem_singleton.mpr rfl) e)
    · next changed hok =>
      obtain ⟨runs, hrest⟩ := ih { m with passes := (m.run f).passes }
      rw [hok] at hfirst
      refine ⟨m.run f :: runs, ⟨rfl, hrest.inTurn⟩, fun hfails => ?_, ?_, ?_⟩
      · exact congrArg Nat.succ (hrest.full fun x hx => hfails x (List.mem_cons_of_mem _ hx))
      · exact congrArg (List.cons _) hrest.subject_eq
      · rw [List.map_cons, hok, ← List.singleton_append]
        exact hfirst.append hrest.amounts

/-- Passes in rounds, whatever they answer: a run on a function makes the calls of a chronicle of
at least one round, and a run on a program makes the runs on its functions in their order, up to the
first failure. Either fails with the first failure on the way, and else tells whether there was any
change. -/
theorem run_inRounds (n : Nat) (passes : List σ) (target : CostTable) :
    (∀ f, ((repeating n passes target).watched.run f).map Watched.pass =
        (repeating n passes target).run f ∧
      ∃ rounds, Chronicle (max n 1) (repeating n passes target).watched.passes f rounds
        ((repeating n passes target).watched.run f)) ∧
    ∀ program : Program, ∃ runs r,
      (repeating n passes target).Visits program.funcs.toList runs r ∧
      (repeating n passes target).runProgram program =
        ⟨r.passes, { program with funcs := r.subject.toArray }, r.result, r.notes⟩ := by
  refine ⟨fun f => ⟨?_, runRounds_chronicle _ _ _ f _⟩, fun program => ?_⟩
  · rw [← Watched.mimics.run_map, map_watched]
  · obtain ⟨runs, hvisits⟩ := (repeating n passes target).runAll_visits program.funcs.toList
    exact ⟨runs, _, hvisits, rfl⟩

end Pipeline
end

/-- The first pass has something to change in each of the four rounds, the second in two. -/
example : (growAndSplit.watched.run circularExtensions).passes.map
    (fun w => w.calls.map fun c => c.answer matches .ok true) =
    [[true, true, true, true], [true, true, false, false]] := by decide +kernel

end LoopStride
