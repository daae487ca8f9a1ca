import LoopStride.Pipeline
import LoopStride.Proofs.Passes.Honest

/-! What each call of a pass is handed. A watched pass keeps its calls and is otherwise the pass
itself. On a run of passes that are honest about what they change, each call finds the analyses
that it asks for as they would come out afresh, and no others. -/
namespace LoopStride

/-! ### One pass standing for another -/

section
variable {σ τ α : Type}

def PassRun.map (φ : σ → τ) (r : PassRun σ) : PassRun τ := ⟨φ r.pass, r.func, r.result, r.notes⟩

def Progress.map (φ : σ → τ) (p : Progress σ) : Progress τ :=
  ⟨p.passes.map φ, p.func, p.analyses, p.notes⟩

def PipelineRun.map (φ : σ → τ) (r : PipelineRun σ α) : PipelineRun τ α :=
  ⟨r.passes.map φ, r.subject, r.result, r.notes⟩

def Pipeline.map (φ : σ → τ) (m : Pipeline σ) : Pipeline τ :=
  ⟨m.passes.map φ, m.target, m.rounds, m.rounds_pos⟩

variable [Pass σ] [Pass τ] {φ : σ → τ} {target : CostTable}

/-- `φ p` does what `p` does. -/
structure Pass.Mimics (φ : σ → τ) : Prop where
  name : ∀ p, Pass.name (φ p) = Pass.name p
  usage : ∀ p, Pass.usage (φ p) = Pass.usage p
  run : ∀ p f a, Pass.run (φ p) f a = (Pass.run p f a).map φ

namespace Pass.Mimics

theorem inl : Mimics (Sum.inl : σ → σ ⊕ τ) where
  name _ := rfl
  usage _ := rfl
  run _ _ _ := rfl

theorem inr : Mimics (Sum.inr : τ → σ ⊕ τ) where
  name _ := rfl
  usage _ := rfl
  run _ _ _ := rfl

theorem honest {I : Func → Prop} (h : Mimics φ) {p : σ} (hp : Honest I p) : Honest I (φ p) := by
  have hbecomes : ∀ q, Becomes I (φ p) q → ∃ p', q = φ p' ∧ Becomes I p p' := by
    intro q hq
    induction hq with
    | refl => exact ⟨p, rfl, .refl⟩
    | tail _ hstep ih =>
      obtain ⟨p', rfl, hp'⟩ := ih
      obtain ⟨f, a, hf, rfl⟩ := hstep
      exact ⟨(Pass.run p' f a).pass, by rw [h.run]; rfl, hp'.tail ⟨f, a, hf, rfl⟩⟩
  refine ⟨fun q hq f a hf => ?_, fun q hq f a hf => ?_, fun q hq f a hf => ?_⟩
  all_goals
    obtain ⟨p', rfl, hp'⟩ := hbecomes q hq
    rw [h.run]
  · exact hp.unchanged p' hp' f a hf
  · rw [h.usage]
    exact hp.keepsFlow p' hp' f a hf
  · exact hp.keeps p' hp' f a hf

theorem runPass_map (h : Mimics φ) (p : σ) (f : Func) (a : Analyses) :
    runPass target (φ p) f a = ((runPass target p f a).1.map φ, (runPass target p f a).2) := by
  rw [runPass, runPass, h.usage, h.run]
  dsimp only [PassRun.map]
  split <;> simp [h.name]

theorem runRound_map (h : Mimics φ) (ps : List σ) (f : Func) (a : Analyses) :
    runRound target (ps.map φ) f a =
      ((runRound target ps f a).1.map φ, (runRound target ps f a).2) := by
  induction ps generalizing f a with
  | nil => rfl
  | cons p ps ih =>
    rw [List.map_cons, runRound, runRound, h.runPass_map]
    dsimp only [PassRun.map]
    split
    · rfl
    · rw [ih]
      rfl

theorem runRounds_map (h : Mimics φ) (limit left : Nat) (ps : List σ) (f : Func) (a : Analyses) :
    runRounds target limit left (ps.map φ) f a = (runRounds target limit left ps f a).map φ := by
  induction left generalizing ps f a with
  | zero => rfl
  | succ left ih =>
    rw [runRounds, runRounds, h.runRound_map]
    dsimp only [Progress.map]
    split
    · rfl
    · rfl
    · rw [ih]
      rfl

theorem run_map (h : Mimics φ) (m : Pipeline σ) (f : Func) :
    (m.map φ).run f = (m.run f).map φ :=
  h.runRounds_map m.rounds m.rounds m.passes f {}

theorem runAll_map (h : Mimics φ) (m : Pipeline σ) (fs : List Func) :
    (m.map φ).runAll fs = (m.runAll fs).map φ := by
  induction fs generalizing m with
  | nil => rfl
  | cons f fs ih =>
    rw [Pipeline.runAll, Pipeline.runAll, h.run_map]
    dsimp only [PipelineRun.map]
    split
    · rfl
    · have hrest := ih { m with passes := (m.run f).passes }
      rw [show { m.map φ with passes := (m.run f).passes.map φ } =
        Pipeline.map φ { m with passes := (m.run f).passes } from rfl, hrest]
      rfl

theorem runProgram_map (h : Mimics φ) (m : Pipeline σ) (p : Program) :
    (m.map φ).runProgram p = (m.runProgram p).map φ := by
  rw [Pipeline.runProgram, Pipeline.runProgram, h.runAll_map]
  rfl

end Pass.Mimics
end

/-! ### Watching -/

section
variable {σ α : Type}

/-- A call of a pass: the state it is in and what it is handed. -/
structure Call (σ : Type) where
  pass : σ
  func : Func
  analyses : Analyses

/-- A pass together with the calls of it so far. -/
structure Watched (σ : Type) where
  pass : σ
  calls : List (Call σ) := []

/-- The same passes, each watched from now on. -/
def Pipeline.watched (m : Pipeline σ) : Pipeline (Watched σ) := m.map fun p => ⟨p, []⟩

theorem Pipeline.map_watched (m : Pipeline σ) : m.watched.map Watched.pass = m := by
  simp [watched, map, Function.comp_def]

variable [Pass σ]

instance : Pass (Watched σ) where
  name w := Pass.name w.pass
  usage w := Pass.usage w.pass
  run w f a :=
    let r := Pass.run w.pass f a
    ⟨⟨r.pass, w.calls ++ [⟨w.pass, f, a⟩]⟩, r.func, r.result, r.notes⟩

theorem Watched.mimics : Pass.Mimics (Watched.pass : Watched σ → σ) where
  name _ := rfl
  usage _ := rfl
  run _ _ _ := rfl

/-- Every analysis that the pass declares can be read and is as it would come out afresh, and no
other can be read. -/
structure Call.IsFresh (c : Call σ) (target : CostTable) : Prop where
  declared : ∀ kind ∈ (Pass.usage c.pass).required, ∃ r, c.analyses.get? kind = .ok r ∧
    (Analyses.compute c.func (Pass.usage c.pass).required target).get? kind = .ok r
  undeclared : ∀ kind ∉ (Pass.usage c.pass).required,
    c.analyses.get? kind = .error (.missingAnalysis kind)

/-! ### Runs -/

section
variable (target : CostTable) (p : σ) (f : Func) (a : Analyses)

theorem pass_runPass : (runPass target p f a).1.pass =
    (Pass.run p f (a.prepare f (Pass.usage p).required target)).pass := by
  rw [runPass]
  dsimp only
  split <;> rfl

theorem func_runPass : (runPass target p f a).1.func =
    (Pass.run p f (a.prepare f (Pass.usage p).required target)).func := by
  rw [runPass]
  dsimp only
  split <;> rfl

theorem result_runPass : (runPass target p f a).1.result =
    (Pass.run p f (a.prepare f (Pass.usage p).required target)).result := by
  rw [runPass]
  dsimp only
  split <;> rfl

theorem analyses_runPass_of_changed
    (h : (Pass.run p f (a.prepare f (Pass.usage p).required target)).result = .ok true) :
    (runPass target p f a).2 =
      (a.prepare f (Pass.usage p).required target).invalidate (Pass.usage p).preservesFlow := by
  rw [runPass]
  dsimp only
  rw [h]

theorem analyses_runPass_of_unchanged
    (h : (Pass.run p f (a.prepare f (Pass.usage p).required target)).result = .ok false) :
    (runPass target p f a).2 = a.prepare f (Pass.usage p).required target := by
  rw [runPass]
  dsimp only
  rw [h]

end

namespace Watched
variable {I : Func → Prop} {target : CostTable} {f : Func} {a : Analyses}

/-- The pass is honest, and each call of it so far was fresh. -/
structure Sound (I : Func → Prop) (target : CostTable) (w : Watched σ) : Prop where
  honest : Pass.Honest I w.pass
  fresh : ∀ c ∈ w.calls, c.IsFresh target

theorem isFresh_prepare (p : σ) (ha : a.Current f target) :
    (Call.mk p f (a.prepare f (Pass.usage p).required target)).IsFresh target where
  declared kind hk := by
    refine ⟨f.resultOf target kind, ?_, ?_⟩
    · rw [ha.get?_prepare, if_pos hk]
    · rw [Analyses.get?_compute, if_pos hk]
  undeclared kind hk := by rw [ha.get?_prepare, if_neg hk]

/-- Analyses that are right are so again after the call of an honest pass: on a change, what it may
have made stale is dropped; otherwise the function is the same. -/
theorem Sound.runPass {w : Watched σ} (hw : w.Sound I target) (hf : I f)
    (ha : a.Current f target) :
    (runPass target w f a).1.pass.Sound I target ∧
    ∀ changed, (runPass target w f a).1.result = .ok changed → I (runPass target w f a).1.func ∧
      (runPass target w f a).2.Current (runPass target w f a).1.func target := by
  rw [pass_runPass, func_runPass, result_runPass]
  have hready : (a.prepare f (Pass.usage w.pass).required target).Current f target := ha.prepare
  refine ⟨⟨hw.honest.next hf _, fun c hc => ?_⟩, fun changed hres => ?_⟩
  · rcases List.mem_append.mp hc with hc | hc
    · exact hw.fresh c hc
    · obtain rfl := List.mem_singleton.mp hc
      exact isFresh_prepare w.pass ha
  · cases changed with
    | true =>
      rw [analyses_runPass_of_changed target w f a hres]
      refine ⟨hw.honest.keeps _ .refl f _ hf hres, hready.invalidate fun hflow => ?_⟩
      exact (hw.honest.keepsFlow _ .refl f _ hf hres hflow).flow_eq
    | false =>
      rw [analyses_runPass_of_unchanged target w f a hres]
      have hsame : (Pass.run w f _).func = f := hw.honest.unchanged _ .refl f _ hf hres
      rw [hsame]
      exact ⟨hf, hready⟩

theorem runRound_sound {ws : List (Watched σ)} (hws : ∀ w ∈ ws, w.Sound I target) (hf : I f)
    (ha : a.Current f target) :
    (∀ w ∈ (runRound target ws f a).1.passes, w.Sound I target) ∧
    ∀ changed, (runRound target ws f a).2 = .ok changed → I (runRound target ws f a).1.func ∧
      (runRound target ws f a).1.analyses.Current (runRound target ws f a).1.func target := by
  induction ws generalizing f a with
  | nil => exact ⟨hws, fun _ _ => ⟨hf, ha⟩⟩
  | cons w ws ih =>
    obtain ⟨hw, hws⟩ := List.forall_mem_cons.mp hws
    obtain ⟨hpass, hok⟩ := hw.runPass hf ha
    rw [runRound]
    dsimp only
    split
    · exact ⟨List.forall_mem_cons.mpr ⟨hpass, hws⟩, fun _ h => by cases h⟩
    · next changed hres =>
      obtain ⟨hfunc, hcurrent⟩ := hok changed hres
      obtain ⟨hpasses, hafter⟩ := ih hws hfunc hcurrent
      refine ⟨List.forall_mem_cons.mpr ⟨hpass, hpasses⟩, fun _ h => ?_⟩
      cases hlater : (runRound target ws _ _).2 with
      | error e =>
        rw [hlater] at h
        cases h
      | ok later => exact hafter later hlater

theorem runRounds_sound {limit left : Nat} {ws : List (Watched σ)}
    (hws : ∀ w ∈ ws, w.Sound I target) (hf : I f) (ha : a.Current f target) :
    ∀ w ∈ (runRounds target limit left ws f a).passes, w.Sound I target := by
  induction left generalizing ws f a with
  | zero => exact hws
  | succ left ih =>
    obtain ⟨hpasses, hok⟩ := runRound_sound hws hf ha
    rw [runRounds]
    dsimp only
    split
    · exact hpasses
    · exact hpasses
    · next hres =>
      obtain ⟨hfunc, hcurrent⟩ := hok true hres
      exact ih hpasses hfunc hcurrent

theorem run_sound {m : Pipeline (Watched σ)} (hm : ∀ w ∈ m.passes, w.Sound I m.target)
    (hf : I f) : ∀ w ∈ (m.run f).passes, w.Sound I m.target :=
  runRounds_sound hm hf Analyses.current_empty

theorem runAll_sound {m : Pipeline (Watched σ)} {fs : List Func}
    (hm : ∀ w ∈ m.passes, w.Sound I m.target) (hfs : ∀ f ∈ fs, I f) :
    ∀ w ∈ (m.runAll fs).passes, w.Sound I m.target := by
  induction fs generalizing m with
  | nil => exact hm
  | cons f fs ih =>
    obtain ⟨hf, hfs⟩ := List.forall_mem_cons.mp hfs
    have hpasses := run_sound hm hf
    rw [Pipeline.runAll]
    dsimp only
    split
    · exact hpasses
    · exact ih (m := { m with passes := (m.run f).passes }) hpasses hfs

end Watched

/-- Wherever the passes of a pipeline are honest, watching them changes nothing in a run on a
function or a program, and each call finds all that it declared, as computed afresh for the function
as it is by then, and nothing else. -/
theorem Pipeline.calls_fresh (I : Func → Prop) (m : Pipeline σ)
    (hm : ∀ p ∈ m.passes, Pass.Honest I p) :
    (∀ f, I f → (m.watched.run f).map Watched.pass = m.run f ∧
      ∀ w ∈ (m.watched.run f).passes, ∀ c ∈ w.calls, c.IsFresh m.target) ∧
    ∀ program : Program, (∀ f ∈ program.funcs, I f) →
      (m.watched.runProgram program).map Watched.pass = m.runProgram program ∧
      ∀ w ∈ (m.watched.runProgram program).passes, ∀ c ∈ w.calls, c.IsFresh m.target := by
  have hwatched : ∀ w ∈ m.watched.passes, w.Sound I m.target := by
    intro w hw
    obtain ⟨p, hp, rfl⟩ := List.mem_map.mp hw
    exact ⟨hm p hp, fun c hc => by cases hc⟩
  refine ⟨fun f hf => ⟨?_, fun w hw => ?_⟩, fun program hfs => ⟨?_, fun w hw => ?_⟩⟩
  · rw [← Watched.mimics.run_map, m.map_watched]
  · exact (Watched.run_sound hwatched hf w hw).fresh
  · rw [← Watched.mimics.runProgram_map, m.map_watched]
  · refine (Watched.runAll_sound hwatched (fun f hf => ?_) w hw).fresh
    exact hfs f (Array.mem_toList_iff.mp hf)

end

/-! ### A run with changes of both kinds -/

theorem Multiplier.honest (m : Multiplier) : Handler.Honest (fun _ => True) m where
  unchanged _ _ _ _ _ h := by cases h
  keepsFlow _ _ f _ _ _ := .append f f.entry _
  keeps _ _ _ _ _ _ := trivial

/-- Where the last block leaves the function, has a new block do so behind it, as often as there is
stock. -/
structure Splitter where
  stock : Nat

def Splitter.run (s : Splitter) (f : Func) : PassRun Splitter :=
  match s.stock, f.blocks.back?.map Block.terminator with
  | stock + 1, some (.ret v) =>
    let (g, b) := f.addBlock none
    ⟨⟨stock⟩, (g.setTerminator b (.ret v)).setTerminator (b - 1) (.jump b), .ok true, []⟩
  | _, _ => ⟨s, f, .ok false, []⟩

instance : Pass Splitter where
  name _ := "splitter"
  usage _ := ({} : Usage).require .dominance
  run s f _ := s.run f

theorem Splitter.honest (s : Splitter) : Pass.Honest (fun _ => True) s where
  unchanged p _ f a _ h := by
    change (p.run f).result = .ok false at h
    change (p.run f).func = f
    rw [run] at h ⊢
    split at h
    · cases h
    · rfl
  keepsFlow _ _ _ _ _ _ h := by cases h
  keeps _ _ _ _ _ _ := trivial

/-- The first pass keeps the control flow and the second does not, and both change the function. -/
def growAndSplit : Pipeline (AccessPass Multiplier ⊕ Splitter) :=
  .repeating 4 [.inl ⟨{}, ⟨2⟩, .notRun, [], {}⟩, .inr ⟨2⟩] default

theorem growAndSplit_honest : ∀ p ∈ growAndSplit.passes, Pass.Honest (fun _ => True) p := by
  intro p hp
  rcases List.mem_pair.mp hp with rfl | rfl
  · exact Pass.Mimics.inl.honest (AccessPass.honest (Multiplier.honest ⟨2⟩))
  · exact Pass.Mimics.inr.honest (Splitter.honest ⟨2⟩)

/-- Each pass is called four times here. The first adds an instruction each time, the second a block
in its first two calls. -/
theorem Pipeline.calls_fresh_growAndSplit :
    (∀ p ∈ growAndSplit.passes, Pass.Honest (fun _ => True) p) ∧
    ((growAndSplit.watched.run circularExtensions).passes.map fun w => w.calls.length) = [4, 4] ∧
    ∀ w ∈ (growAndSplit.watched.run circularExtensions).passes, ∀ c ∈ w.calls,
      c.IsFresh growAndSplit.target := by
  have hrun := (calls_fresh (fun _ => True) growAndSplit growAndSplit_honest).1
  exact ⟨growAndSplit_honest, by decide +kernel, (hrun circularExtensions trivial).2⟩

end LoopStride
