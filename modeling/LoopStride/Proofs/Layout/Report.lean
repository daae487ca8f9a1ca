import LoopStride.Proofs.Access.Quiet
import LoopStride.Proofs.Access.Walk
import LoopStride.Proofs.Layout.Search
import LoopStride.Proofs.Passes.Honest
import LoopStride.Proofs.Runs.Ssa

/-! Where the symbolic values are the same in two numberings of the blocks, so are the candidates that
the access pattern pass reports, as long as it comes to the end of its work list. The values
themselves may differ: a variable that is asked for before its loop header is taken up is left as a
sum over an opaque symbol. -/
namespace LoopStride

theorem Expr.recurrence?_relabel {π : Equiv.Perm BlockId} (e : Expr) :
    (e.relabel π).recurrence? = e.recurrence?.map (Recurrence.relabel π) := by
  cases e <;> simp [recurrence?, Recurrence.relabel]

def Classification.relabel (π : Equiv.Perm BlockId) : Classification → Classification
  | .recurrence degree r isCandidate => .recurrence degree (r.relabel π) isCandidate
  | c => c

def Candidate.relabel (π : Equiv.Perm BlockId) (c : Candidate) : Candidate :=
  { c with descriptor := c.descriptor.relabel π }

namespace Func
variable {f : Func} {π : Renumbering f.blocks.size}

theorem listing_renumber (b : BlockId) : (f.renumber π).listing (π.perm b) = f.listing b := by
  rw [listing, listing, block?_renumber]
  cases f.block? b <;> rfl

/-- The same instructions are listed, and each as often. -/
theorem listedIds_renumber : (f.renumber π).listedIds.Perm f.listedIds := by
  have hperm : ((List.range f.blocks.size).map π.perm).Perm (List.range f.blocks.size) := by
    refine (List.perm_ext_iff_of_nodup (List.nodup_range.map π.perm.injective)
      List.nodup_range).mpr fun b => ?_
    obtain ⟨c, rfl⟩ := π.perm.surjective b
    rw [List.mem_map_of_injective π.perm.injective, List.mem_range, List.mem_range, π.lt_iff]
  rw [listedIds_eq_range, listedIds_eq_range, size_blocks_renumber]
  refine (hperm.symm.flatMap_right _).trans ?_
  rw [List.flatMap_map]
  simp [listing_renumber]

theorem reads_renumber {a b : InstId} : (f.renumber π).Reads a b ↔ f.Reads a b := by
  rw [Reads, Reads, inst?_renumber, inst?_renumber]
  simp

theorem drawsOn_renumber {a b : InstId} : (f.renumber π).DrawsOn a b ↔ f.DrawsOn a b := by
  rw [DrawsOn, DrawsOn, inst?_renumber, Option.isSome_map,
    show (f.renumber π).Reads = f.Reads from funext₂ fun _ _ => propext reads_renumber]

theorem traceAccesses_renumber (config : Config) :
    ((f.renumber π).traceAccesses config).1 = (f.traceAccesses config).1 := by
  cases hname : config.isIntrinsic f.name with
  | true =>
    have hname' : config.isIntrinsic (f.renumber π).name = true := hname
    rw [traceAccesses, traceAccesses, if_pos hname, if_pos hname']
  | false =>
    refine InstSet.ext fun id => ?_
    rw [mem_traceAccesses_iff hname, mem_traceAccesses_iff (f := f.renumber π) hname]
    have hforms : ∀ root, (∃ i, (f.renumber π).inst? root = some i ∧ i.formsPointer) ↔
        ∃ i, f.inst? root = some i ∧ i.formsPointer := by
      intro root
      simp [inst?_renumber, Instruction.formsPointer]
    simp only [listedIds_renumber.mem_iff, drawsOn_renumber, hforms]

theorem hasPointerUse_renumber (policy : UsePolicy) (id : InstId) :
    (f.renumber π).hasPointerUse policy id = f.hasPointerUse policy id := by
  have hforms : ∀ user, (((f.renumber π).inst? user).map Instruction.formsPointer).getD false =
      ((f.inst? user).map Instruction.formsPointer).getD false := by
    intro user
    rw [inst?_renumber, Option.map_map]
    congr 2
    exact funext fun i => by simp [Instruction.formsPointer]
  have husers : (f.renumber π).users id = f.users id := rfl
  cases policy <;> simp only [hasPointerUse, firstUser?, husers, hforms]

end Func

/-- Two oracles that tell the same, up to the names of the headers. -/
def Oracle.Renames (π : Equiv.Perm BlockId) (o o' : Oracle) : Prop :=
  ∀ id, o' id = (o id).map (Expr.relabel π)

theorem Oracle.Renames.recurrence? {π : Equiv.Perm BlockId} {o o' : Oracle} (h : o.Renames π o')
    (id : InstId) : o'.recurrence? id = (o.recurrence? id).map (Recurrence.relabel π) := by
  rw [Oracle.recurrence?, Oracle.recurrence?, h id]
  cases o id with
  | none => rfl
  | some e => exact e.recurrence?_relabel

section
variable {f : Func} {π : Renumbering f.blocks.size} {o o' : Oracle}

theorem Recurrence.hasConstantPace_relabel {π : Equiv.Perm BlockId} (r : Recurrence) :
    (r.relabel π).hasConstantPace = r.hasConstantPace := by
  have hconst : ∀ i, (r.relabel π).constant? i = r.constant? i := by
    intro i
    rw [constant?, constant?, operands_relabel, List.getElem?_map]
    cases r.operands[i]? <;> simp
  rw [hasConstantPace, hasConstantPace, hconst, hconst]

theorem Func.classifyRecurrence_relabel {π : Equiv.Perm BlockId} (shown shown' : String)
    (r : Recurrence) : (classifyRecurrence shown' (r.relabel π)).1 =
      (classifyRecurrence shown r).1.relabel π := by
  have hdegree : (r.relabel π).degree = r.degree := by
    rw [Recurrence.degree, Recurrence.degree, Recurrence.operands_relabel, List.length_map]
  rw [classifyRecurrence, classifyRecurrence, hdegree, r.hasConstantPace_relabel]
  cases r.degree <;> rfl

/-- The answer about an instruction, without the lines to log. -/
theorem Func.classify_renumber (ho : o.Renames π.perm o') (accesses : InstSet) (policy : UsePolicy)
    (id : InstId) : ((f.renumber π).classify accesses o' policy id).map Prod.fst =
      (f.classify accesses o policy id).map fun answer => answer.1.relabel π.perm := by
  rw [classify, classify, inst?_renumber]
  cases f.inst? id with
  | none => rfl
  | some i =>
    have hadd : (i.relabel π.perm).isAdd = i.isAdd := by simp [Instruction.isAdd]
    rw [Option.map_some]
    dsimp only
    rw [hadd, hasPointerUse_renumber, ho.recurrence?]
    split
    · rfl
    · split
      · rfl
      · split
        · rfl
        · cases o.recurrence? id with
          | none => rfl
          | some r => exact congrArg Except.ok (classifyRecurrence_relabel _ _ r)

namespace Func

theorem followExtensions_renumber (fuel : Nat) (v : Value) :
    (f.renumber π).followExtensions fuel v = f.followExtensions fuel v := by
  induction fuel generalizing v with
  | zero => rfl
  | succ fuel ih =>
    have hdef : (f.renumber π).definition? v =
        (f.definition? v).map fun d => (d.1, d.2.relabel π.perm) := by
      cases v with
      | result id =>
        rw [definition?, definition?]
        simp [Value.result?, Function.comp_def]
      | _ => rfl
    rw [followExtensions, followExtensions, hdef]
    cases f.definition? v with
    | none => rfl
    | some d =>
      obtain ⟨id, i⟩ := d
      dsimp only [Option.map_some]
      rw [Instruction.operation_relabel]
      cases i.operation with
      | cast op source =>
        dsimp only [Operation.relabel]
        rw [ih]
      | _ => rfl

theorem varyingFactors_renumber (ho : o.Renames π.perm o') (header : BlockId) (i : Instruction) :
    (f.renumber π).varyingFactors o' (π.perm header) (i.relabel π.perm) =
      f.varyingFactors o header i := by
  have hheader : ∀ id,
      ((o'.recurrence? id).map fun r => r.header == π.perm header).getD false =
        ((o.recurrence? id).map fun r => r.header == header).getD false := by
    intro id
    rw [ho.recurrence?, Option.map_map]
    congr 2
    exact funext fun r => Bool.eq_iff_iff.mpr (by simp)
  have hproducts : ∀ ids : List InstId, (ids.filterMap (f.renumber π).inst?).filter
        (fun p => p.opcode == .arith .mul || p.opcode == .arith .shl) =
      ((ids.filterMap f.inst?).filter
        fun p => p.opcode == .arith .mul || p.opcode == .arith .shl).map
          (Instruction.relabel π.perm) := by
    intro ids
    rw [funext (f.inst?_renumber π), ← List.map_filterMap, List.filter_map]
    simp [Function.comp_def]
  rw [varyingFactors, varyingFactors, Instruction.sources_relabel, hproducts, List.flatMap_map]
  simp only [Instruction.sources_relabel, hheader]

theorem originOf_renumber (ho : o.Renames π.perm o') (header : BlockId) (id : InstId) :
    (f.renumber π).originOf o' (π.perm header) id = f.originOf o header id := by
  have hfirst : ∀ ids, (f.renumber π).firstOrigin ids = f.firstOrigin ids := by
    intro ids
    induction ids with
    | nil => rfl
    | cons id ids ih =>
      rw [firstOrigin, firstOrigin, extensionOrigin, extensionOrigin, size_arena_renumber,
        followExtensions_renumber, ih]
  rw [originOf, originOf, inst?_renumber]
  cases f.inst? id with
  | none => rfl
  | some i =>
    dsimp only [Option.map_some]
    rw [hfirst, varyingFactors_renumber ho]

end Func

/-- The same instructions are candidates, with the same descriptors and origins. -/
theorem Inquiry.candidate?_renumber (ho : o.Renames π.perm o') (config : Config)
    (accesses : InstSet) (gain : Int) (id : InstId) :
    candidate? ⟨config, accesses, o', gain⟩ (f.renumber π) id =
      (candidate? ⟨config, accesses, o, gain⟩ f id).map (Candidate.relabel π.perm) := by
  have hclass := Func.classify_renumber ho accesses config.policy id
  rw [candidate?, candidate?]
  dsimp only
  cases hc : f.classify accesses o config.policy id with
  | error e =>
    rw [hc] at hclass
    cases hc' : (f.renumber π).classify accesses o' config.policy id with
    | error e' => rfl
    | ok answer => rw [hc'] at hclass; cases hclass
  | ok answer =>
    rw [hc] at hclass
    cases hc' : (f.renumber π).classify accesses o' config.policy id with
    | error e' => rw [hc'] at hclass; cases hclass
    | ok answer' =>
      rw [hc'] at hclass
      obtain ⟨c, notes⟩ := answer
      obtain ⟨c', notes'⟩ := answer'
      obtain rfl : c' = c.relabel π.perm := Except.ok.inj hclass
      cases c with
      | ineligible reason => rfl
      | recurrence degree r isCandidate =>
        cases isCandidate with
        | false => rfl
        | true =>
          dsimp only [Classification.relabel]
          rw [Recurrence.header_relabel, Func.originOf_renumber ho]
          cases f.originOf o r.header id <;> rfl

theorem Inquiry.relevant_renumber (config : Config) (accesses : InstSet) (gain : Int) :
    (relevant ⟨config, accesses, o', gain⟩ (f.renumber π)).Perm
      (relevant ⟨config, accesses, o, gain⟩ f) := by
  have hrelevant : ∀ id, isRelevant ⟨config, accesses, o', gain⟩ (f.renumber π) id =
      isRelevant ⟨config, accesses, o, gain⟩ f id := by
    intro id
    rw [isRelevant, isRelevant, Func.inst?_renumber, Option.map_map]
    congr 3
    exact funext fun i => by simp [Instruction.isAdd]
  rw [relevant, relevant, funext hrelevant]
  exact Func.listedIds_renumber.filter _

end

namespace AccessPass
variable {η : Type} [Handler η] {f : Func} {a : Analyses} {report : AccessReport}

/-- What the pass reports with a handler that never acts, if it comes to the end of its list. -/
theorem all_candidates_of_quiet {p : AccessPass η} (hh : Handler.Quiet p.handler)
    (hreport : (p.run f a).pass.reports = p.reports ++ [report])
    (hlimit : report.hitLimit = false) :
    ∃ oracle gain, prerequisites p.config a = .ok (oracle, gain) ∧
      let q : Inquiry := ⟨p.config, (f.traceAccesses p.config).1, oracle, gain⟩
      report.candidates = (q.relevant f).filterMap (q.candidate? f) := by
  obtain ⟨oracle, gain, hpre, hcands, hiff⟩ := candidates_of_quiet hh hreport
  refine ⟨oracle, gain, hpre, ?_⟩
  rw [List.take_of_length_le] at hcands
  · exact hcands
  · apply Nat.le_of_not_lt
    rw [← hiff, hlimit]
    exact Bool.false_ne_true

/-- In another numbering of its blocks a function has the values that it has when they are asked for
in the order of the new listing. These are the values that it has anyway if the listing stays, and
where they are, the pass reports the same candidates with the same descriptors, however it lists
them. -/
theorem report_renumber (p : AccessPass η) (hh : Handler.Quiet p.handler) (f : Func)
    (π : Renumbering f.blocks.size) (target : CostTable) :
    (f.evolutionIn (f.renumber π).listedIds).oracle.Renames π.perm
      ((f.renumber π).evolution (f.renumber π).flow.loops).oracle ∧
    ((f.renumber π).listedIds = f.listedIds →
      (f.evolution f.flow.loops).oracle.Renames π.perm
        ((f.renumber π).evolution (f.renumber π).flow.loops).oracle) ∧
    ((f.evolution f.flow.loops).oracle.Renames π.perm
        ((f.renumber π).evolution (f.renumber π).flow.loops).oracle →
      ∀ report report',
        (p.run f (.compute f usage.required target)).pass.reports = p.reports ++ [report] →
        (p.run (f.renumber π) (.compute (f.renumber π) usage.required target)).pass.reports =
          p.reports ++ [report'] →
        report.hitLimit = false → report'.hitLimit = false →
        report'.candidates.Perm (report.candidates.map (Candidate.relabel π.perm))) := by
  refine ⟨f.evolutionIn_renumber π _, Func.evolution_renumber,
    fun ho report report' hreport hreport' hlimit hlimit' => ?_⟩
  obtain ⟨oracle, gain, hpre, hcands⟩ := all_candidates_of_quiet hh hreport hlimit
  obtain ⟨oracle', gain', hpre', hcands'⟩ := all_candidates_of_quiet hh hreport' hlimit'
  rw [prerequisites_compute] at hpre hpre'
  cases hcost : target.override p.config.overrides with
  | error e =>
    rw [hcost] at hpre
    cases hpre
  | ok cost =>
    rw [hcost] at hpre hpre'
    cases hpre
    cases hpre'
    rw [Func.traceAccesses_renumber] at hcands'
    rw [Flow.loops, Flow.loops] at ho
    have hsame := funext (Inquiry.candidate?_renumber ho p.config
      (f.traceAccesses p.config).1 cost.gain)
    rw [hcands, hcands', List.map_filterMap, ← hsame]
    exact (Inquiry.relevant_renumber p.config _ cost.gain).filterMap _

end AccessPass

def Renumbering.swap {n : Nat} (a b : BlockId) (ha : a < n) (hb : b < n) : Renumbering n where
  perm := Equiv.swap a b
  fixes _ hc := Equiv.swap_apply_of_ne_of_ne (Nat.ne_of_gt (Nat.lt_of_lt_of_le ha hc))
    (Nat.ne_of_gt (Nat.lt_of_lt_of_le hb hc))

/-- Counts to sixteen in the latch of a loop and forms an address from the count. -/
def countedLoop : Func where
  name := "count"
  params := #[]
  blocks := #[
    { terminator := .jump 1 },
    { listing := [0], terminator := .jump 2 },
    { listing := [1, 2, 3, 4, 5], terminator := .branch (.result 5) 1 3 },
    { terminator := .ret none }]
  entry := 0
  arena := #[
    ⟨.phi (.int 64) [(0, .int 0), (2, .result 1)], 1⟩,
    ⟨.arith .add (.int 64) (.result 0) (.int 1), 2⟩,
    ⟨.arith .mul (.int 64) (.result 1) (.int 4), 2⟩,
    ⟨.arith .add (.int 64) (.result 2) (.int 8), 2⟩,
    ⟨.cast .intToPtr (.result 3) .ptr, 2⟩,
    ⟨.compare .slt (.result 1) (.int 16), 2⟩]
  uses := #[(0, 1), (1, 2), (2, 3), (3, 4), (1, 5), (1, 0)]

/-- The header has a number ahead of the entry, which lists nothing. -/
def headerAhead : Renumbering countedLoop.blocks.size := .swap 0 1 (by decide) (by decide)

/-- The latch has a number ahead of the header, so that the count is listed before the variable it
adds to. -/
def latchAhead : Renumbering countedLoop.blocks.size := .swap 1 2 (by decide) (by decide)

theorem AccessPass.report_renumber_headerAhead :
    (Handler.Quiet recordingPass.handler ∧
      (countedLoop.evolution countedLoop.flow.loops).oracle.Renames headerAhead.perm
        ((countedLoop.renumber headerAhead).evolution
          (countedLoop.renumber headerAhead).flow.loops).oracle) ∧
    ∃ report report', recorded countedLoop = [report] ∧
      recorded (countedLoop.renumber headerAhead) = [report'] ∧
      report.hitLimit = false ∧ report'.hitLimit = false ∧
      report'.candidates.Perm (report.candidates.map (Candidate.relabel headerAhead.perm)) := by
  have hquiet : Handler.Quiet recordingPass.handler := Recorder.quiet {}
  have hsame : (countedLoop.renumber headerAhead).listedIds = countedLoop.listedIds := by
    decide +kernel
  have hends : (recorded countedLoop).map AccessReport.hitLimit = [false] := by decide +kernel
  have hends' : (recorded (countedLoop.renumber headerAhead)).map AccessReport.hitLimit =
      [false] := by
    decide +kernel
  obtain ⟨report, hreport, hlimit⟩ := List.map_eq_singleton_iff.mp hends
  obtain ⟨report', hreport', hlimit'⟩ := List.map_eq_singleton_iff.mp hends'
  obtain ⟨-, hvalues, hcandidates⟩ :=
    report_renumber recordingPass hquiet countedLoop headerAhead default
  exact ⟨⟨hquiet, hvalues hsame⟩, report, report', hreport, hreport', hlimit, hlimit',
    hcandidates (hvalues hsame) report report' hreport hreport' hlimit hlimit'⟩

/-- Asked for first, the count takes its variable as opaque and keeps that value, and the address is
no candidate any more. -/
theorem not_report_renumber_latchAhead :
    (countedLoop.validate = .ok () ∧ (countedLoop.renumber latchAhead).validate = .ok ()) ∧
    ¬ (countedLoop.evolution countedLoop.flow.loops).oracle.Renames latchAhead.perm
      ((countedLoop.renumber latchAhead).evolution
        (countedLoop.renumber latchAhead).flow.loops).oracle ∧
    ((recorded countedLoop).map fun r => (r.hitLimit, r.candidates.map Candidate.instruction)) =
      [(false, [3])] ∧
    ((recorded (countedLoop.renumber latchAhead)).map fun r =>
      (r.hitLimit, r.candidates.map Candidate.instruction)) = [(false, [])] := by
  have hvalid : countedLoop.defect? = none := by decide +kernel
  have hvalid' : (countedLoop.renumber latchAhead).defect? = none := by decide +kernel
  have hcount : (countedLoop.evolution countedLoop.flow.loops).oracle 1 =
      some (.recurrence 1 [.const 1, .const 1]) := by decide +kernel
  have hcount' : ((countedLoop.renumber latchAhead).evolution
      (countedLoop.renumber latchAhead).flow.loops).oracle 1 =
        some (.sum [.unknown (.result 0), .const 1]) := by decide +kernel
  refine ⟨⟨by rw [Func.validate, hvalid], by rw [Func.validate, hvalid']⟩, fun h => ?_,
    by decide +kernel, by decide +kernel⟩
  have hrenamed := h 1
  rw [hcount, hcount'] at hrenamed
  simp at hrenamed

end LoopStride
