import LoopStride.Proofs.Access.Quiet
import LoopStride.Proofs.Evolution.Extent
import LoopStride.Proofs.Evolution.Sources

/-! Where candidates have their places. The classification asks for the shape of a recurrence alone,
so a candidate need not be in the loop that it counts the rounds of: it may also come after it. And
the merge that is told as its origin may be one that copies the variable of that loop. -/
namespace LoopStride

/-- The block is in the body of the loop with this header, or comes after the loop: control is
through the header before, and gets to no latch without going through the header again. -/
def Flow.InOrPast (g : Flow) (h b : BlockId) : Prop :=
  g.InBody h b ∨ g.StrictlyDominates h b ∧ ∀ l, g.BackEdge l h → ¬ g.Leads (· ≠ h) b l

theorem Flow.Dominates.inOrPast {g : Flow} {h b : BlockId} (hd : g.Dominates h b) :
    g.InOrPast h b := by
  by_cases hb : g.InBody h b
  · exact .inl hb
  · refine .inr ⟨⟨hd, fun he => hb (.inl he.symm)⟩, fun l hl hlead => ?_⟩
    exact hb (.inr ⟨hd.1, l, hl, hlead⟩)

/-- The descriptor is about a loop of the function, and the candidate is in it or after it. -/
structure Candidate.IsPlaced (c : Candidate) (f : Func) : Prop where
  heads : ∃ l, f.flow.loops.ofHeader? c.descriptor.header = some l
  inOrPast : ∀ b, c.instruction ∈ f.listing b → f.flow.Reaches b →
    f.flow.InOrPast c.descriptor.header b

/-- The merge is found below the candidate: through a product that it adds, a factor of the product
that evolves in the candidate's loop, and extensions. It was put into the header of some loop, and
where control comes there it comes through the header of the candidate's loop first. -/
structure Candidate.LeadsTo (c : Candidate) (f : Func) (o : Oracle) (phi : InstId) : Prop where
  isPhi : f.isPhi phi = true
  chain : ∃ addition m product v r n, f.inst? c.instruction = some addition ∧
    m ∈ addition.sources ∧ f.inst? m = some product ∧
    (product.opcode = .arith .mul ∨ product.opcode = .arith .shl) ∧ v ∈ product.sources ∧
    o.recurrence? v = some r ∧ r.header = c.descriptor.header ∧
    f.EndsAfter n (.result v) (some phi)
  header : ∃ h l, f.blockOf? phi = some h ∧ f.flow.loops.ofHeader? h = some l ∧
    (phi ∈ f.listing h → f.flow.Dominates c.descriptor.header h)
  listed : ∀ b, c.instruction ∈ f.listing b → f.flow.Reaches b →
    ∃ h, f.blockOf? phi = some h ∧ phi ∈ f.listing h
  /-- What is told of a merge that draws on one of its own extensions is left open. -/
  value : (∀ n w, f.EndsAfter (n + 1) (.result w) (some phi) → ¬ f.OnCycle f.flow.loops w) →
    ∃ r, o.recurrence? phi = some r ∧ r.header = c.descriptor.header

namespace Func
variable {f : Func} {id phi : InstId} {o : Oracle} {header : BlockId}

theorem mem_varyingFactors_iff {addition : Instruction} {v : InstId} :
    v ∈ f.varyingFactors o header addition ↔ ∃ m ∈ addition.sources, ∃ product,
      f.inst? m = some product ∧
      (product.opcode = .arith .mul ∨ product.opcode = .arith .shl) ∧
      v ∈ product.sources ∧ ∃ r, o.recurrence? v = some r ∧ r.header = header := by
  have hvaries : ∀ v, ((o.recurrence? v).map fun r => r.header == header).getD false = true ↔
      ∃ r, o.recurrence? v = some r ∧ r.header = header := by
    intro v
    cases o.recurrence? v <;> simp
  simp only [varyingFactors, List.mem_flatMap, List.mem_filter, List.mem_filterMap, hvaries,
    Bool.or_eq_true, beq_iff_eq]
  constructor
  · rintro ⟨product, ⟨⟨m, hm, hproduct⟩, hop⟩, hv, hr⟩
    exact ⟨m, hm, product, hproduct, hop, hv, hr⟩
  · rintro ⟨m, hm, product, hproduct, hop, hv, hr⟩
    exact ⟨product, ⟨⟨m, hm, hproduct⟩, hop⟩, hv, hr⟩

theorem EndsAfter.exists_merge {n : Nat} {v : Value} {last : Option InstId}
    (h : f.EndsAfter n v last) (hlast : last = some phi) :
    ∃ i, f.inst? phi = some i ∧ i.isPhi = true := by
  induction h with
  | @merge id i hi hphi =>
    obtain rfl := Option.some.inj hlast
    exact ⟨i, hi, hphi⟩
  | other => cases hlast
  | extend _ _ _ _ ih => exact ih hlast

theorem originOf_eq_some (h : f.originOf o header id = .ok (some phi)) :
    ∃ addition v n, f.inst? id = some addition ∧ v ∈ f.varyingFactors o header addition ∧
      f.EndsAfter n (.result v) (some phi) := by
  rw [originOf] at h
  split at h
  · cases h
  · next addition hi =>
    obtain ⟨v, hv, hfound⟩ := mem_of_firstOrigin h
    obtain ⟨n, hend⟩ := exists_endsAfter_of_follow hfound
    exact ⟨addition, v, n, hi, hv, hend⟩

/-- A merge in a header lies past the header of each loop in which it is shown to evolve. -/
theorem MergesInHeader.dominates {e : Expr} {r : Recurrence} (hm : f.MergesInHeader phi)
    (hcounts : f.Counts (.result phi) e) (hr : e.recurrence? = some r) :
    ∃ h l, f.blockOf? phi = some h ∧ f.flow.loops.ofHeader? h = some l ∧
      (phi ∈ f.listing h → f.flow.Dominates r.header h) := by
  obtain ⟨h, l, hblock, hl⟩ := hm
  obtain ⟨lp, hlp, rfl⟩ := Flow.ofHeader?_eq_some_iff.mp hl
  obtain ⟨u, hu⟩ := Flow.backEdge_of_get? hlp
  exact ⟨lp.header, l, hblock, hl, fun hid => (hcounts.dominates hr).2 _ hid hu.2.reaches_left⟩

/-- What an instruction reads is listed where control comes if the instruction is. -/
theorem UsesDominated.exists_placedAt {i : Instruction} {j : InstId} {p : BlockId × Nat}
    (hu : f.UsesDominated) (hp : f.PlacedAt id p) (hr : f.flow.Reaches p.1)
    (hi : f.inst? id = some i) (hphi : i.isPhi = false) (hj : j ∈ i.sources) :
    ∃ q, f.PlacedAt j q ∧ f.flow.Reaches q.1 := by
  obtain ⟨v, hv, hresult⟩ := List.mem_filterMap.mp hj
  obtain rfl := Value.result?_eq_some_iff.mp hresult
  obtain ⟨q, hq, ha⟩ := hu.operands id p hp hr i hi hphi _ hv
  exact ⟨q, hq, (ha.dominates hr).reaches_left⟩

theorem EndsAfter.exists_placedAt {n : Nat} {p : BlockId × Nat} (hu : f.UsesDominated)
    (h : f.EndsAfter n (.result id) (some phi)) (hp : f.PlacedAt id p) (hr : f.flow.Reaches p.1) :
    ∃ q, f.PlacedAt phi q := by
  induction n generalizing id p with
  | zero =>
    cases h
    exact ⟨p, hp⟩
  | succ n ih =>
    cases h with
    | @extend _ i op source _ _ hi ho hw hend =>
      cases source with
      | result source =>
        have hsource : source ∈ i.sources := by
          simp [Instruction.sources, Instruction.operands, ho, Operation.operands, Value.result?]
        obtain ⟨q, hq, hrq⟩ := hu.exists_placedAt hp hr hi (isPhi_of_cast ho) hsource
        exact ih hend hq hrq
      | _ => cases hend

/-- Down to the origin of an addition everything is available to what reads it, and so it is listed. -/
theorem UsesDominated.exists_placedAt_origin {addition : Instruction} {v : InstId} {n : Nat}
    {p : BlockId × Nat} (hu : f.UsesDominated) (hp : f.PlacedAt id p) (hr : f.flow.Reaches p.1)
    (hi : f.inst? id = some addition) (hadd : addition.isAdd = true)
    (hv : v ∈ f.varyingFactors o header addition) (hend : f.EndsAfter n (.result v) (some phi)) :
    ∃ q, f.PlacedAt phi q := by
  obtain ⟨m, hm, product, hproduct, hop, hfactor, -⟩ := mem_varyingFactors_iff.mp hv
  have haddition : addition.isPhi = false := by
    rw [Instruction.isPhi, eq_of_beq hadd]
    rfl
  have hproduct' : product.isPhi = false := by
    rcases hop with hop | hop <;> rw [Instruction.isPhi, hop] <;> rfl
  obtain ⟨q, hq, hrq⟩ := hu.exists_placedAt hp hr hi haddition hm
  obtain ⟨q', hq', hrq'⟩ := hu.exists_placedAt hq hrq hproduct hproduct' hfactor
  exact hend.exists_placedAt hu hq' hrq'

theorem descriptor_of_classifyRecurrence {shown : String} {degree : Degree} {r r' : Recurrence}
    {isCandidate : Bool} {notes : List Note}
    (h : classifyRecurrence shown r' = (.recurrence degree r isCandidate, notes)) : r' = r := by
  rw [classifyRecurrence] at h
  cases hdegree : r'.degree with
  | affine | quadratic =>
    rw [hdegree] at h
    cases h
    rfl
  | invariant | higher n =>
    rw [hdegree] at h
    cases h

/-- What is classified as a recurrence follows it. -/
theorem recurrence?_of_classify {accesses : InstSet} {policy : UsePolicy} {degree : Degree}
    {r : Recurrence} {isCandidate : Bool} {notes : List Note}
    (h : f.classify accesses o policy id = .ok (.recurrence degree r isCandidate, notes)) :
    (∃ i, f.inst? id = some i ∧ i.isAdd = true) ∧ o.recurrence? id = some r := by
  rw [classify] at h
  split at h
  · cases h
  next i hi =>
  have hanswer := Except.ok.inj h
  split at hanswer
  · cases hanswer
  next hadd =>
  refine ⟨⟨i, hi, by simpa using hadd⟩, ?_⟩
  split at hanswer
  · cases hanswer
  split at hanswer
  · cases hanswer
  split at hanswer
  · cases hanswer
  next r' hr => rw [hr, descriptor_of_classifyRecurrence hanswer]

end Func

namespace AccessPass
variable {η : Type} [Handler η] {p : AccessPass η} {f : Func} {target : CostTable}
  {report : AccessReport} {c : Candidate}

/-- Every candidate that a pass reports with a handler that never acts follows its descriptor, and
its origin is what is found for it. -/
theorem follows_of_mem_candidates (hh : Handler.Quiet p.handler)
    (hreport : (p.run f (.compute f usage.required target)).pass.reports = p.reports ++ [report])
    (hc : c ∈ report.candidates) : (∃ i, f.inst? c.instruction = some i ∧ i.isAdd = true) ∧
      (f.evolution f.flow.loops).oracle.recurrence? c.instruction = some c.descriptor ∧
      f.originOf (f.evolution f.flow.loops).oracle c.descriptor.header c.instruction =
        .ok c.origin := by
  obtain ⟨oracle, gain, hpre, hcands, -⟩ := candidates_of_quiet hh hreport
  have horacle : oracle = (f.evolution f.flow.loops).oracle := by
    rw [prerequisites_compute] at hpre
    split at hpre
    · cases hpre
    · exact (Prod.mk.inj (Except.ok.inj hpre)).1.symm
  rw [hcands] at hc
  obtain ⟨id, -, hcand⟩ := List.mem_filterMap.mp hc
  obtain ⟨⟨notes, hclass⟩, horigin, rfl, -⟩ := Inquiry.candidate?_eq_some_iff.mp hcand
  subst horacle
  obtain ⟨hi, hr⟩ := Func.recurrence?_of_classify hclass
  exact ⟨hi, hr, horigin⟩

/-- Each candidate is in the loop whose rounds its descriptor counts or comes after it. -/
theorem candidates_placed (p : AccessPass η) (hh : Handler.Quiet p.handler) (f : Func)
    (hvalid : f.validate = .ok ()) (hu : f.UsesDominated) (hm : f.MergesFit) (target : CostTable)
    (report : AccessReport)
    (hreport : (p.run f (.compute f usage.required target)).pass.reports = p.reports ++ [report]) :
    ∀ c ∈ report.candidates, c.IsPlaced f := by
  intro c hc
  have hv : f.WellFormed := Func.defect?_eq_none.mp (Func.validate_eq_ok.mp hvalid)
  obtain ⟨-, hr, -⟩ := follows_of_mem_candidates hh hreport hc
  obtain ⟨hheads, hdominates⟩ := (Func.follows_of_oracle hv hu hm hr).counts.dominates
    (Expr.recurrence?_eq_some_iff.mpr rfl)
  exact ⟨hheads, fun b hid hreach => (hdominates b hid hreach).inOrPast⟩

end AccessPass

/-- Counts to sixteen in a loop of one block, and forms an address from the count behind it. -/
def readAfterLoop : Func where
  name := "read_after_loop"
  params := #[]
  blocks := #[
    { terminator := .jump 1 },
    { listing := [0, 1, 2], terminator := .branch (.result 2) 1 2 },
    { listing := [3, 4, 5], terminator := .ret none }]
  entry := 0
  arena := #[
    ⟨.phi (.int 64) [(0, .int 0), (1, .result 1)], 1⟩,
    ⟨.arith .add (.int 64) (.result 0) (.int 1), 1⟩,
    ⟨.compare .slt (.result 1) (.int 16), 1⟩,
    ⟨.arith .mul (.int 64) (.result 0) (.int 4), 2⟩,
    ⟨.arith .add (.int 64) (.result 3) (.int 8), 2⟩,
    ⟨.cast .intToPtr (.result 4) .ptr, 2⟩]
  uses := #[(0, 1), (1, 2), (0, 3), (3, 4), (4, 5), (1, 0)]

theorem readAfterLoop_strictSsa : readAfterLoop.StrictSsa := by
  refine ⟨?_, ?_, ?_, ?_, ?_, ?_⟩
  · rw [Func.validate, show readAfterLoop.defect? = none by decide +kernel]
  all_goals decide +kernel

theorem readAfterLoop_candidates : (recorded readAfterLoop).map AccessReport.candidates =
    [[⟨4, .affine, ⟨1, [.const 8, .const 4]⟩, some 0, 2⟩]] := by
  decide +kernel

theorem AccessPass.candidates_placed_readAfterLoop :
    (Handler.Quiet recordingPass.handler ∧ readAfterLoop.validate = .ok () ∧
      readAfterLoop.UsesDominated ∧ readAfterLoop.MergesFit) ∧
    ∃ report, recorded readAfterLoop = [report] ∧ report.candidates ≠ [] ∧
      ∀ c ∈ report.candidates, c.IsPlaced readAfterLoop := by
  have hquiet : Handler.Quiet recordingPass.handler := Recorder.quiet {}
  have hssa := readAfterLoop_strictSsa
  have hmerges := hssa.mergesFit (by decide +kernel)
  obtain ⟨report, hreport, hcands⟩ := List.map_eq_singleton_iff.mp readAfterLoop_candidates
  refine ⟨⟨hquiet, hssa.valid, hssa.usesDominated, hmerges⟩, report, hreport, ?_, ?_⟩
  · rw [hcands]
    exact List.cons_ne_nil _ _
  · exact candidates_placed recordingPass hquiet readAfterLoop hssa.valid hssa.usesDominated hmerges
      default report hreport

/-- The address is formed once, after the last round, and is a candidate all the same. -/
theorem not_candidates_inBody_readAfterLoop :
    (readAfterLoop.StrictSsa ∧ readAfterLoop.Homed) ∧
    ¬ ∀ report ∈ recorded readAfterLoop, ∀ c ∈ report.candidates,
      ∃ b, readAfterLoop.blockOf? c.instruction = some b ∧
        readAfterLoop.flow.InBody c.descriptor.header b := by
  refine ⟨⟨readAfterLoop_strictSsa, by decide +kernel⟩, fun h => ?_⟩
  obtain ⟨report, hreport, hcands⟩ := List.map_eq_singleton_iff.mp readAfterLoop_candidates
  obtain ⟨b, hb, hin⟩ := h report (hreport ▸ List.mem_singleton_self _) _
    (hcands ▸ List.mem_singleton_self _)
  have hblock : readAfterLoop.blockOf? 4 = some 2 := by decide +kernel
  have hloop : readAfterLoop.flow.loops.ofHeader? 1 = some 0 := by decide +kernel
  have hout : readAfterLoop.flow.loops.contains 0 2 = false := by decide +kernel
  obtain rfl : b = 2 := Option.some.inj (hb.symm.trans hblock)
  rw [(Flow.contains_iff_inBody hloop).mpr hin] at hout
  cases hout

namespace AccessPass
variable {η : Type} [Handler η]

/-- The origin of each candidate is a merge that a factor of one of its products extends. It is in
the header of a loop, if not of the candidate's, then of one that is entered later; and unless it
draws on an extension of its own, it follows a recurrence of the candidate's loop. -/
theorem origins_traced (p : AccessPass η) (hh : Handler.Quiet p.handler) (f : Func)
    (hvalid : f.validate = .ok ()) (hu : f.UsesDominated) (hm : f.MergesFit) (target : CostTable)
    (report : AccessReport)
    (hreport : (p.run f (.compute f usage.required target)).pass.reports = p.reports ++ [report]) :
    ∀ c ∈ report.candidates, ∀ phi, c.origin = some phi →
      c.LeadsTo f (f.evolution f.flow.loops).oracle phi := by
  intro c hc phi hphi
  have hv : f.WellFormed := Func.defect?_eq_none.mp (Func.validate_eq_ok.mp hvalid)
  obtain ⟨⟨addition, hi, hadd⟩, -, horigin⟩ := follows_of_mem_candidates hh hreport hc
  rw [hphi] at horigin
  obtain ⟨addition', v, n, hi', hfound, hend⟩ := Func.originOf_eq_some horigin
  obtain rfl := Option.some.inj (hi.symm.trans hi')
  obtain ⟨m, hm', product, hproduct, hop, hfactor, r, hr, hheader⟩ :=
    Func.mem_varyingFactors_iff.mp hfound
  obtain ⟨merge, hmerge, hisPhi⟩ := hend.exists_merge rfl
  have hrec : r.toExpr.recurrence? = some r := Expr.recurrence?_eq_some_iff.mpr rfl
  obtain ⟨hplace, hcounts⟩ :=
    (Func.follows_of_oracle hv hu hm hr).merge (by rw [hrec]; rfl) n phi hend
  have hphi' : f.isPhi phi = true := by rw [Func.isPhi_of_inst? hmerge, hisPhi]
  refine
    { isPhi := hphi'
      chain := ⟨addition, m, product, v, r, n, hi, hm', hproduct, hop, hfactor, hr, hheader, hend⟩
      header := hheader ▸ hplace.dominates hcounts hrec
      listed := fun b hid hreach => ?_
      value := fun hfree => ⟨r, hend.recurrence? hfree hr, hheader⟩ }
  obtain ⟨k, hp⟩ := List.mem_iff_getElem?.mp hid
  obtain ⟨q, hq⟩ := hu.exists_placedAt_origin (p := (b, k)) hp hreach hi hadd hfound hend
  exact ⟨q.1, hm.homed phi q hq hphi', List.mem_of_getElem? hq⟩

end AccessPass

/-- The inner of two loops forms its address from a copy of the variable of the outer one. -/
def innerCopy : Func where
  name := "inner_copy"
  params := #[.int 1]
  blocks := #[
    { terminator := .jump 1 },
    { listing := [0], terminator := .jump 2 },
    { listing := [1, 2, 3, 4], terminator := .branch (.param 0) 2 3 },
    { listing := [5], terminator := .branch (.param 0) 1 4 },
    { terminator := .ret none }]
  entry := 0
  arena := #[
    ⟨.phi (.int 64) [(0, .int 0), (3, .result 5)], 1⟩,
    ⟨.phi (.int 64) [(1, .result 0), (2, .result 1)], 2⟩,
    ⟨.arith .mul (.int 64) (.result 1) (.int 4), 2⟩,
    ⟨.arith .add (.int 64) (.result 2) (.int 8), 2⟩,
    ⟨.cast .intToPtr (.result 3) .ptr, 2⟩,
    ⟨.arith .add (.int 64) (.result 0) (.int 1), 3⟩]
  uses := #[(1, 2), (2, 3), (3, 4), (0, 5), (5, 0), (0, 1), (1, 1)]

theorem innerCopy_strictSsa : innerCopy.StrictSsa := by
  refine ⟨?_, ?_, ?_, ?_, ?_, ?_⟩
  · rw [Func.validate, show innerCopy.defect? = none by decide +kernel]
  all_goals decide +kernel

theorem innerCopy_candidates : (recorded innerCopy).map AccessReport.candidates =
    [[⟨3, .affine, ⟨1, [.const 8, .const 4]⟩, some 1, 2⟩]] := by
  decide +kernel

theorem innerCopy_no_extensions {n : Nat} {w : InstId} {o : Option InstId} :
    ¬ innerCopy.EndsAfter (n + 1) (.result w) o := by
  have hnone : ∀ p ∈ innerCopy.arena.toList, p.instruction.isWidening = false := by decide
  rintro (_ | _ | @⟨_, i, op, source, _, _, hi, ho, hw⟩)
  obtain ⟨p, hp, rfl⟩ := Func.exists_mem_arena hi
  rw [← Func.isWidening_of_cast ho, hnone p hp] at hw
  cases hw

theorem AccessPass.origins_traced_innerCopy :
    (Handler.Quiet recordingPass.handler ∧ innerCopy.validate = .ok () ∧
      innerCopy.UsesDominated ∧ innerCopy.MergesFit) ∧
    ∃ report c, recorded innerCopy = [report] ∧ c ∈ report.candidates ∧ c.origin = some 1 ∧
      c.LeadsTo innerCopy (innerCopy.evolution innerCopy.flow.loops).oracle 1 ∧
      ∃ r, (innerCopy.evolution innerCopy.flow.loops).oracle.recurrence? 1 = some r ∧
        r.header = c.descriptor.header := by
  have hquiet : Handler.Quiet recordingPass.handler := Recorder.quiet {}
  have hssa := innerCopy_strictSsa
  have hmerges := hssa.mergesFit (by decide +kernel)
  obtain ⟨report, hreport, hcands⟩ := List.map_eq_singleton_iff.mp innerCopy_candidates
  have hc := hcands ▸ List.mem_singleton_self _
  have hleads := origins_traced recordingPass hquiet innerCopy hssa.valid hssa.usesDominated hmerges
    default report hreport _ hc 1 rfl
  refine ⟨⟨hquiet, hssa.valid, hssa.usesDominated, hmerges⟩, report, _, hreport, hc, rfl, hleads, ?_⟩
  exact hleads.value fun n w hend => absurd hend innerCopy_no_extensions

/-- The copy is told as the origin, though it is not in the header of the loop that advances. -/
theorem not_origins_in_header_innerCopy :
    (innerCopy.StrictSsa ∧ innerCopy.Homed) ∧
    ¬ ∀ report ∈ recorded innerCopy, ∀ c ∈ report.candidates, ∀ phi, c.origin = some phi →
      innerCopy.blockOf? phi = some c.descriptor.header := by
  refine ⟨⟨innerCopy_strictSsa, by decide +kernel⟩, fun h => ?_⟩
  obtain ⟨report, hreport, hcands⟩ := List.map_eq_singleton_iff.mp innerCopy_candidates
  have hheader := h report (hreport ▸ List.mem_singleton_self _) _
    (hcands ▸ List.mem_singleton_self _) 1 rfl
  have hblock : innerCopy.blockOf? 1 = some 2 := by decide +kernel
  cases hblock.symm.trans hheader

end LoopStride
