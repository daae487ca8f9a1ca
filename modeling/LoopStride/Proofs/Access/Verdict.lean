import LoopStride.Proofs.Access.Place

/-! What the verdict on an instruction rests on. The conditions that are tested first make the
instruction one that computes an address; only then does the oracle count, and of it only what it
tells of that instruction. -/
namespace LoopStride

/-- Two or three operands, the first two of them constants, with the degree they make. -/
inductive Recurrence.Paced : Recurrence → Degree → Prop where
  | affine (header : BlockId) (start step : Int64) :
    Paced ⟨header, [.const start, .const step]⟩ .affine
  | quadratic (header : BlockId) (start step : Int64) (second : Expr) :
    Paced ⟨header, [.const start, .const step, second]⟩ .quadratic

theorem Oracle.exists_recurrence? (answers : InstId → Option Recurrence) :
    ∃ o : Oracle, ∀ id, o.recurrence? id = answers id := by
  refine ⟨fun id => (answers id).map Recurrence.toExpr, fun id => ?_⟩
  cases h : answers id with
  | none => simp [Oracle.recurrence?, h]
  | some r => simp [Oracle.recurrence?, h, Expr.recurrence?, Recurrence.toExpr]

theorem Expr.constant?_eq_some_iff {e : Expr} {c : Int64} :
    e.constant? = some c ↔ e = .const c := by
  cases e <;> simp [Expr.constant?]

theorem Instruction.isAdd_iff {i : Instruction} :
    i.isAdd = true ↔ ∃ left right, i.operation = .arith .add left right := by
  obtain ⟨o, ty, comment⟩ := i
  cases o <;> simp [Instruction.isAdd, Instruction.opcode, Operation.opcode]

theorem Instruction.formsPointer_iff {i : Instruction} :
    i.formsPointer = true ↔ ∃ source, i.operation = .cast .intToPtr source := by
  obtain ⟨o, ty, comment⟩ := i
  cases o <;> simp [Instruction.formsPointer, Instruction.opcode, Operation.opcode]

theorem Recurrence.hasConstantPace_iff {r : Recurrence} : r.hasConstantPace = true ↔
    ∃ start step rest, r.operands = .const start :: .const step :: rest := by
  rw [Recurrence.hasConstantPace, Bool.and_eq_true, Option.isSome_iff_exists,
    Option.isSome_iff_exists]
  obtain ⟨header, operands⟩ := r
  match operands with
  | [] | [_] => simp [Recurrence.constant?]
  | first :: second :: rest => simp [Recurrence.constant?, Expr.constant?_eq_some_iff]

namespace Func
variable (f : Func)

def readers (policy : UsePolicy) (id : InstId) : List InstId :=
  match policy with
  | .anyUse => f.users id
  | .firstUse => (f.users id).take 1

/-- An addition that is traced as access-related and that a reader turns into an address. -/
structure ComputesAddress (accesses : InstSet) (policy : UsePolicy) (id : InstId) : Prop where
  addition : ∃ i left right, f.inst? id = some i ∧ i.operation = .arith .add left right
  accessed : id ∈ accesses
  read : ∃ user ∈ f.readers policy id, ∃ i source, f.inst? user = some i ∧
    i.operation = .cast .intToPtr source

variable {f : Func} {id : InstId} {accesses wider : InstSet} {policy : UsePolicy}
  {oracle oracle' : Oracle} {i : Instruction} {r r' : Recurrence} {degree : Degree}
  {shown : String}

theorem hasPointerUse_eq_any : f.hasPointerUse policy id =
    (f.readers policy id).any fun user =>
      ((f.inst? user).map Instruction.formsPointer).getD false := by
  cases policy with
  | anyUse => rfl
  | firstUse =>
    rw [hasPointerUse, readers, firstUser?]
    cases f.users id <;> simp

theorem hasPointerUse_iff : f.hasPointerUse policy id = true ↔
    ∃ user ∈ f.readers policy id, ∃ i source, f.inst? user = some i ∧
      i.operation = .cast .intToPtr source := by
  rw [hasPointerUse_eq_any, List.any_eq_true]
  refine exists_congr fun user => and_congr_right fun _ => ?_
  cases hi : f.inst? user with
  | none => simp
  | some i => simp [Instruction.formsPointer_iff]

/-! ### The conditions in their order -/

theorem classify_of_missing (h : f.inst? id = none) :
    f.classify accesses oracle policy id = .error (.unknownInstruction id) := by
  rw [classify, h]

theorem computesAddress_iff (hi : f.inst? id = some i) : f.ComputesAddress accesses policy id ↔
    i.isAdd = true ∧ accesses.contains id = true ∧ f.hasPointerUse policy id = true := by
  rw [Instruction.isAdd_iff, InstSet.contains_iff, hasPointerUse_iff]
  constructor
  · rintro ⟨⟨j, left, right, hj, ho⟩, haccess, hread⟩
    obtain rfl := Option.some.inj (hi.symm.trans hj)
    exact ⟨⟨left, right, ho⟩, haccess, hread⟩
  · rintro ⟨⟨left, right, ho⟩, haccess, hread⟩
    exact ⟨⟨i, left, right, hi, ho⟩, haccess, hread⟩

theorem classify_eq_error_iff {e : Fault} : f.classify accesses oracle policy id = .error e ↔
    e = .unknownInstruction id ∧ f.inst? id = none := by
  cases hi : f.inst? id with
  | none => simp [classify_of_missing hi, eq_comm]
  | some i => simp [classify, hi]

/-- Where a condition fails there is a reason that holds for any oracle, and nothing to tell. -/
theorem exists_obstacle (hi : f.inst? id = some i) (h : ¬ f.ComputesAddress accesses policy id) :
    ∃ reason, ∀ oracle,
      f.classify accesses oracle policy id = .ok (.ineligible reason, []) := by
  rw [computesAddress_iff hi] at h
  by_cases hadd : i.isAdd = true
  · by_cases haccess : accesses.contains id = true
    · have hread : ¬ f.hasPointerUse policy id = true := fun hr => h ⟨hadd, haccess, hr⟩
      exact ⟨.noPointerUse, fun _ => by simp [classify, hi, hadd, haccess, hread]⟩
    · exact ⟨.notAccessRelated, fun _ => by simp [classify, hi, hadd, haccess]⟩
  · exact ⟨.notAddition, fun _ => by simp [classify, hi, hadd]⟩

theorem classify_of_some (h : f.ComputesAddress accesses policy id)
    (hr : oracle.recurrence? id = some r) : f.classify accesses oracle policy id =
      .ok (classifyRecurrence (f.renderInst id) r) := by
  obtain ⟨i, _, _, hi, -⟩ := h.addition
  obtain ⟨hadd, haccess, hread⟩ := (computesAddress_iff hi).mp h
  simp [classify, hi, hadd, haccess, hread, hr]

/-! ### Candidates -/

/-- A recurrence of low degree with a constant pace is a candidate, and no other is. -/
theorem classifyRecurrence_eq_candidate_iff :
    (classifyRecurrence shown r').1 = .recurrence degree r true ↔ r' = r ∧ r.Paced degree := by
  constructor
  · intro h
    obtain rfl : r' = r := descriptor_of_classifyRecurrence (Prod.ext h rfl)
    refine ⟨rfl, ?_⟩
    obtain ⟨header, operands⟩ := r'
    match operands, h with
    | [first, second], h =>
      obtain ⟨hdegree, -, hpace⟩ := Classification.recurrence.inj h
      obtain ⟨start, step, rest, hoperands⟩ := Recurrence.hasConstantPace_iff.mp hpace
      cases hdegree
      cases hoperands
      exact .affine header start step
    | [first, second, third], h =>
      obtain ⟨hdegree, -, hpace⟩ := Classification.recurrence.inj h
      obtain ⟨start, step, rest, hoperands⟩ := Recurrence.hasConstantPace_iff.mp hpace
      cases hdegree
      cases hoperands
      exact .quadratic header start step third
  · rintro ⟨rfl, hpaced⟩
    cases hpaced <;> rfl

theorem classify_eq_candidate_iff :
    (∃ notes, f.classify accesses oracle policy id = .ok (.recurrence degree r true, notes)) ↔
      f.ComputesAddress accesses policy id ∧ oracle.recurrence? id = some r ∧ r.Paced degree := by
  constructor
  · rintro ⟨notes, h⟩
    obtain ⟨⟨i, hi, -⟩, hr⟩ := recurrence?_of_classify h
    have haddress : f.ComputesAddress accesses policy id := by
      by_contra hnot
      obtain ⟨reason, hreason⟩ := exists_obstacle hi hnot
      cases (hreason oracle).symm.trans h
    rw [classify_of_some haddress hr] at h
    have hcandidate := congrArg Prod.fst (Except.ok.inj h)
    exact ⟨haddress, hr, (classifyRecurrence_eq_candidate_iff.mp hcandidate).2⟩
  · rintro ⟨haddress, hr, hpaced⟩
    refine ⟨(classifyRecurrence (f.renderInst id) r).2, ?_⟩
    rw [classify_of_some haddress hr]
    exact congrArg Except.ok (Prod.ext (classifyRecurrence_eq_candidate_iff.mpr ⟨rfl, hpaced⟩) rfl)

/-! ### Two oracles, two sets, two policies -/

theorem classify_congr (h : oracle'.recurrence? id = oracle.recurrence? id) :
    f.classify accesses oracle' policy id = f.classify accesses oracle policy id := by
  rw [classify, classify, h]

/-- What computes an address under any policy and in any set does so among more. -/
theorem ComputesAddress.mono (h : f.ComputesAddress accesses policy id)
    (hwider : ∀ x ∈ accesses, x ∈ wider) : f.ComputesAddress wider .anyUse id := by
  obtain ⟨user, huser, hforms⟩ := h.read
  refine ⟨h.addition, hwider id h.accessed, user, ?_, hforms⟩
  cases policy with
  | anyUse => exact huser
  | firstUse => exact List.mem_of_mem_take huser

theorem classify_mono {c : Classification} {notes : List Note}
    (h : f.classify accesses oracle policy id = .ok (c, notes)) (hc : c.isCandidate = true)
    (hwider : ∀ x ∈ accesses, x ∈ wider) :
    f.classify wider oracle .anyUse id = .ok (c, notes) := by
  cases c with
  | ineligible reason => cases hc
  | recurrence degree r isCandidate =>
    cases hc
    obtain ⟨haddress, hr, -⟩ := classify_eq_candidate_iff.mp ⟨notes, h⟩
    rw [← h, classify_of_some haddress hr, classify_of_some (haddress.mono hwider) hr]

/-- The verdict on an instruction. An oracle, whatever it tells, counts for it only in the recurrence
of that instruction, and only if the instruction computes an address; and what is a candidate by its
first reader remains one when all readers count and more is traced. -/
theorem classify_decides (f : Func) (id : InstId) (accesses : InstSet) (policy : UsePolicy)
    (oracle : Oracle) :
    (∀ e, f.classify accesses oracle policy id = .error e ↔
      e = .unknownInstruction id ∧ f.inst? id = none) ∧
    (∀ degree r,
      (∃ notes, f.classify accesses oracle policy id = .ok (.recurrence degree r true, notes)) ↔
        f.ComputesAddress accesses policy id ∧ oracle.recurrence? id = some r ∧ r.Paced degree) ∧
    (∀ oracle' : Oracle, oracle'.recurrence? id = oracle.recurrence? id →
      f.classify accesses oracle' policy id = f.classify accesses oracle policy id) ∧
    (¬ f.ComputesAddress accesses policy id → ∃ answer : Except Fault Classification,
      ∀ oracle', f.classify accesses oracle' policy id = answer.map (·, [])) ∧
    (∀ wider : InstSet, (∀ x ∈ accesses, x ∈ wider) → ∀ c notes,
      f.classify accesses oracle .firstUse id = .ok (c, notes) → c.isCandidate = true →
        f.classify wider oracle .anyUse id = .ok (c, notes)) ∧
    (∀ answers : InstId → Option Recurrence, ∃ oracle' : Oracle,
      ∀ x, oracle'.recurrence? x = answers x) := by
  refine ⟨fun e => classify_eq_error_iff, fun degree r => classify_eq_candidate_iff,
    fun oracle' => classify_congr, fun hnot => ?_,
    fun wider hwider c notes h hc => classify_mono h hc hwider, Oracle.exists_recurrence?⟩
  cases hi : f.inst? id with
  | none => exact ⟨.error (.unknownInstruction id), fun _ => classify_of_missing hi⟩
  | some i =>
    obtain ⟨reason, hreason⟩ := exists_obstacle hi hnot
    exact ⟨.ok (.ineligible reason), hreason⟩

/-- The address formed behind the loop is a candidate by its first reader with nothing else traced,
and so it is with its factor traced, too. -/
theorem classify_decides_readAfterLoop :
    ∃ oracle notes, oracle = (readAfterLoop.evolution readAfterLoop.flow.loops).oracle ∧
      readAfterLoop.classify (.ofList [4]) oracle .firstUse 4 =
        .ok (.recurrence .affine ⟨1, [.const 8, .const 4]⟩ true, notes) ∧
      readAfterLoop.classify (.ofList [3, 4]) oracle .anyUse 4 =
        .ok (.recurrence .affine ⟨1, [.const 8, .const 4]⟩ true, notes) := by
  let oracle := (readAfterLoop.evolution readAfterLoop.flow.loops).oracle
  obtain ⟨-, hcandidate, -, -, hmono, -⟩ :=
    classify_decides readAfterLoop 4 (.ofList [4]) .firstUse oracle
  have haddress : readAfterLoop.ComputesAddress (.ofList [4]) .firstUse 4 :=
    ⟨⟨_, _, _, rfl, rfl⟩, List.mem_singleton_self 4, 5, by decide, _, _, rfl, rfl⟩
  have hr : oracle.recurrence? 4 = some ⟨1, [.const 8, .const 4]⟩ := by decide +kernel
  obtain ⟨notes, h⟩ := (hcandidate _ _).mpr ⟨haddress, hr, .affine 1 8 4⟩
  have hwider : ∀ x ∈ InstSet.ofList [4], x ∈ InstSet.ofList [3, 4] :=
    fun x hx => List.mem_cons_of_mem 3 hx
  exact ⟨oracle, notes, rfl, h, hmono _ hwider _ notes h rfl⟩

end Func
end LoopStride
