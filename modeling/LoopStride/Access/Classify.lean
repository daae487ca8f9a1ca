import LoopStride.Access.Trace
import LoopStride.Evolution
import LoopStride.Fault

/-! How the address that an addition computes evolves from round to round of a loop. -/
namespace LoopStride

inductive Obstacle where
  | notAddition
  | notAccessRelated
  | noPointerUse
  | noRecurrence
  | unsupportedDegree (degree : Degree)
  deriving DecidableEq, Repr

inductive Classification where
  | ineligible (reason : Obstacle)
  | recurrence (degree : Degree) (descriptor : Recurrence) (isCandidate : Bool)
  deriving DecidableEq, Repr

def Classification.isCandidate : Classification → Bool
  | .recurrence _ _ c => c
  | .ineligible _ => false

/-- Start and step are constants; a second step may be anything. -/
def Recurrence.hasConstantPace (r : Recurrence) : Bool :=
  (r.constant? 0).isSome && (r.constant? 1).isSome

namespace Func
variable (f : Func)

def hasPointerUse (policy : UsePolicy) (id : InstId) : Bool :=
  let formsPointer := fun user => ((f.inst? user).map Instruction.formsPointer).getD false
  match policy with
  | .anyUse => (f.users id).any formsPointer
  | .firstUse => ((f.firstUser? id).map formsPointer).getD false

def classifyRecurrence (shown : String) (r : Recurrence) : Classification × List Note :=
  let operand := fun i => ((r.operands[i]?).map Expr.render).getD "?"
  let line := fun (text : String) => Note.diagnostic ("[" ++ shown ++ "] --> " ++ text)
  let paces := " add recurrence " ++ r.render ++ ": start " ++ operand 0 ++ ", step " ++ operand 1
  let supported := fun note =>
    (.recurrence r.degree r r.hasConstantPace,
      note :: if r.hasConstantPace then [] else [line "symbolic start or step, not a candidate"])
  match r.degree with
  | .affine => supported (line ("affine" ++ paces))
  | .quadratic => supported (line ("quadratic" ++ paces ++ ", second step " ++ operand 2))
  | d =>
    (.ineligible (.unsupportedDegree d),
      [line (d.render ++ " add recurrence " ++ r.render ++ ", ignored")])

/-- Decides about `id` in this order: it is an addition, takes part in computing addresses, is
turned into one, and follows a recurrence of low degree. The oracle is asked last. -/
def classify (accesses : InstSet) (oracle : Oracle) (policy : UsePolicy) (id : InstId) :
    Except Fault (Classification × List Note) :=
  match f.inst? id with
  | none => .error (.unknownInstruction id)
  | some i => .ok <|
    if !i.isAdd then (.ineligible .notAddition, [])
    else if !accesses.contains id then (.ineligible .notAccessRelated, [])
    else if !f.hasPointerUse policy id then (.ineligible .noPointerUse, [])
    else
      match oracle.recurrence? id with
      | none =>
        (.ineligible .noRecurrence,
          [.diagnostic ("[" ++ f.renderInst id ++ "] --> not an add recurrence")])
      | some r => classifyRecurrence (f.renderInst id) r

end Func
end LoopStride
