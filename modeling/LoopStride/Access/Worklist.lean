import LoopStride.Access.Classify
import LoopStride.Access.Origin

/-! The work list of the access pattern pass. It starts with the additions that take part in
computing addresses, classifies them one by one, hands candidates to a handler, and takes up
again what reads a candidate that the handler acted on. -/
namespace LoopStride

structure Handled (η : Type) where
  handler : η
  func : Func
  result : Except Fault Bool

/-- Something that does with candidates what it likes, the function included. -/
class Handler (η : Type) where
  handle : η → Func → Candidate → Handled η

/-- Remembers each candidate with its origin and never acts. -/
structure Recorder where
  seen : List (InstId × Option InstId) := []
  deriving DecidableEq, Repr

instance : Handler Recorder where
  handle h f c := ⟨⟨h.seen ++ [(c.instruction, c.origin)]⟩, f, .ok false⟩

structure Inquiry where
  config : Config
  accesses : InstSet
  oracle : Oracle
  gain : Int

structure Worklist (η : Type) where
  handler : η
  func : Func
  queue : List InstId
  queued : List InstId
  latest : List (InstId × Classification)
  candidates : List Candidate
  steps : Nat
  changed : Bool
  notes : List Note

inductive Ending where
  | drained
  | limited
  | failed (e : Fault)
  deriving DecidableEq, Repr

namespace Inquiry
variable (q : Inquiry)

def isRelevant (f : Func) (id : InstId) : Bool :=
  q.accesses.contains id && ((f.inst? id).map Instruction.isAdd).getD false

def relevant (f : Func) : List InstId := f.listedIds.filter (q.isRelevant f)

end Inquiry

namespace Worklist
variable {η : Type}

def start (q : Inquiry) (handler : η) (f : Func) : Worklist η :=
  let queue := q.relevant f
  { handler, func := f, queue, queued := queue
    latest := [], candidates := [], steps := 0, changed := false, notes := [] }

/-- Puts an instruction at the end of the queue unless it waits there. -/
def enqueue (w : Worklist η) (id : InstId) : Worklist η :=
  if id ∈ w.queued then w
  else { w with queue := w.queue ++ [id], queued := id :: w.queued }

def enqueueReaders (q : Inquiry) (w : Worklist η) (id : InstId) : Worklist η :=
  ((w.func.users id).filter (q.isRelevant w.func)).foldl enqueue w

def offer [Handler η] (q : Inquiry) (w : Worklist η) (id : InstId) (degree : Degree)
    (r : Recurrence) : Worklist η × Option Fault :=
  match w.func.originOf q.oracle r.header id with
  | .error e => (w, some e)
  | .ok origin =>
    let c : Candidate := ⟨id, degree, r, origin, q.gain⟩
    let note := Note.diagnostic ("[" ++ w.func.renderInst id ++ "] --> " ++ degree.render ++
      " candidate, estimated gain " ++ toString q.gain ++ " cycles per iteration")
    let handled := Handler.handle w.handler w.func c
    let w := { w with
      handler := handled.handler, func := handled.func, notes := w.notes ++ [note] }
    match handled.result with
    | .error e => (w, some e)
    | .ok acted =>
      let w := if acted then enqueueReaders q { w with changed := true } id else w
      ({ w with candidates := w.candidates ++ [c] }, none)

def settle [Handler η] (q : Inquiry) (w : Worklist η) (id : InstId) :
    Worklist η × Option Fault :=
  match w.func.classify q.accesses q.oracle q.config.policy id with
  | .error e => (w, some e)
  | .ok (c, notes) =>
    let w := { w with notes := w.notes ++ notes }
    let (w, failure?) :=
      match c with
      | .recurrence degree r true => offer q w id degree r
      | _ => (w, none)
    match failure? with
    | some e => (w, some e)
    | none => ({ w with latest := (id, c) :: w.latest.filter fun e => e.1 != id }, none)

def next (w : Worklist η) (id : InstId) (rest : List InstId) : Worklist η :=
  { w with queue := rest, queued := w.queued.filter (· != id), steps := w.steps + 1 }

def run [Handler η] (q : Inquiry) : Nat → Worklist η → Worklist η × Ending
  | 0, w => if w.queue.isEmpty then (w, .drained) else (w, .limited)
  | budget + 1, w =>
    match w.queue with
    | [] => (w, .drained)
    | id :: rest =>
      match settle q (w.next id rest) id with
      | (w, some e) => (w, .failed e)
      | (w, none) => run q budget w

/-- The last classifications in the order of the listing, each instruction once. -/
def classifications (w : Worklist η) : List (InstId × Classification) :=
  (w.func.listedIds.foldl (fun ids id => if id ∈ ids then ids else ids ++ [id]) []).filterMap
    fun id => (w.latest.lookup id).map (id, ·)

end Worklist
end LoopStride
