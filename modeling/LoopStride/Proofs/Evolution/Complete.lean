import LoopStride.Proofs.Access.Walk
import LoopStride.Proofs.Evolution.Memo
import LoopStride.Proofs.Expr.Ending

/-! The search for symbolic values ends on every function, and every listed instruction with a result
has a value afterwards. The bound on its depth only makes it a definition: without it a look-up calls
look-ups for operands, each with one more instruction in progress, and there are only so many. -/
namespace LoopStride

/-- An instruction that is asked for, with those in progress and the memory before. -/
structure Question where
  path : List InstId
  id : InstId
  memo : Memo

namespace Func

/-- A look-up without a bound on the depth, where `below` stands for the look-ups of operands. -/
def recallWith (f : Func) (F : LoopForest) (below : Question → Expr × Memo) : Question → Expr × Memo
  | ⟨path, id, memo⟩ =>
    match memo.known[id]?, f.inst? id with
    | some e, _ => (e, memo)
    | none, none => (.unknown (.result id), memo)
    | none, some i =>
      if id ∈ path then (.unknown (.result id), ⟨memo.known, id :: memo.met⟩)
      else
        let follow : InstId → StateM Memo Expr := fun j memo => below ⟨id :: path, j, memo⟩
        let found := (f.evolve F (f.valueBy follow) id i).run ⟨memo.known, []⟩
        (found.1, memo.leave found.2 path id found.1)

variable {f : Func} {F : LoopForest} {path : List InstId} {id : InstId} {memo : Memo}
  {below below' : Question → Expr × Memo} {found : Expr × Memo} {fuel : Nat}

/-- The look-ups that one look-up makes have its own instruction in progress besides. -/
theorem recallWith_congr (hagree : ∀ i, f.inst? id = some i → id ∉ path →
      ∀ j memo, below ⟨id :: path, j, memo⟩ = below' ⟨id :: path, j, memo⟩) :
    f.recallWith F below ⟨path, id, memo⟩ = f.recallWith F below' ⟨path, id, memo⟩ := by
  rw [recallWith, recallWith]
  cases hk : memo.known[id]? with
  | some e => rfl
  | none =>
    cases hi : f.inst? id with
    | none => rfl
    | some i =>
      by_cases hid : id ∈ path
      · simp only [if_pos hid]
      · have hfollow : (fun j memo => below ⟨id :: path, j, memo⟩) =
            fun j memo => below' ⟨id :: path, j, memo⟩ :=
          funext₂ (hagree i hi hid)
        simp only [if_neg hid, hfollow]

def room (f : Func) (path : List InstId) : Nat := f.arena.size + 1 - path.length

theorem room_cons (hp : f.IsTrail path) (id : InstId) : f.room path = f.room (id :: path) + 1 := by
  have := hp.length_le
  rw [room, room, List.length_cons]
  omega

/-- The answer that is found when there is room for all instructions that exist. -/
def answer (f : Func) (F : LoopForest) (q : Question) : Expr × Memo :=
  (f.recall F (f.room q.path) q.path q.id).run q.memo

theorem recallWith_answer (hp : f.IsTrail path) :
    f.recallWith F (f.answer F) ⟨path, id, memo⟩ = f.answer F ⟨path, id, memo⟩ := by
  rw [answer, room_cons hp id, recall_run]
  rfl

/-- A look-up without a bound comes to the answer: the calls it makes have less room. -/
theorem ends_recall_iff (hp : f.IsTrail path) :
    Ends (f.recallWith F) ⟨path, id, memo⟩ found ↔ found = f.answer F ⟨path, id, memo⟩ := by
  refine ends_iff (P := fun q => f.IsTrail q.path) (measure fun q : Question => f.room q.path).wf
    (fun q hp => recallWith_answer hp) ?_ hp
  rintro ⟨path, id, memo⟩ other hp hother
  refine recallWith_congr fun i hi hid j memo => hother _ (hp.cons hi hid) ?_
  change f.room (id :: path) < f.room path
  rw [room_cons hp id]
  exact Nat.lt_succ_self _

/-- A look-up with nothing else in progress leaves no instruction met behind. -/
theorem met_recall_nil : ((f.recall F (fuel + 1) [] id).run memo).2.met = memo.met := by
  rw [recall_run]
  cases hk : memo.known[id]? with
  | some e => rfl
  | none =>
    cases hi : f.inst? id with
    | none => rfl
    | some i => simp

/-- The search for the values of a function ends and leaves nothing out. -/
structure FullyEvolves (f : Func) (F : LoopForest) : Prop where
  sums : ∀ ts e, Ends (f.scope F).addWith ts e ↔ e = (f.scope F).add ts
  products : ∀ t u e, Ends (f.scope F).mulWith (t, u) e ↔ e = (f.scope F).mul t u
  lookups : ∀ id memo found, Ends (f.recallWith F) ⟨[], id, memo⟩ found ↔
    found = (f.recall F (f.arena.size + 1) [] id).run memo
  settled : ∀ id memo, ((f.recall F (f.arena.size + 1) [] id).run memo).2.met = memo.met
  listed : ∀ id ∈ f.listedIds, ∀ i, f.inst? id = some i → i.hasResult = true →
    ∃ e, (f.evolution F).oracle id = some e

/-- On every function, whatever cycles its operands form, each sum, each product and each look-up of
the search for values comes to an end, with the result that the search takes; and every listed
instruction with a result has a value, none being held back as provisional. -/
theorem evolution_complete (f : Func) (F : LoopForest) : f.FullyEvolves F where
  sums _ _ := Scope.ends_add_iff
  products _ _ _ := Scope.ends_mul_iff
  lookups _ _ _ := ends_recall_iff .nil
  settled _ _ := met_recall_nil
  listed _ hid _ hi hres := exists_oracle hid hi hres

end Func
end LoopStride
