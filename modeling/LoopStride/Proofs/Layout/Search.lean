import LoopStride.Proofs.Evolution.Memo
import LoopStride.Proofs.Layout.Renumber

/-! The numbering of the blocks bears on the symbolic values in one way only: it settles the order in
which the instructions are asked for. Asked in one and the same order, they have the same values in
every numbering, up to the names of the headers. -/
namespace LoopStride
variable {π : Equiv.Perm BlockId}

/-! ### Merges -/

def HeaderPhi.relabel (π : Equiv.Perm BlockId) (p : HeaderPhi) : HeaderPhi :=
  { p with header := π p.header }

namespace Scope.Renames
variable {S S' : Scope}

theorem headerPhi? (hS : S.Renames π S') (id : InstId) (incoming : List (BlockId × Value)) :
    S'.headerPhi? id (incoming.map fun e => (π e.1, e.2)) =
      (S.headerPhi? id incoming).map (HeaderPhi.relabel π) := by
  rw [Scope.headerPhi?, Scope.headerPhi?, hS.home]
  cases S.home id with
  | none => rfl
  | some header =>
    simp only [Option.map_some, Option.bind_eq_bind, Option.bind_some, hS.forest.ofHeader?]
    cases S.forest.ofHeader? header with
    | none => rfl
    | some l =>
      rcases incoming with _ | ⟨⟨b, v⟩, _ | ⟨⟨c, w⟩, _ | _⟩⟩
      · rfl
      · rfl
      · simp only [List.map_cons, List.map_nil, Option.bind_some, hS.forest.contains]
        cases S.forest.contains l b <;> cases S.forest.contains l c <;> rfl
      · rfl

theorem without (hS : S.Renames π S') (symbol e : Expr) :
    S'.without (symbol.relabel π) (e.relabel π) = (S.without symbol e).map (Expr.relabel π) := by
  by_cases he : e = symbol
  · simp [Scope.without, he]
  · have hne : e.relabel π ≠ symbol.relabel π := Expr.relabel_injective.ne he
    cases e with
    | sum ts =>
      rw [Expr.relabel_sum] at hne ⊢
      rw [Scope.without, Scope.without, if_neg hne, if_neg he]
      by_cases hs : symbol ∈ ts
      · rw [if_pos (List.mem_map_of_mem hs), if_pos hs, Option.map_some, ← hS.add,
          List.map_erase Expr.relabel_injective]
      · rw [if_neg (mt (List.mem_map_of_injective Expr.relabel_injective).mp hs), if_neg hs]
        rfl
    | const c =>
      rw [Expr.relabel_const] at hne ⊢
      simp [Scope.without, hne, he]
    | unknown v =>
      rw [Expr.relabel_unknown] at hne ⊢
      simp [Scope.without, hne, he]
    | product ts =>
      rw [Expr.relabel_product] at hne ⊢
      simp [Scope.without, hne, he]
    | recurrence h ts =>
      rw [Expr.relabel_recurrence] at hne ⊢
      simp [Scope.without, hne, he]

theorem close? (hS : S.Renames π S') (p : HeaderPhi) (symbol start next : Expr) :
    S'.close? (p.relabel π) (symbol.relabel π) (start.relabel π) (next.relabel π) =
      (S.close? p symbol start next).map (Expr.relabel π) := by
  obtain ⟨l, header, v, w⟩ := p
  rw [show HeaderPhi.relabel π ⟨l, header, v, w⟩ = ⟨l, π header, v, w⟩ from rfl, Scope.close?,
    Scope.close?, hS.without]
  cases S.without symbol next with
  | none => rfl
  | some e =>
    simp only [Option.map_some, Option.bind_eq_bind, Option.bind_some, Option.pure_def]
    have hinv : ∀ e : Expr,
        (if S'.isInvariant l (e.relabel π) = true then
          some (Expr.recurrenceOf (π header) [start.relabel π, e.relabel π]) else none) =
        (if S.isInvariant l e = true then
          some (Expr.recurrenceOf header [start, e]) else none).map (Expr.relabel π) := by
      intro e
      have hrec : Expr.recurrenceOf (π header) ([start, e].map (Expr.relabel π)) =
          (Expr.recurrenceOf header [start, e]).relabel π := Expr.recurrenceOf_map
      rw [hS.isInvariant]
      split
      · exact congrArg some hrec
      · rfl
    have he := hinv e
    cases e with
    | recurrence h ops =>
      have hrec : Expr.recurrenceOf (π header) ((start :: ops).map (Expr.relabel π)) =
          (Expr.recurrenceOf header (start :: ops)).relabel π := Expr.recurrenceOf_map
      rw [Expr.relabel_recurrence] at he ⊢
      dsimp only
      rw [hS.forest.ofHeader?]
      split
      · exact congrArg some hrec
      · exact he
    | const c => rwa [Expr.relabel_const] at he ⊢
    | unknown v => rwa [Expr.relabel_unknown] at he ⊢
    | sum ts => rwa [Expr.relabel_sum] at he ⊢
    | product ts => rwa [Expr.relabel_product] at he ⊢

end Scope.Renames

theorem convert_relabel (op : CastOp) (sourceWidth targetWidth : Option Nat) (symbol e : Expr) :
    convert op sourceWidth targetWidth (symbol.relabel π) (e.relabel π) =
      (convert op sourceWidth targetWidth symbol e).relabel π := by
  cases e with
  | const c =>
    cases op with
    | zeroExtend =>
      rw [Expr.relabel_const, convert, convert]
      split
      · cases sourceWidth <;> simp
      · simp
    | truncate => cases targetWidth <;> simp [convert]
    | _ => simp [convert]
  | _ => cases op <;> simp [convert]

/-! ### The search -/

/-- The same values found, up to the names of the headers, and the same instructions met. -/
structure Memo.Renames (π : Equiv.Perm BlockId) (m m' : Memo) : Prop where
  known : ∀ id : InstId, m'.known[id]? = (m.known[id]?).map (Expr.relabel π)
  met : m'.met = m.met

/-- From memories that correspond the searches come to results and memories that correspond. -/
def Mirrors (π : Equiv.Perm BlockId) (x x' : StateM Memo Expr) : Prop :=
  ∀ m m' : Memo, m.Renames π m' →
    (x'.run m').1 = (x.run m).1.relabel π ∧ (x.run m).2.Renames π (x'.run m').2

section
variable {f : Func} {F F' : LoopForest} {id : InstId} {i : Instruction}

theorem mirrors_pure {e e' : Expr} (he : e' = e.relabel π) : Mirrors π (pure e) (pure e') :=
  fun _ _ hm => ⟨he, hm⟩

theorem mirrors_symbol (id : InstId) :
    Mirrors π (pure (.unknown (.result id))) (pure (.unknown (.result id))) :=
  mirrors_pure Expr.relabel_unknown.symm

theorem Mirrors.bind {x x' : StateM Memo Expr} {g g' : Expr → StateM Memo Expr}
    (hx : Mirrors π x x') (hg : ∀ e, Mirrors π (g e) (g' (e.relabel π))) :
    Mirrors π (x >>= g) (x' >>= g') := by
  intro m m' hm
  obtain ⟨he, hm⟩ := hx m m' hm
  have hrest := hg (x.run m).1 _ _ hm
  rw [← he] at hrest
  exact hrest

/-- An instruction evolves alike from values that are found alike. -/
theorem mirrors_evolve {f' : Func} {value value' : Value → StateM Memo Expr}
    (hS : (f.scope F).Renames π (f'.scope F')) (hwidth : ∀ v, f'.width? v = f.width? v)
    (hvalue : ∀ v, Mirrors π (value v) (value' v)) (id : InstId) (i : Instruction) :
    Mirrors π (f.evolve F value id i) (f'.evolve F' value' id (i.relabel π)) := by
  have hpair : ∀ a b : Expr, (f'.scope F').add [a.relabel π, b.relabel π] =
      ((f.scope F).add [a, b]).relabel π := fun a b => hS.add [a, b]
  have hsymbol : Mirrors π _ _ := mirrors_symbol id
  rw [Func.evolve, Func.evolve, Instruction.operation_relabel]
  cases i.operation with
  | arith op l r =>
    cases op with
    | add =>
      refine (hvalue l).bind fun a => (hvalue r).bind fun b => mirrors_pure ?_
      exact hpair a b
    | sub =>
      refine (hvalue l).bind fun a => (hvalue r).bind fun b => mirrors_pure ?_
      rw [hS.scale, hpair]
    | mul =>
      refine (hvalue l).bind fun a => (hvalue r).bind fun b => mirrors_pure ?_
      exact hS.mul a b
    | shl =>
      dsimp only [Operation.relabel]
      cases shiftFactor? r with
      | none => exact hsymbol
      | some c => exact (hvalue l).bind fun a => mirrors_pure (hS.scale c a)
    | _ => exact hsymbol
  | cast op source =>
    refine (hvalue source).bind fun e => mirrors_pure ?_
    rw [hwidth, Instruction.ty_relabel, ← convert_relabel, Expr.relabel_unknown]
  | address base offset =>
    refine (hvalue base).bind fun a => (hvalue offset).bind fun b => mirrors_pure ?_
    exact hpair a b
  | phi incoming =>
    dsimp only [Operation.relabel]
    rw [hS.headerPhi?]
    cases (f.scope F).headerPhi? id incoming with
    | none => exact hsymbol
    | some p =>
      refine (hvalue p.entering).bind fun start => ?_
      rw [show (p.relabel π).loop = p.loop from rfl, hS.isInvariant]
      split
      · refine (hvalue p.next).bind fun next => mirrors_pure ?_
        have hclose := hS.close? p (.unknown (.result id)) start next
        rw [Expr.relabel_unknown] at hclose
        rw [hclose]
        cases (f.scope F).close? p (.unknown (.result id)) start next <;> simp
      · exact hsymbol
  | _ => exact hsymbol

end

section
variable {f : Func} {π : Renumbering f.blocks.size}

theorem mirrors_valueBy {follow follow' : InstId → StateM Memo Expr}
    (hfollow : ∀ id, Mirrors π.perm (follow id) (follow' id)) (v : Value) :
    Mirrors π.perm (f.valueBy follow v) ((f.renumber π).valueBy follow' v) := by
  cases v with
  | result id =>
    rw [Func.valueBy, Func.valueBy, f.size_arena_renumber]
    split
    · exact hfollow id
    · exact mirrors_symbol id
  | literal l =>
    cases l with
    | int c bits => exact mirrors_pure Expr.relabel_const.symm
    | null => exact mirrors_pure Expr.relabel_unknown.symm
  | param p => exact mirrors_pure Expr.relabel_unknown.symm

theorem Memo.Renames.insert {π : Equiv.Perm BlockId} {m m' : Memo} (hm : m.Renames π m')
    (id : InstId) (e : Expr) (met : List InstId) :
    Memo.Renames π ⟨m.known.insert id e, met⟩ ⟨m'.known.insert id (e.relabel π), met⟩ where
  known j := by
    rw [Std.TreeMap.getElem?_insert, Std.TreeMap.getElem?_insert, hm.known]
    split <;> rfl
  met := rfl

theorem mirrors_recall (fuel : Nat) (path : List InstId) (id : InstId) :
    Mirrors π.perm (f.recall f.flow.loops fuel path id)
      ((f.renumber π).recall (f.renumber π).flow.loops fuel path id) := by
  induction fuel generalizing path id with
  | zero => exact mirrors_symbol id
  | succ fuel ih =>
    intro m m' hm
    rw [recall_run, recall_run, hm.known, f.inst?_renumber]
    cases m.known[id]? with
    | some e => exact ⟨rfl, hm⟩
    | none =>
      cases hi : f.inst? id with
      | none => exact ⟨Expr.relabel_unknown.symm, hm⟩
      | some i =>
        rw [Option.map_none, Option.map_some]
        dsimp only
        by_cases hp : id ∈ path
        · rw [if_pos hp, if_pos hp]
          exact ⟨Expr.relabel_unknown.symm, hm.known, congrArg (id :: ·) hm.met⟩
        · rw [if_neg hp, if_neg hp]
          have hstart : Memo.Renames π.perm ⟨m.known, []⟩ ⟨m'.known, []⟩ := ⟨hm.known, rfl⟩
          obtain ⟨he, hafter⟩ := mirrors_evolve (f.scope_renumber π) (f.width?_renumber π)
            (mirrors_valueBy fun j => ih (id :: path) j) id i _ _ hstart
          refine ⟨he, ?_⟩
          rw [hafter.met, hm.met, he]
          split
          · exact hafter.insert id _ _
          · exact ⟨hafter.known, rfl⟩

/-- The values found by asking for the instructions of a list one after the other. -/
def Func.evolutionIn (f : Func) (ids : List InstId) : Evolution :=
  ⟨(ids.foldl (f.ask f.flow.loops) ⟨∅, []⟩).known⟩

/-- The analysis asks in the order of the listing. -/
theorem Func.evolution_eq_evolutionIn (f : Func) :
    f.evolution f.flow.loops = f.evolutionIn f.listedIds := rfl

theorem Memo.Renames.ask {m m' : Memo} (hm : m.Renames π.perm m') (id : InstId) :
    (f.ask f.flow.loops m id).Renames π.perm
      ((f.renumber π).ask (f.renumber π).flow.loops m' id) := by
  have hresult : (((f.renumber π).inst? id).map Instruction.hasResult).getD false =
      ((f.inst? id).map Instruction.hasResult).getD false := by
    rw [f.inst?_renumber, Option.map_map]
    rfl
  rw [Func.ask, Func.ask, hresult, f.size_arena_renumber]
  split
  · exact (mirrors_recall _ [] id m m' hm).2
  · exact hm

/-- Asked for in the same order, the instructions have the same values in every numbering of the
blocks, up to the names of the headers. -/
theorem Func.evolutionIn_renumber (f : Func) (π : Renumbering f.blocks.size) (ids : List InstId)
    (id : InstId) : ((f.renumber π).evolutionIn ids).oracle id =
      ((f.evolutionIn ids).oracle id).map (Expr.relabel π.perm) := by
  have hfold : ∀ (ids : List InstId) (m m' : Memo), m.Renames π.perm m' →
      (ids.foldl (f.ask f.flow.loops) m).Renames π.perm
        (ids.foldl ((f.renumber π).ask (f.renumber π).flow.loops) m') := by
    intro ids
    induction ids with
    | nil => exact fun _ _ hm => hm
    | cons j ids ih => exact fun m m' hm => ih _ _ (hm.ask j)
  have hempty : Memo.Renames π.perm ⟨∅, []⟩ ⟨∅, []⟩ := ⟨fun id => by simp, rfl⟩
  exact (hfold ids _ _ hempty).known id

/-- A numbering that keeps the order of the listing keeps the values. -/
theorem Func.evolution_renumber {f : Func} {π : Renumbering f.blocks.size}
    (h : (f.renumber π).listedIds = f.listedIds) (id : InstId) :
    ((f.renumber π).evolution (f.renumber π).flow.loops).oracle id =
      ((f.evolution f.flow.loops).oracle id).map (Expr.relabel π.perm) := by
  rw [evolution_eq_evolutionIn, evolution_eq_evolutionIn, h]
  exact f.evolutionIn_renumber π f.listedIds id

end
end LoopStride
