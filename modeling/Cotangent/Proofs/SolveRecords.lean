import Cotangent.Proofs.Contract
import Cotangent.Proofs.SharedSolves

/-! Solve operations and the calls of their backends. What a node remembers is spread over two places,
the values that it keeps and the phase of its slot. A recording of the calls that the backend receives
says the same in one: the values are those of the last attempt at factors if it succeeded, and there is
an analysis once some analysis has succeeded. Every request keeps this, whatever the backend answers,
and the record itself changes nothing. -/
namespace Cotangent

variable {α β γ σ ω : Type}

/-! ### What a record says -/

deriving instance DecidableEq for Received

namespace Received

/-- An analysis that succeeded. -/
def isAnalysis : Received α → Bool
  | symbolic _ succeeded => succeeded
  | _ => false

/-- The values of the last attempt at factors, if it succeeded. -/
def current (record : List (Received α)) : Option (Array α) :=
  match record.find? isStage with
  | some (numeric _ values true) => some values
  | _ => none

/-- The calls of one attempt at factors of values, the latest first. It begins with an analysis unless
one has been made, and there are no values for a pattern that is refused. -/
inductive Attempt (p : Pattern) (values : Array α) : (analysed : Bool) → List (Received α) → Prop where
  | refused : Attempt p values false [symbolic p false]
  | first (succeeded : Bool) : Attempt p values false [numeric p values succeeded, symbolic p true]
  | again (succeeded : Bool) : Attempt p values true [numeric p values succeeded]

variable [Scalar α]

/-- The current factors, if any, are of numerically equal values. -/
def isCurrent (values : Array α) (record : List (Received α)) : Bool :=
  (current record).any fun v => Scalar.listEq v.toList values.toList

/-- The calls for factors of values after a record: none if the current ones are of equal values, else
one attempt. -/
def Prepares (p : Pattern) (values : Array α) (record stages : List (Received α)) : Prop :=
  if isCurrent values record then stages = [] else Attempt p values (record.any isAnalysis) stages

/-- The call for a solve of so many columns, if there are factors and columns. -/
def solves (p : Pattern) (columns : Nat) (record : List (Received α)) : List (Received α) :=
  if (current record).isSome ∧ columns ≠ 0 then [solve (p.nrows * columns) columns] else []

/-- A record before and after the solution of a system of values with so many columns. -/
def Extends (p : Pattern) (values : Array α) (columns : Nat) (record record' : List (Received α)) :
    Prop :=
  ∃ stages, Prepares p values record stages ∧
    record' = solves p columns (stages ++ record) ++ (stages ++ record)

omit [Scalar α]

theorem current_cons {call : Received α} (question : call.isStage = false)
    (record : List (Received α)) : current (call :: record) = current record := by
  rw [current, List.find?_cons_of_neg (by simp [question])]
  rfl

theorem isAnalysis_of_question {call : Received α} (question : call.isStage = false) :
    call.isAnalysis = false := by
  cases call with
  | symbolic => cases question
  | _ => rfl

end Received

/-! ### A slot and its record -/

namespace Slot

open Received

/-- What a record of all calls says of the slot that made them. -/
structure Logged (p : Pattern) (s : Slot (Recorded β)) (record : List (Received α)) : Prop where
  pattern : s.pattern = p
  analysed : record.any isAnalysis = true ↔ s.phase ≠ .unfactored

variable [Backend α ω β] {p : Pattern} {s : Slot (Recorded β)} {record : List (Received α)} {w : ω}

/-- An analysis is one call. -/
theorem logged_symbolicFactorize (square : p.isSquare = true)
    (none : record.any isAnalysis = false) :
    Run.Post (symbolicFactorize p) (s, (record, w))
      (fun _ t => t.2.1 = symbolic p true :: record ∧ t.1.Logged p t.2.1)
      fun _ t => t.2.1 = symbolic p false :: record ∧ t.1.Logged p t.2.1 := by
  simp only [Run.Post, symbolicFactorize, if_pos square, Backend.symbolic, Recorded.stage]
  rcases (Backend.symbolic p : Run (β × ω) Unit) (s.backend.backend, w) with ⟨e | _, b, w'⟩
  · exact ⟨rfl, rfl, by simp [Except.isOk, Except.toBool, isAnalysis, none]⟩
  · exact ⟨rfl, rfl, by simp [Except.isOk, Except.toBool, isAnalysis]⟩

/-- Values are one call. -/
theorem Logged.factorValues (logged : s.Logged p record) (analysed : record.any isAnalysis = true)
    (values : Array α) :
    Run.Post (Slot.factorValues values) (s, (record, w))
      (fun _ t => t.2.1 = numeric p values true :: record ∧ t.1.Logged p t.2.1 ∧
        t.1.phase = .factored)
      fun _ t => t.2.1 = numeric p values false :: record ∧ t.1.Logged p t.2.1 := by
  obtain ⟨rfl, -⟩ := logged
  simp only [Run.Post, Slot.factorValues, Backend.numeric, Recorded.stage]
  rcases (Backend.numeric s.pattern values : Run (β × ω) Unit) (s.backend.backend, w)
    with ⟨e | _, b, w'⟩
  · exact ⟨rfl, rfl, by simp [isAnalysis, analysed]⟩
  · exact ⟨rfl, ⟨rfl, by simp [isAnalysis, analysed]⟩, rfl⟩

/-- Factors of a matrix on the pattern of the slot take one attempt, which says how it ended. -/
theorem Logged.numericFactorize {a : SparseMatrix α} (logged : s.Logged a.pattern record)
    (square : a.pattern.isSquare = true) :
    Run.Post (Slot.numericFactorize a) (s, (record, w))
      (fun _ t => ∃ stages, Attempt a.pattern a.values (record.any isAnalysis) stages ∧
        t.2.1 = stages ++ record ∧ t.1.Logged a.pattern t.2.1 ∧ t.1.phase = .factored ∧
          current t.2.1 = some a.values)
      fun _ t => ∃ stages, Attempt a.pattern a.values (record.any isAnalysis) stages ∧
        t.2.1 = stages ++ record ∧ t.1.Logged a.pattern t.2.1 ∧ current t.2.1 = none := by
  change Run.Post (if s.phase = .unfactored ∨ a.pattern ≠ s.pattern then
      symbolicFactorize a.pattern >>= fun _ => Slot.factorValues a.values
    else Slot.factorValues a.values) (s, (record, w)) _ _
  cases analysed : record.any isAnalysis with
  | false =>
    have phase : s.phase = .unfactored := by simpa [analysed] using logged.analysed
    rw [if_pos (.inl phase)]
    have refused := logged_symbolicFactorize (s := s) (w := w) square analysed
    refine Run.Post.bind (refused.imp (fun _ _ => id) ?_) ?_
    · rintro e ⟨t, _, v⟩ ⟨rfl, here⟩
      exact ⟨_, .refused, rfl, here, rfl⟩
    · rintro _ ⟨t, _, v⟩ ⟨rfl, here⟩
      refine (here.factorValues (by simp [isAnalysis]) a.values).imp ?_ ?_
      · rintro _ ⟨t, _, v⟩ ⟨rfl, here, phase⟩
        exact ⟨_, .first true, rfl, here, phase, rfl⟩
      · rintro e ⟨t, _, v⟩ ⟨rfl, here⟩
        exact ⟨_, .first false, rfl, here, rfl⟩
  | true =>
    have phase := logged.analysed.mp analysed
    rw [if_neg (by simp [phase, logged.pattern])]
    refine (logged.factorValues analysed a.values).imp ?_ ?_
    · rintro _ ⟨t, _, v⟩ ⟨rfl, here, phase⟩
      exact ⟨_, .again true, rfl, here, phase, rfl⟩
    · rintro e ⟨t, _, v⟩ ⟨rfl, here⟩
      exact ⟨_, .again false, rfl, here, rfl⟩

/-- A solve with factors is one call, if it has the rows and any columns. -/
theorem record_solve (phase : s.phase = .factored) (rhs : DenseMatrix α) (transposed : Bool) :
    (s.solve transposed (rhs, (record, w))).2.2.1 =
      (if rhs.nrows = s.pattern.nrows ∧ rhs.ncols ≠ 0 then
        [.solve (rhs.nrows * rhs.ncols) rhs.ncols] else []) ++ record := by
  have factors : s.requireFactors = .ok () := if_pos phase
  have start : s.solve transposed (rhs, (record, w)) = (Run.ofExcept (s.checkRows rhs) >>= fun _ =>
      onColumns fun nrhs => Backend.solve s.backend nrhs transposed) (rhs, (record, w)) := by
    unfold Slot.solve
    rw [factors, Run.bind_apply]
    rfl
  rw [start, checkRows]
  by_cases rows : rhs.nrows = s.pattern.nrows
  · rw [if_pos rows]
    change ((if rhs.ncols = 0 then pure () else Run.mapError (.atStage .solve)
      (Run.onData (Backend.solve s.backend rhs.ncols transposed)) :
        Run (DenseMatrix α × (List (Received α) × ω)) Unit) (rhs, (record, w))).2.2.1 = _
    by_cases none : rhs.ncols = 0
    · rw [if_pos none, if_neg fun both => both.2 none]
      rfl
    · rw [if_neg none, if_pos ⟨rows, none⟩]
      rfl
  · rw [if_neg rows, if_neg fun both => rows both.1]
    rfl

end Slot

/-! ### A cell and its record -/

namespace SolveCell

open Received

/-- What a record of all calls says of the cell that made them. -/
structure Logged (p : Pattern) (c : SolveCell α (Recorded β)) (record : List (Received α)) : Prop where
  square : p.isSquare = true
  slot : c.solver.primary.Logged p record
  remembered : c.factored = current record
  factored : c.factored.isSome = true → c.solver.primary.phase = .factored

variable [Scalar α] [Backend α ω β] {p : Pattern} {c : SolveCell α (Recorded β)}
  {record : List (Received α)} {w : ω} {a : SparseMatrix α}

/-- Factors of a matrix take the calls that the record asks for. -/
theorem Logged.factorize (logged : c.Logged a.pattern record) :
    Run.Post (SolveCell.factorize a) (c, (record, w))
      (fun _ t => ∃ stages, Prepares a.pattern a.values record stages ∧ t.2.1 = stages ++ record ∧
        t.1.Logged a.pattern t.2.1 ∧ (current t.2.1).isSome = true)
      fun _ t => ∃ stages, Prepares a.pattern a.values record stages ∧ t.2.1 = stages ++ record ∧
        t.1.Logged a.pattern t.2.1 ∧ current t.2.1 = none := by
  by_cases kept : isCurrent a.values record = true
  · have remembered :
        (c.factored.any fun v => Scalar.listEq v.toList a.values.toList) = true := by
      rw [logged.remembered]
      exact kept
    simp only [Run.Post, SolveCell.factorize, if_pos remembered]
    refine ⟨[], by rw [Prepares, if_pos kept], rfl, logged, ?_⟩
    rw [isCurrent, Option.any_eq_true] at kept
    obtain ⟨v, found, -⟩ := kept
    rw [found]
    rfl
  · have other :
        ¬(c.factored.any fun v => Scalar.listEq v.toList a.values.toList) = true := by
      rw [logged.remembered]
      exact kept
    have attempt := logged.slot.numericFactorize (w := w) logged.square
    simp only [Run.Post, SolveCell.factorize, if_neg other, Solver.onPrimary] at attempt ⊢
    rcases ran : (Slot.numericFactorize a : Run (Slot (Recorded β) × (List (Received α) × ω)) Unit)
      (c.solver.primary, (record, w)) with ⟨e | _, slot, record', w'⟩ <;> rw [ran] at attempt
    · obtain ⟨stages, attempted, rfl, slot, none⟩ := attempt
      exact ⟨stages, by rwa [Prepares, if_neg kept], rfl,
        ⟨logged.square, slot, none.symm, fun h => by cases h⟩, none⟩
    · obtain ⟨stages, attempted, rfl, slot, phase, now⟩ := attempt
      exact ⟨stages, by rwa [Prepares, if_neg kept], rfl, ⟨logged.square, slot, now.symm, fun _ => phase⟩,
        by rw [now]; rfl⟩

omit [Scalar α] [Backend α ω β] in
/-- A question changes nothing of what a record says. -/
theorem Logged.question (logged : c.Logged p record) {call : Received α}
    (question : call.isStage = false) : c.Logged p (call :: record) where
  square := logged.square
  slot := ⟨logged.slot.pattern, by
    simpa [isAnalysis_of_question question] using logged.slot.analysed⟩
  remembered := logged.remembered.trans (current_cons question record).symm
  factored := logged.factored

omit [Scalar α] in
/-- A solve with factors changes nothing of what a record says. -/
theorem Logged.solution (logged : c.Logged p record) (ready : (current record).isSome = true)
    (rhs : DenseMatrix α) (transposed : Bool) :
    let ran := SolveCell.solution rhs transposed (c, (record, w))
    ran.2.1.Logged p ran.2.2.1 ∧
      (rhs.nrows = p.nrows → ran.2.2.1 = solves p rhs.ncols record ++ record) := by
  have phase := logged.factored (logged.remembered ▸ ready)
  have noted : (c.solver.primary.solve transposed (rhs, (record, w))).2.2.1 = _ :=
    Slot.record_solve phase rhs transposed
  rw [logged.slot.pattern] at noted
  change Logged p c (c.solver.primary.solve transposed (rhs, (record, w))).2.2.1 ∧ (_ →
    (c.solver.primary.solve transposed (rhs, (record, w))).2.2.1 = _)
  rw [noted]
  constructor
  · split
    · exact logged.question rfl
    · exact logged
  · intro rows
    simp [solves, rows, ready]

/-- The solution of a system takes the calls that the record asks for. -/
theorem Logged.system (logged : c.Logged a.pattern record) (rhs : DenseMatrix α) (transposed : Bool) :
    let ran := (SolveCell.factorize a >>= fun _ => SolveCell.solution rhs transposed) (c, (record, w))
    ran.2.1.Logged a.pattern ran.2.2.1 ∧ (rhs.nrows = a.pattern.nrows →
      Extends a.pattern a.values rhs.ncols record ran.2.2.1) := by
  refine Run.Post.always (P := fun t : SolveCell α (Recorded β) × (List (Received α) × ω) =>
    t.1.Logged a.pattern t.2.1 ∧ (rhs.nrows = a.pattern.nrows →
      Extends a.pattern a.values rhs.ncols record t.2.1)) ?_
  refine Run.Post.bind (logged.factorize.imp (fun _ _ => id) ?_) ?_
  · rintro e ⟨c, _, w⟩ ⟨stages, prepared, rfl, logged, none⟩
    exact ⟨logged, fun _ => ⟨stages, prepared, by simp [solves, none]⟩⟩
  · rintro _ ⟨c, _, w⟩ ⟨stages, prepared, rfl, logged, ready⟩
    obtain ⟨after, noted⟩ := logged.solution (w := w) ready rhs transposed
    have here : (SolveCell.solution rhs transposed (c, (stages ++ record, w))).2.1.Logged a.pattern
        (SolveCell.solution rhs transposed (c, (stages ++ record, w))).2.2.1 ∧
        (rhs.nrows = a.pattern.nrows → Extends a.pattern a.values rhs.ncols record
          (SolveCell.solution rhs transposed (c, (stages ++ record, w))).2.2.1) :=
      ⟨after, fun rows => ⟨stages, prepared, noted rows⟩⟩
    unfold Run.Post
    split <;> next ran => rwa [ran] at here

end SolveCell

/-! ### The operation and its record -/

namespace Solve

open Received

variable [Scalar α]

/-- The operation has a cell, and the record says what the cell remembers. -/
def Logged (op : Solve) (s : Store α (Recorded β) (List (Received α) × ω)) : Prop :=
  ∃ c, s.cells[op.cell]? = some c ∧ c.Logged op.pattern s.world.1

variable [Backend α ω β] {op : Solve} {s t : Store α (Recorded β) (List (Received α) × ω)}

/-- The solution of a system leaves a record of it. -/
theorem Logged.solveWith (logged : op.Logged s) (a rhs : DenseMatrix α) (opposite : Bool) :
    op.Logged (op.solveWith a rhs opposite s).2 ∧
      ∀ m, SparseMatrix.project a op.pattern = .ok m → rhs.nrows = op.pattern.nrows →
        Extends op.pattern m.values rhs.ncols s.world.1
          (op.solveWith a rhs opposite s).2.world.1 := by
  obtain ⟨c, held, here⟩ := logged
  cases projected : SparseMatrix.project a op.pattern with
  | error e =>
    have same : op.solveWith a rhs opposite s = (.error e, s) := by
      rw [Solve.solveWith, projected]
      rfl
    rw [same]
    exact ⟨⟨c, held, here⟩, fun _ h => by cases h⟩
  | ok m =>
    have pattern : m.pattern = op.pattern := SparseMatrix.pattern_project projected
    rw [← pattern] at here
    have system := here.system (w := s.world.2) rhs (op.transposed != opposite)
    have ran : op.solveWith a rhs opposite s = Store.onCell op.cell
        (SolveCell.factorize m >>= fun _ => SolveCell.solution rhs (op.transposed != opposite)) s := by
      simp only [Solve.solveWith, projected]
      rfl
    rw [pattern] at system
    rw [ran, Store.after_onCell held]
    refine ⟨⟨_, by simp [(Array.getElem?_eq_some_iff.mp held).1], system.1⟩, ?_⟩
    intro m' same rows
    cases same
    exact system.2 rows

omit [Backend α ω β] in
/-- A new operation has made no calls. -/
theorem logged_create {catalogue : Catalogue α (Recorded β)} {plugin : String} {pattern : Pattern}
    {transposed : Bool} (created : Solve.create catalogue plugin pattern transposed s = .ok (op, t))
    (fresh : s.world.1 = []) : op.Logged t := by
  obtain ⟨square, rfl, b, -, rfl⟩ := create_cases created
  refine ⟨_, Array.getElem?_push_size, beq_iff_eq.mpr square.symm, ⟨rfl, ?_⟩, ?_, nofun⟩
  · simp [fresh, Slot.new]
  · rw [fresh]
    rfl

/-- Every request leaves a record of what the cell remembers. -/
theorem Logged.ask (logged : op.Logged s) (r : Operation.Request α) :
    op.Logged (op.operation.ask r s).2 :=
  ask_keeps (P := op.Logged) (fun _ a rhs opposite logged => (logged.solveWith a rhs opposite).1) logged r

end Solve

/-! ### Taking notes -/

section Plain

variable [Scalar α] [Backend α ω β]

/-- The solver without the record. -/
def Solver.plain (s : Solver α (Recorded β)) : Solver α β :=
  ⟨s.name, s.plugin, s.pattern, s.options, s.primary.plain, s.extra.map (·.map Slot.plain)⟩

/-- The cell without the record. -/
def SolveCell.plain (c : SolveCell α (Recorded β)) : SolveCell α β := ⟨c.solver.plain, c.factored⟩

/-- The store without the record. -/
def Store.plain (s : Store α (Recorded β) (List (Received α) × ω)) : Store α β ω :=
  ⟨s.cells.map (·.plain), s.world.2⟩

theorem SolveCell.mirrors_factorize (a : SparseMatrix α) :
    Run.Mirrors (fun t : SolveCell α (Recorded β) × (List (Received α) × ω) => (t.1.plain, t.2.2))
      (factorize a) (factorize a) := by
  rintro ⟨c, record, w⟩
  have factors := Slot.mirrors_request (.numeric a) (c.solver.primary, (record, w))
  simp only [Slot.request, Slot.unrecorded] at factors
  simp only [factorize, plain, Solver.plain, Solver.onPrimary, factors]
  split
  · rfl
  · rcases (Slot.numericFactorize a : Run (Slot (Recorded β) × (List (Received α) × ω)) Unit)
      (c.solver.primary, (record, w)) with ⟨_ | _, _, _, _⟩ <;> rfl

omit [Scalar α] in
theorem SolveCell.mirrors_solution (rhs : DenseMatrix α) (transposed : Bool) :
    Run.Mirrors (fun t : SolveCell α (Recorded β) × (List (Received α) × ω) => (t.1.plain, t.2.2))
      (solution rhs transposed) (solution rhs transposed) := by
  rintro ⟨c, record, w⟩
  have solved : Run.Mirrors Slot.unnoted (c.solver.primary.solve transposed)
      (c.solver.primary.plain.solve transposed : Run (DenseMatrix α × ω) Unit) :=
    Slot.mirrors_columns c.solver.primary _ .solve _
  have here := solved (rhs, (record, w))
  simp only [Slot.unnoted] at here
  simp only [solution, plain, Solver.plain, here]
  rfl

omit [Scalar α] [Backend α ω β] in
theorem Store.mirrors_onCell (k : Nat) {act : Run (SolveCell α (Recorded β) × (List (Received α) × ω)) γ}
    {act' : Run (SolveCell α β × ω) γ}
    (same : Run.Mirrors (fun t => (t.1.plain, t.2.2)) act act') :
    Run.Mirrors Store.plain (onCell k act) (onCell k act') := by
  intro s
  simp only [onCell, plain, Array.getElem?_map]
  cases s.cells[k]? with
  | none => rfl
  | some c =>
    have here := same (c, s.world)
    simp only [Option.map_some, here]
    rcases act (c, s.world) with ⟨_, c', w⟩
    simp [Array.map_setIfInBounds]

namespace Solve

variable {op : Solve}

theorem mirrors_solveWith (a rhs : DenseMatrix α) (opposite : Bool) :
    Run.Mirrors (Store.plain : Store α (Recorded β) (List (Received α) × ω) → Store α β ω)
      (op.solveWith a rhs opposite) (op.solveWith a rhs opposite) :=
  .bind (.ofExcept _) fun m => Store.mirrors_onCell _ <|
    .bind (SolveCell.mirrors_factorize m) fun _ => SolveCell.mirrors_solution rhs _

theorem mirrors_forwardBatch (xs : List (DenseMatrix α)) (y : DenseMatrix α)
    (seeds : List (List (DenseMatrix α))) :
    Run.Mirrors (Store.plain : Store α (Recorded β) (List (Received α) × ω) → Store α β ω)
      (op.forwardBatch xs y seeds) (op.forwardBatch xs y seeds) := by
  refine .bind (.ofExcept _) fun _ => ?_
  split
  · exact .ofExcept (.ok [])
  · exact .bind (.ofExcept _) fun _ => .bind (.ofExcept _) fun rhs => .bind (.ofExcept _) fun a =>
      .bind (mirrors_solveWith a rhs false) fun _ => .ofExcept _

theorem mirrors_adjointBatch (xs : List (DenseMatrix α)) (y : DenseMatrix α)
    (seeds : List (DenseMatrix α)) :
    Run.Mirrors (Store.plain : Store α (Recorded β) (List (Received α) × ω) → Store α β ω)
      (op.adjointBatch xs y seeds) (op.adjointBatch xs y seeds) := by
  refine .bind (.ofExcept _) fun _ => ?_
  split
  · exact .ofExcept (.ok [])
  · exact .bind (.ofExcept _) fun rhs => .bind (.ofExcept _) fun a =>
      .bind (mirrors_solveWith a rhs true) fun _ => .ofExcept _

/-- A request does the same with a record and without. -/
theorem mirrors_ask (r : Operation.Request α) :
    Run.Mirrors (Store.plain : Store α (Recorded β) (List (Received α) × ω) → Store α β ω)
      (op.operation.ask r) (op.operation.ask r) := by
  have form {γ δ : Type} (form : γ → δ)
      {act : Run (Store α (Recorded β) (List (Received α) × ω)) γ} {act' : Run (Store α β ω) γ}
      (same : Run.Mirrors Store.plain act act') :
      Run.Mirrors Store.plain (form <$> act) (form <$> act') :=
    .bind same fun x => .ofExcept (.ok (form x))
  cases r with
  | evaluate xs =>
    exact form _ (.bind (.ofExcept _) fun _ => .bind (.ofExcept _) fun a => .bind (.ofExcept _) fun b =>
      mirrors_solveWith a b false)
  | forward xs y seeds => exact form _ (.bind (mirrors_forwardBatch xs y [seeds]) fun _ => .ofExcept _)
  | adjoint xs y seed => exact form _ (.bind (mirrors_adjointBatch xs y [seed]) fun _ => .ofExcept _)
  | forwardBatch xs y seeds => exact form _ (mirrors_forwardBatch xs y seeds)
  | adjointBatch xs y seeds => exact form _ (mirrors_adjointBatch xs y seeds)

end Solve

end Plain

end Cotangent
