import Cotangent.Proofs.Backends
import Cotangent.Proofs.Shapes

/-! Solve operations keep the promise of their shape. A slot is used in the promised order, so that
whenever it is asked to solve, its backend has factors of the order of its pattern; a cell remembers
values only while the factors of these values are there. These facts are kept by every call, also by
one that fails, and they leave a solve node two ways to fail: a rejection by the backend, or more
columns side by side than a size can count. -/
namespace Cotangent

variable {α ω : Type} [Scalar α]

/-- A backend rejects the matrix or the solve. -/
def Error.Rejects (e : Error) : Prop := ∃ stage reason, e = .factorization stage reason

omit [Scalar α] in
theorem Error.rejects_atStage {e : Error} (reason : e.isFatal = false) (stage : Stage) :
    (e.atStage stage).Rejects := by
  obtain ⟨r, same⟩ := e.atStage_eq reason stage
  exact ⟨stage, r, same⟩

/-! ### Slots -/

namespace Slot

/-- What a slot says of its backend: an analysis of its pattern, and factors of its order. -/
structure Sound (s : Slot (BuiltIn α)) : Prop where
  square : s.pattern.ncols = s.pattern.nrows
  analysed : s.phase ≠ .unfactored → s.backend.Analysed s.pattern
  factored : s.phase = .factored → s.backend.Factored s.pattern.nrows

variable {s : Slot (BuiltIn α)} {w : ω}

/-- A slot on a pattern, whatever it has of it. -/
structure On (p : Pattern) (t : Slot (BuiltIn α) × ω) : Prop where
  sound : t.1.Sound
  pattern : t.1.pattern = p

/-- A slot on a pattern that it has factors for. -/
structure Ready (p : Pattern) (t : Slot (BuiltIn α) × ω) : Prop extends On p t where
  phase : t.1.phase = .factored

omit [Scalar α] in
/-- A new slot is sound on a square pattern. -/
theorem sound_new {b : BuiltIn α} {p : Pattern} (square : p.ncols = p.nrows) :
    (Slot.new b p).Sound :=
  ⟨square, fun analysed => absurd rfl analysed, nofun⟩

theorem post_symbolicFactorize {p : Pattern} (square : p.ncols = p.nrows) :
    Run.Post (symbolicFactorize p) (s, w)
      (fun _ t => On p t ∧ t.1.phase = .analysed) (fun e t => (p.Roomy → e.Rejects) ∧ On p t) := by
  have analysed := BuiltIn.post_symbolic p s.backend
  simp only [Run.Post, symbolicFactorize, Pattern.isSquare, square, beq_self_eq_true, if_true,
    Backend.symbolic, Run.onFirst] at analysed ⊢
  rcases ran : BuiltIn.symbolic p s.backend with ⟨e | _, b⟩ <;> rw [ran] at analysed
  · exact ⟨fun roomy => Error.rejects_atStage (analysed roomy) _,
      ⟨⟨square, fun h => absurd rfl h, fun h => by cases h⟩, rfl⟩⟩
  · exact ⟨⟨⟨square, fun _ => analysed, fun h => by cases h⟩, rfl⟩, rfl⟩

theorem post_factorValues {p : Pattern} {values : Array α} (on : On p (s, w))
    (phase : s.phase ≠ .unfactored) (size : values.size = p.nnz) :
    Run.Post (factorValues values) (s, w) (fun _ t => Ready p t)
      (fun e t => (p.Roomy → e.Rejects) ∧ On p t) := by
  obtain ⟨sound, pattern⟩ := on
  dsimp only at sound pattern
  subst pattern
  have found := BuiltIn.post_numeric (sound.analysed phase) size
  simp only [Run.Post, factorValues, Backend.numeric, Run.onFirst] at found ⊢
  rcases ran : BuiltIn.numeric s.pattern values s.backend with ⟨e | _, b⟩ <;> rw [ran] at found
  · exact ⟨fun roomy => Error.rejects_atStage (found.1 roomy) _,
      ⟨⟨sound.square, fun _ => found.2, fun h => by cases h⟩, rfl⟩⟩
  · exact ⟨⟨⟨sound.square, fun _ => found.1, fun _ => found.2⟩, rfl⟩, rfl⟩

theorem post_numericFactorize {a : SparseMatrix α} (on : On a.pattern (s, w)) :
    Run.Post (numericFactorize a) (s, w) (fun _ t => Ready a.pattern t)
      (fun e t => (a.pattern.Roomy → e.Rejects) ∧ On a.pattern t) := by
  have square : a.pattern.ncols = a.pattern.nrows := on.pattern ▸ on.sound.square
  have values (t : Slot (BuiltIn α) × ω) (on : On a.pattern t) (phase : t.1.phase ≠ .unfactored) :=
    post_factorValues on phase a.size_values
  change Run.Post (if s.phase = .unfactored ∨ a.pattern ≠ s.pattern then
      symbolicFactorize a.pattern >>= fun _ => factorValues a.values
    else factorValues a.values) (s, w) _ _
  split
  · refine (post_symbolicFactorize square).bind ?_
    rintro _ t ⟨on, phase⟩
    exact values t on (by simp [phase])
  · next usable => exact values _ on fun phase => usable (.inl phase)

/-- What a backend answers for the data of a right-hand side, the slot answers for its columns. -/
theorem post_onColumns {b : BuiltIn α} {rhs : DenseMatrix α} (transposed : Bool)
    (answers : Outcome.Answered True (b.solve rhs.ncols transposed ⟨rhs.data, rhs.size_data⟩)
      fun _ => True) :
    Run.Post (onColumns fun nrhs => Backend.solve b nrhs transposed) (rhs, w)
      (fun _ t => t.1.shape = rhs.shape ∧ t.2 = w) (fun e t => e.Rejects ∧ t.2 = w) := by
  change Run.Post (if rhs.ncols = 0 then pure () else Run.mapError (.atStage .solve)
    (Run.onData (Backend.solve b rhs.ncols transposed))) (rhs, w) _ _
  split
  · exact ⟨rfl, rfl⟩
  · simp only [Run.Post, Run.mapError, Run.onData, Backend.solve, Run.replace]
    cases solved : b.solve rhs.ncols transposed ⟨rhs.data, rhs.size_data⟩ with
    | error e => exact ⟨Error.rejects_atStage (answers.2 trivial e solved) _, rfl⟩
    | ok x => exact ⟨rfl, rfl⟩

/-- A slot with factors solves, or its backend rejects; the right-hand side keeps its shape. -/
theorem post_solve {p : Pattern} (ready : Ready p (s, w)) {rhs : DenseMatrix α}
    (rows : rhs.nrows = p.nrows) (transposed : Bool) :
    Run.Post (s.solve transposed) (rhs, w) (fun _ t => t.1.shape = rhs.shape ∧ t.2 = w)
      (fun e t => e.Rejects ∧ t.2 = w) := by
  obtain ⟨⟨sound, pattern⟩, phase⟩ := ready
  dsimp only at sound pattern phase
  subst pattern
  have factors : s.requireFactors = .ok () := if_pos phase
  have checked : s.checkRows rhs = .ok () := if_pos rows
  have start : s.solve transposed (rhs, w) =
      onColumns (fun nrhs => Backend.solve s.backend nrhs transposed) (rhs, w) := by
    unfold solve
    rw [factors, Run.bind_apply]
    change (Run.ofExcept (s.checkRows rhs) >>= fun _ => onColumns _) (rhs, w) = _
    rw [checked]
    rfl
  have answers := BuiltIn.solve_answers (sound.factored phase) (congrArg (· * rhs.ncols) rows)
    transposed ⟨rhs.data, rhs.size_data⟩
  have solved := post_onColumns (w := w) transposed answers
  unfold Run.Post at solved ⊢
  rw [start]
  exact solved

end Slot

/-! ### Cells -/

namespace SolveCell

/-- What a cell says of its slot: it is on the pattern of the solver, and it has factors when the
cell remembers values. -/
structure Sound (c : SolveCell α (BuiltIn α)) : Prop where
  slot : c.solver.primary.Sound
  pattern : c.solver.primary.pattern = c.solver.pattern
  factored : c.factored.isSome = true → c.solver.primary.phase = .factored

variable {c : SolveCell α (BuiltIn α)} {w : ω}

/-- A cell on a pattern. -/
structure On (p : Pattern) (t : SolveCell α (BuiltIn α) × ω) : Prop where
  sound : t.1.Sound
  pattern : t.1.solver.pattern = p

/-- A cell on a pattern that it has factors for. -/
structure Ready (p : Pattern) (t : SolveCell α (BuiltIn α) × ω) : Prop extends On p t where
  phase : t.1.solver.primary.phase = .factored

theorem post_factorize {a : SparseMatrix α} (on : On a.pattern (c, w)) :
    Run.Post (factorize a) (c, w) (fun _ t => Ready a.pattern t)
      (fun e t => (a.pattern.Roomy → e.Rejects) ∧ On a.pattern t) := by
  have known : Slot.On a.pattern (c.solver.primary, w) :=
    ⟨on.sound.slot, on.sound.pattern.trans on.pattern⟩
  have found := Slot.post_numericFactorize known
  by_cases remembered :
      (c.factored.any fun v => Scalar.listEq v.toList a.values.toList) = true
  · simp only [Run.Post, factorize, if_pos remembered]
    refine ⟨on, on.sound.factored ?_⟩
    cases values : c.factored with
    | none => simp [values] at remembered
    | some v => rfl
  · simp only [Run.Post, factorize, if_neg remembered, Solver.onPrimary] at found ⊢
    rcases ran : (Slot.numericFactorize a : Run (Slot (BuiltIn α) × ω) Unit) (c.solver.primary, w)
      with ⟨e | _, slot, w'⟩ <;> rw [ran] at found
    · obtain ⟨rejects, sound, pattern⟩ := found
      exact ⟨rejects, ⟨sound, pattern.trans on.pattern.symm, fun h => by cases h⟩, on.pattern⟩
    · obtain ⟨⟨sound, pattern⟩, phase⟩ := found
      exact ⟨⟨⟨sound, pattern.trans on.pattern.symm, fun _ => phase⟩, on.pattern⟩, phase⟩

theorem post_solution {p : Pattern} (ready : Ready p (c, w)) {rhs : DenseMatrix α}
    (rows : rhs.nrows = p.nrows) (transposed : Bool) :
    Run.Post (solution rhs transposed) (c, w) (fun x t => x.shape = rhs.shape ∧ On p t)
      (fun e t => e.Rejects ∧ On p t) := by
  have known : Slot.Ready p (c.solver.primary, w) :=
    ⟨⟨ready.sound.slot, ready.sound.pattern.trans ready.pattern⟩, ready.phase⟩
  have solved := Slot.post_solve known rows transposed
  simp only [Run.Post, solution] at solved ⊢
  rcases ran : c.solver.primary.solve transposed (rhs, w) with ⟨e | _, x, w'⟩ <;>
    rw [ran] at solved
  · exact ⟨solved.1, ready.sound, ready.pattern⟩
  · exact ⟨solved.1, ready.sound, ready.pattern⟩

end SolveCell

/-! ### The store -/

/-- A new operation reads a square pattern, and it has a new cell with a new backend. -/
theorem Solve.create_cases {β : Type} {catalogue : Catalogue α β} {plugin : String} {pattern : Pattern}
    {transposed : Bool} {op : Solve} {s t : Store α β ω}
    (created : Solve.create catalogue plugin pattern transposed s = .ok (op, t)) :
    pattern.ncols = pattern.nrows ∧ op = ⟨s.cells.size, pattern, transposed⟩ ∧
      ∃ b, catalogue.create plugin .default = .ok b ∧ t = { s with
        cells := s.cells.push ⟨⟨"solve", plugin, pattern, .default, .new b pattern, #[]⟩, none⟩ } := by
  unfold Solve.create at created
  split at created
  · next square =>
    obtain ⟨solver, made, same⟩ := Outcome.map_eq_ok.mp created
    obtain ⟨b, found, rfl⟩ := Outcome.map_eq_ok.mp made
    cases same
    exact ⟨(beq_iff_eq.mp square).symm, rfl, b, found, rfl⟩
  · cases created

namespace Store

/-- The store has a sound cell for every solve operation, on its pattern. -/
structure Serves (solves : List Solve) (s : Store α (BuiltIn α) ω) : Prop where
  sound : ∀ c ∈ s.cells, c.Sound
  held : ∀ op ∈ solves, ∃ c, s.cells[op.cell]? = some c ∧ c.solver.pattern = op.pattern

variable {solves : List Solve} {s : Store α (BuiltIn α) ω}

omit [Scalar α] in
theorem Serves.square (serves : s.Serves solves) {op : Solve} (member : op ∈ solves) :
    op.pattern.ncols = op.pattern.nrows := by
  obtain ⟨c, held, pattern⟩ := serves.held op member
  have sound := serves.sound c (Array.mem_of_getElem? held)
  exact pattern ▸ sound.pattern ▸ sound.slot.square

omit [Scalar α] in
/-- Where an operand has room, so has a dense matrix on the pattern of its operation. -/
theorem Serves.roomy (serves : s.Serves solves) {op : Solve} (member : op ∈ solves)
    (room : Shape.elements (op.pattern.nrows, op.pattern.nrows) < wordLimit) :
    op.pattern.Roomy := by
  rwa [Pattern.Roomy, serves.square member]

omit [Scalar α] in
/-- A cell replaced by one on the same pattern. -/
theorem Serves.set (serves : s.Serves solves) {k : Nat} {c c' : SolveCell α (BuiltIn α)}
    (held : s.cells[k]? = some c) (sound : c'.Sound) (same : c'.solver.pattern = c.solver.pattern)
    (w : ω) : Serves solves ⟨s.cells.setIfInBounds k c', w⟩ where
  sound d member := by
    rcases Array.mem_or_eq_of_mem_setIfInBounds member with old | rfl
    · exact serves.sound d old
    · exact sound
  held op member := by
    obtain ⟨d, found, pattern⟩ := serves.held op member
    by_cases here : k = op.cell
    · subst here
      cases held.symm.trans found
      have inside := (Array.getElem?_eq_some_iff.mp held).1
      exact ⟨c', by simp [inside], same.trans pattern⟩
    · exact ⟨d, by simpa [Array.getElem?_setIfInBounds_ne here] using found, pattern⟩

/-- A new cell serves a new operation and leaves the others theirs. -/
theorem Serves.create (serves : s.Serves solves) {plugin : String} {pattern : Pattern}
    {transposed : Bool} {op : Solve} {s' : Store α (BuiltIn α) ω}
    (created : Solve.create (.builtIn id) plugin pattern transposed s = .ok (op, s')) :
    s'.Serves (op :: solves) := by
  obtain ⟨square, rfl, b, -, rfl⟩ := Solve.create_cases created
  refine ⟨fun c member => ?_, List.forall_mem_cons.mpr ⟨?_, fun op member => ?_⟩⟩
  · rcases Array.mem_push.mp member with old | rfl
    · exact serves.sound c old
    · exact ⟨Slot.sound_new square, rfl, nofun⟩
  · exact ⟨_, Array.getElem?_push_size, rfl⟩
  · obtain ⟨c, found, pattern⟩ := serves.held op member
    have inside := (Array.getElem?_eq_some_iff.mp found).1
    exact ⟨c, by rw [Array.getElem?_push_lt inside, ← Array.getElem?_eq_getElem inside, found],
      pattern⟩

omit [Scalar α] in
/-- A computation on the cell of an operation. -/
theorem post_onCell {γ : Type} {op : Solve} (member : op ∈ solves) (serves : s.Serves solves)
    {act : Run (SolveCell α (BuiltIn α) × ω) γ} {Q : γ → Prop}
    (h : ∀ c w, SolveCell.On op.pattern (c, w) → Run.Post act (c, w)
      (fun x t => Q x ∧ SolveCell.On op.pattern t)
      (fun e t => e.Rejects ∧ SolveCell.On op.pattern t)) :
    Run.Post (onCell op.cell act) s (fun x s => Q x ∧ s.Serves solves)
      (fun e s => e.Rejects ∧ s.Serves solves) := by
  obtain ⟨c, held, pattern⟩ := serves.held op member
  have on : SolveCell.On op.pattern (c, s.world) :=
    ⟨serves.sound c (Array.mem_of_getElem? held), pattern⟩
  have found := h c s.world on
  simp only [Run.Post, onCell, held] at found ⊢
  rcases ran : act (c, s.world) with ⟨e | x, c', w⟩ <;> rw [ran] at found
  · exact ⟨found.1, serves.set held found.2.sound (found.2.pattern.trans pattern.symm) w⟩
  · exact ⟨found.1, serves.set held found.2.sound (found.2.pattern.trans pattern.symm) w⟩

end Store

/-! ### Matrices side by side -/

namespace DenseMatrix

variable {n m : Nat}

omit [Scalar α] in
theorem foldlM_append {rest : List (DenseMatrix α)} {first : DenseMatrix α} {k : Nat}
    (shape : first.shape = (n, k)) (small : k < sizeLimit) (all : ∀ b ∈ rest, b.shape = (n, m)) :
    (∃ x, rest.foldlM append first = .ok x ∧ x.shape = (n, k + rest.length * m) ∧
      k + rest.length * m < sizeLimit) ∨
    (rest.foldlM append first = .error .sizeOverflow ∧ sizeLimit ≤ k + rest.length * m) := by
  induction rest generalizing first k with
  | nil => exact .inl ⟨first, rfl, by simpa using shape, by simpa using small⟩
  | cons b rest ih =>
    obtain ⟨next, others⟩ := List.forall_mem_cons.mp all
    obtain ⟨rfl, rfl⟩ := Prod.mk.inj shape
    obtain ⟨rows, rfl⟩ := Prod.mk.inj next
    have total : first.ncols + (b :: rest).length * b.ncols =
        (first.ncols + b.ncols) + rest.length * b.ncols := by
      rw [List.length_cons, Nat.succ_mul]
      omega
    rw [List.foldlM_cons, total]
    by_cases fits : first.ncols + b.ncols < sizeLimit
    · have appended : ∃ x, first.append b = .ok x ∧
          x.shape = (first.nrows, first.ncols + b.ncols) := by
        rw [append, dif_pos rows, checkSize, if_pos fits]
        exact ⟨_, rfl, rfl⟩
      obtain ⟨x, done, shape⟩ := appended
      rw [done]
      exact ih shape fits others
    · have refused : first.append b = .error .sizeOverflow := by
        rw [append, dif_pos rows, checkSize, if_neg fits]
        rfl
      rw [refused]
      exact .inr ⟨rfl, by omega⟩

omit [Scalar α] in
/-- Blocks of one shape fit side by side unless there are more columns than a size can count. -/
theorem hcat_cases {blocks : List (DenseMatrix α)} (some : blocks ≠ []) (small : m < sizeLimit)
    (all : ∀ b ∈ blocks, b.shape = (n, m)) :
    (∃ x, hcat blocks = .ok x ∧ x.shape = (n, blocks.length * m) ∧
      blocks.length * m < sizeLimit) ∨
    (hcat blocks = .error .sizeOverflow ∧ sizeLimit ≤ blocks.length * m) := by
  cases blocks with
  | nil => exact absurd rfl some
  | cons first rest =>
    obtain ⟨shape, others⟩ := List.forall_mem_cons.mp all
    have total : (first :: rest).length * m = m + rest.length * m := by
      rw [List.length_cons, Nat.succ_mul, Nat.add_comm]
    rw [total]
    exact foldlM_append shape small others

omit [Scalar α] in
theorem hcat_of_crowded {blocks : List (DenseMatrix α)} (small : m < sizeLimit)
    (all : ∀ b ∈ blocks, b.shape = (n, m)) (many : sizeLimit ≤ blocks.length * m) :
    hcat blocks = .error .sizeOverflow := by
  have some : blocks ≠ [] := by
    rintro rfl
    simp [sizeLimit] at many
  exact ((hcat_cases some small all).resolve_left fun ⟨_, _, _, few⟩ =>
    Nat.not_lt.mpr many few).1

omit [Scalar α] in
/-- The blocks that a matrix was put together from are there. -/
theorem exists_colBlock {x : DenseMatrix α} {count d : Nat} (shape : x.shape = (n, count * m))
    (small : count * m < sizeLimit) (few : d < count) :
    ∃ b, x.colBlock (d * m) m = .ok b ∧ b.shape = (n, m) := by
  obtain ⟨rows, columns⟩ := Prod.mk.inj shape
  have inside : d * m + m ≤ count * m := by
    rw [← Nat.succ_mul]
    exact Nat.mul_le_mul_right m few
  have data : (d * m + m) * x.nrows ≤ x.data.size := by
    rw [x.size_data, columns, Nat.mul_comm x.nrows]
    exact Nat.mul_le_mul_right _ inside
  rw [colBlock, dif_pos ⟨Nat.lt_of_le_of_lt inside small, data⟩]
  exact ⟨_, rfl, by simp [DenseMatrix.shape, rows]⟩

end DenseMatrix

/-! ### The operation -/

/-- A first step with a known outcome. -/
theorem Run.Post.known {σ β γ : Type} {outcome : Except Error β} {next : β → Run σ γ} {x : β}
    {s : σ} {done : γ → σ → Prop} {failed : Error → σ → Prop} (ok : outcome = .ok x)
    (h : Run.Post (next x) s done failed) :
    Run.Post (Run.ofExcept outcome >>= next) s done failed := by
  rw [ok]
  exact h

namespace Solve

/-- The errors that a solve node of a shape may answer for so many directions. -/
def Refuses (shape : Shape) (count : Nat) (e : Error) : Prop :=
  e.Rejects ∨ e = .sizeOverflow ∧ sizeLimit ≤ count * shape.2

variable {op : Solve} {solves : List Solve} {s : Store α (BuiltIn α) ω} {n m : Nat}
  {a b x y : DenseMatrix α}

/-- What a solve operation says of its operands: a square matrix of its order, and as many rows of
right-hand sides. -/
theorem outputShape_eq_ok {shapes : List Shape} {shape : Shape}
    (promised : op.outputShape shapes = .ok shape) :
    shapes = [(op.pattern.nrows, op.pattern.nrows), shape] ∧ shape.1 = op.pattern.nrows := by
  obtain ⟨_, arity, read⟩ := Outcome.bind_eq_ok.mp promised
  obtain ⟨a, b, rfl⟩ := eq_two_of_length (checkArity_eq_ok.mp arity)
  simp only [elementAt, List.getElem?_cons_zero, List.getElem?_cons_succ, Outcome.ok_bind] at read
  split at read
  · cases read
  · next square =>
    split at read
    · cases read
    · next rows =>
      cases read
      exact ⟨by rw [not_not.mp square], not_not.mp rows⟩

theorem exists_project (square : op.pattern.ncols = op.pattern.nrows)
    (fits : a.shape = (op.pattern.nrows, op.pattern.nrows)) :
    ∃ p : SparseMatrix α, SparseMatrix.project a op.pattern = .ok p ∧ p.pattern = op.pattern := by
  have shape : a.checkShape op.pattern.shape = .ok () :=
    Sweep.checkShape_eq_ok.mpr (fits.trans (Prod.ext rfl square.symm))
  rw [SparseMatrix.project, shape]
  exact ⟨_, rfl, rfl⟩

theorem exists_seedTimes (square : op.pattern.ncols = op.pattern.nrows)
    (fits : a.shape = (op.pattern.nrows, op.pattern.nrows)) (shape : x.shape = (op.pattern.nrows, m))
    (room : Shape.elements (op.pattern.nrows, m) < wordLimit) :
    ∃ p, op.seedTimes a x = .ok p := by
  obtain ⟨p, projected, pattern⟩ := exists_project square fits
  obtain ⟨rows, rfl⟩ := Prod.mk.inj shape
  have both (q : SparseMatrix α) (order : q.nrows = op.pattern.nrows)
      (columns : q.ncols = op.pattern.nrows) : ∃ r, q.matmul x = .ok r := by
    have enough : checkRoom (q.nrows * x.ncols) = .ok () :=
      checkRoom_eq_ok_iff.mpr (order.symm ▸ room)
    rw [SparseMatrix.matmul, if_pos (rows.trans columns.symm), enough]
    exact ⟨_, rfl⟩
  rw [seedTimes, projected, Outcome.ok_bind]
  split
  · refine both _ ?_ ?_
    · simp [SparseMatrix.transpose, SparseMatrix.sample, SparseMatrix.nrows, Pattern.transpose,
        pattern, square]
    · simp [SparseMatrix.transpose, SparseMatrix.sample, SparseMatrix.ncols, Pattern.transpose,
        Pattern.ncols, pattern]
  · exact both p (by rw [SparseMatrix.nrows, pattern]) (by rw [SparseMatrix.ncols, pattern, square])

theorem exists_direction (square : op.pattern.ncols = op.pattern.nrows) {shape : Shape}
    (rows : shape.1 = op.pattern.nrows) (sized : shape.Sized) (result : y.shape = shape)
    {seeds : List (DenseMatrix α)}
    (seeding : seeds.map (·.shape) = [(op.pattern.nrows, op.pattern.nrows), shape]) :
    ∃ r, op.direction y seeds = .ok r ∧ r.shape = shape := by
  obtain ⟨adot, bdot, rfl, first, second⟩ := eq_two_of_shapes seeding
  have split : shape = (op.pattern.nrows, shape.2) := Prod.ext rows rfl
  obtain ⟨p, product⟩ := exists_seedTimes square first (result.trans split) (split ▸ sized.room)
  exact ⟨takeOff bdot p, by simp [direction, checkArity, elementAt, product, pure, Except.pure],
    second⟩

theorem exists_matrixSensitivity (square : op.pattern.ncols = op.pattern.nrows)
    (room : Shape.elements (op.pattern.nrows, op.pattern.nrows) < wordLimit)
    (left : x.shape = (op.pattern.nrows, m)) (right : b.shape = (op.pattern.nrows, m)) :
    ∃ r, op.matrixSensitivity x b = .ok r ∧ r.shape = (op.pattern.nrows, op.pattern.nrows) := by
  have restricted (outer : DenseMatrix α)
      (shape : outer.shape = (op.pattern.nrows, op.pattern.nrows)) :
      ∃ p : SparseMatrix α, SparseMatrix.project (outer.scaled (-1)) op.pattern = .ok p ∧
        p.toDense.shape = (op.pattern.nrows, op.pattern.nrows) := by
    obtain ⟨p, projected, pattern⟩ := exists_project (a := outer.scaled (-1)) square shape
    refine ⟨p, projected, ?_⟩
    change (p.pattern.nrows, p.pattern.ncols) = _
    rw [pattern, square]
  cases sense : op.transposed with
  | false =>
    obtain ⟨outer, product, shape⟩ :=
      DenseMatrix.exists_matmul right (DenseMatrix.shape_transpose left) room
    obtain ⟨p, projected, shape⟩ := restricted outer shape
    exact ⟨p.toDense, by simp [matrixSensitivity, sense, product, projected, pure, Except.pure],
      shape⟩
  | true =>
    obtain ⟨outer, product, shape⟩ :=
      DenseMatrix.exists_matmul left (DenseMatrix.shape_transpose right) room
    obtain ⟨p, projected, shape⟩ := restricted outer shape
    exact ⟨p.toDense, by simp [matrixSensitivity, sense, product, projected, pure, Except.pure],
      shape⟩

theorem post_solveWith (member : op ∈ solves) (serves : s.Serves solves)
    (square : op.pattern.ncols = op.pattern.nrows) (roomy : op.pattern.Roomy)
    (fits : a.shape = (op.pattern.nrows, op.pattern.nrows)) (rows : x.nrows = op.pattern.nrows)
    (opposite : Bool) :
    Run.Post (op.solveWith a x opposite) s (fun y s => y.shape = x.shape ∧ s.Serves solves)
      (fun e s => e.Rejects ∧ s.Serves solves) := by
  obtain ⟨p, projected, pattern⟩ := exists_project square fits
  refine Run.Post.known projected (Store.post_onCell member serves ?_)
  intro c w on
  rw [← pattern] at on rows roomy ⊢
  refine Run.Post.bind ((SolveCell.post_factorize on).imp (fun _ _ => id)
    fun e t failed => ⟨failed.1 roomy, failed.2⟩) ?_
  rintro _ ⟨c, w⟩ ready
  exact SolveCell.post_solution ready rows _

omit [Scalar α] in
theorem exists_blocks {count : Nat} (shape : x.shape = (n, count * m))
    (small : count * m < sizeLimit) :
    ∃ blocks, split x m count = .ok blocks ∧ blocks.length = count ∧
      ∀ b ∈ blocks, b.shape = (n, m) := by
  have each (d : Nat) (few : d ∈ List.range count) :=
    DenseMatrix.exists_colBlock shape small (List.mem_range.mp few)
  have found := Outcome.exists_mapM each
  rwa [List.length_range] at found

/-! ### Crowded batches -/

section Crowded

variable {β : Type} [Backend α ω β] {s : Store α β ω} {shape : Shape} {xs : List (DenseMatrix α)}

/-- Directions that have more columns together than a size can count are refused before anything
happens. -/
theorem forwardBatch_of_crowded (square : op.pattern.ncols = op.pattern.nrows)
    (rows : shape.1 = op.pattern.nrows) (sized : shape.Sized) (two : xs.length = 2)
    (result : y.shape = shape) {seeds : List (List (DenseMatrix α))}
    (seeding : ∀ direction ∈ seeds,
      direction.map (·.shape) = [(op.pattern.nrows, op.pattern.nrows), shape])
    (many : sizeLimit ≤ seeds.length * shape.2) :
    op.forwardBatch xs y seeds s = (.error .sizeOverflow, s) := by
  have each (direction) (along : direction ∈ seeds) :=
    exists_direction square rows sized result (seeding direction along)
  obtain ⟨blocks, computed, length, shapes⟩ := Outcome.exists_mapM each
  have refused := DenseMatrix.hcat_of_crowded sized.columns shapes (length ▸ many)
  have arity : checkArity "solve" 2 xs.length = .ok () := checkArity_eq_ok.mpr two.symm
  have asked : seeds.isEmpty = false := by
    cases seeds with
    | nil => simp [sizeLimit] at many
    | cons => rfl
  simp only [forwardBatch, arity, asked, computed, refused, Bool.false_eq_true, if_false,
    Run.ofExcept_ok_bind, Run.ofExcept_error_bind]

theorem adjointBatch_of_crowded (sized : shape.Sized) (two : xs.length = 2)
    {seeds : List (DenseMatrix α)} (seeding : ∀ seed ∈ seeds, seed.shape = shape)
    (many : sizeLimit ≤ seeds.length * shape.2) :
    op.adjointBatch xs y seeds s = (.error .sizeOverflow, s) := by
  have refused := DenseMatrix.hcat_of_crowded sized.columns seeding many
  have arity : checkArity "solve" 2 xs.length = .ok () := checkArity_eq_ok.mpr two.symm
  have asked : seeds.isEmpty = false := by
    cases seeds with
    | nil => simp [sizeLimit] at many
    | cons => rfl
  simp only [adjointBatch, arity, asked, refused, Bool.false_eq_true, if_false,
    Run.ofExcept_ok_bind, Run.ofExcept_error_bind]

end Crowded

section Batches

variable {shape : Shape} {xs : List (DenseMatrix α)}

/-- One solve for all directions: the right-hand sides go side by side unless they are too many, and
the solutions have their place. -/
theorem post_sideBySide (member : op ∈ solves) (serves : s.Serves solves)
    (square : op.pattern.ncols = op.pattern.nrows) (roomy : op.pattern.Roomy)
    (fits : a.shape = (op.pattern.nrows, op.pattern.nrows)) (rows : shape.1 = op.pattern.nrows)
    (sized : shape.Sized) {blocks : List (DenseMatrix α)} (more : blocks ≠ [])
    (shapes : ∀ b ∈ blocks, b.shape = shape) (opposite : Bool) {γ : Type} {P : γ → Prop}
    {next : DenseMatrix α → Except Error γ}
    (finishes : ∀ x, x.shape = (op.pattern.nrows, blocks.length * shape.2) →
      blocks.length * shape.2 < sizeLimit → ∃ r, next x = .ok r ∧ P r) :
    Run.Post (do
        let rhs ← Run.ofExcept (DenseMatrix.hcat blocks)
        let x ← op.solveWith (← Run.ofExcept (elementAt [a, b] 0)) rhs opposite
        Run.ofExcept (next x)) s
      (fun r s => P r ∧ s.Serves solves)
      (fun e s => Refuses shape blocks.length e ∧ s.Serves solves) := by
  have split : shape = (op.pattern.nrows, shape.2) := Prod.ext rows rfl
  rcases DenseMatrix.hcat_cases more sized.columns fun b member => (shapes b member).trans split with
    ⟨rhs, joined, whole, small⟩ | ⟨refused, large⟩
  · refine Run.Post.known joined (Run.Post.known (x := a) rfl ?_)
    have order : rhs.nrows = op.pattern.nrows := congrArg Prod.fst whole
    refine Run.Post.bind ((post_solveWith member serves square roomy fits order opposite).imp
      (fun _ _ => id) fun e s failed => ⟨.inl failed.1, failed.2⟩) ?_
    rintro x s ⟨same, serves⟩
    exact .of_success serves (finishes x (same.trans whole) small)
  · rw [refused]
    exact ⟨.inr ⟨rfl, large⟩, serves⟩

theorem post_forwardBatch (member : op ∈ solves) (serves : s.Serves solves)
    (square : op.pattern.ncols = op.pattern.nrows) (roomy : op.pattern.Roomy)
    (rows : shape.1 = op.pattern.nrows) (sized : shape.Sized)
    (fits : xs.map (·.shape) = [(op.pattern.nrows, op.pattern.nrows), shape])
    (result : y.shape = shape) {seeds : List (List (DenseMatrix α))}
    (seeding : ∀ direction ∈ seeds,
      direction.map (·.shape) = [(op.pattern.nrows, op.pattern.nrows), shape]) :
    Run.Post (op.forwardBatch xs y seeds) s
      (fun ms s => (ms.length = seeds.length ∧ ∀ m ∈ ms, m.shape = shape) ∧ s.Serves solves)
      (fun e s => Refuses shape seeds.length e ∧ s.Serves solves) := by
  obtain ⟨a, b, rfl, first, -⟩ := eq_two_of_shapes fits
  refine Run.Post.known (x := ()) rfl ?_
  by_cases nothing : seeds = []
  · subst nothing
    exact ⟨⟨rfl, nofun⟩, serves⟩
  have asked : seeds.isEmpty = false := by simpa using nothing
  simp only [asked, Bool.false_eq_true, if_false]
  have each (direction) (along : direction ∈ seeds) :=
    exists_direction square rows sized result (seeding direction along)
  obtain ⟨blocks, computed, length, shapes⟩ := Outcome.exists_mapM each
  refine Run.Post.known computed ?_
  have more : blocks ≠ [] := by
    rintro rfl
    exact nothing (List.eq_nil_of_length_eq_zero length.symm)
  have split : shape = (op.pattern.nrows, shape.2) := Prod.ext rows rfl
  have columns : y.ncols = shape.2 := congrArg Prod.snd result
  rw [columns, ← length]
  refine post_sideBySide member serves square roomy first rows sized more shapes false ?_
  intro x whole small
  obtain ⟨ms, found, count, fits⟩ := exists_blocks whole small
  exact ⟨ms, found, count, fun m member => (fits m member).trans split.symm⟩

theorem post_adjointBatch (member : op ∈ solves) (serves : s.Serves solves)
    (square : op.pattern.ncols = op.pattern.nrows) (roomy : op.pattern.Roomy)
    (rows : shape.1 = op.pattern.nrows) (sized : shape.Sized)
    (fits : xs.map (·.shape) = [(op.pattern.nrows, op.pattern.nrows), shape])
    (result : y.shape = shape) {seeds : List (DenseMatrix α)}
    (seeding : ∀ seed ∈ seeds, seed.shape = shape) :
    Run.Post (op.adjointBatch xs y seeds) s
      (fun css s => (css.length = seeds.length ∧ ∀ cs ∈ css,
        Contributes cs [(op.pattern.nrows, op.pattern.nrows), shape]) ∧ s.Serves solves)
      (fun e s => Refuses shape seeds.length e ∧ s.Serves solves) := by
  obtain ⟨a, b, rfl, first, -⟩ := eq_two_of_shapes fits
  refine Run.Post.known (x := ()) rfl ?_
  by_cases nothing : seeds = []
  · subst nothing
    exact ⟨⟨rfl, nofun⟩, serves⟩
  have asked : seeds.isEmpty = false := by simpa using nothing
  simp only [asked, Bool.false_eq_true, if_false]
  have split : shape = (op.pattern.nrows, shape.2) := Prod.ext rows rfl
  have columns : y.ncols = shape.2 := congrArg Prod.snd result
  rw [columns]
  have room : Shape.elements (op.pattern.nrows, op.pattern.nrows) < wordLimit := by
    rwa [Pattern.Roomy, square] at roomy
  refine post_sideBySide member serves square roomy first rows sized nothing seeding true ?_
  intro x whole small
  have each : ∀ d ∈ List.range seeds.length, ∃ cs, (do
      let bbar ← x.colBlock (d * shape.2) shape.2
      let abar ← op.matrixSensitivity y bbar
      return [some abar, some bbar] : Except Error (List (Option (DenseMatrix α)))) = .ok cs ∧
        Contributes cs [(op.pattern.nrows, op.pattern.nrows), shape] := by
    intro d few
    obtain ⟨bbar, block, fits⟩ := DenseMatrix.exists_colBlock whole small (List.mem_range.mp few)
    obtain ⟨abar, product, fits'⟩ := exists_matrixSensitivity square room (result.trans split) fits
    exact ⟨[some abar, some bbar], by simp [block, product, pure, Except.pure],
      contributes_two fits' (fits.trans split.symm)⟩
  have found := Outcome.exists_mapM each
  rwa [List.length_range] at found

theorem post_evaluate (member : op ∈ solves) (serves : s.Serves solves)
    (square : op.pattern.ncols = op.pattern.nrows) (roomy : op.pattern.Roomy)
    (rows : shape.1 = op.pattern.nrows)
    (fits : xs.map (·.shape) = [(op.pattern.nrows, op.pattern.nrows), shape]) :
    Run.Post (op.evaluate xs) s (fun y s => y.shape = shape ∧ s.Serves solves)
      (fun e s => e.Rejects ∧ s.Serves solves) := by
  obtain ⟨a, b, rfl, first, rfl⟩ := eq_two_of_shapes fits
  refine Run.Post.known (x := ()) rfl (Run.Post.known (x := a) rfl (Run.Post.known (x := b) rfl ?_))
  exact post_solveWith member serves square roomy first rows false

/-- The only member of a batch is its last. -/
theorem last_eq_ok {γ : Type} {P : γ → Prop} {what : String} {results : List γ}
    (one : results.length = 1) (all : ∀ r ∈ results, P r) : ∃ r, last what results = .ok r ∧ P r := by
  obtain ⟨r, rfl⟩ := List.length_eq_one_iff.mp one
  exact ⟨r, rfl, all r List.mem_cons_self⟩

/-- A solve operation whose store has a cell for it keeps the promise of its shape. -/
theorem shaped (member : op ∈ solves) {shapes : List Shape}
    (promised : op.outputShape shapes = .ok shape) (sized : ∀ s ∈ shape :: shapes, s.Sized) :
    Operation.Shaped (Store.Serves solves)
      (op.operation : Operation α (Store α (BuiltIn α) ω)) shapes shape (Refuses shape) := by
  obtain ⟨rfl, rows⟩ := outputShape_eq_ok promised
  simp only [List.forall_mem_cons] at sized
  obtain ⟨whole, matrix, -, -⟩ := sized
  refine ⟨?_, ?_, ?_, ?_, ?_⟩
  · intro xs s fits serves
    exact (post_evaluate member serves (serves.square member) (serves.roomy member matrix.room) rows
      fits).imp (fun _ _ => id)
      fun e s failed => ⟨.inl failed.1, failed.2⟩
  · intro xs y seeds s fits result seeding serves
    have single : ∀ direction ∈ [seeds],
        direction.map (·.shape) = [(op.pattern.nrows, op.pattern.nrows), shape] := by
      simpa using seeding
    refine (post_forwardBatch member serves (serves.square member) (serves.roomy member matrix.room)
      rows whole fits result single).bind ?_
    rintro ms s ⟨⟨one, all⟩, serves⟩
    exact .of_success serves (last_eq_ok one all)
  · intro xs y seed s fits result seeding serves
    have single : ∀ m ∈ [seed], m.shape = shape := by simpa using seeding
    refine (post_adjointBatch member serves (serves.square member) (serves.roomy member matrix.room)
      rows whole fits result single).bind ?_
    rintro css s ⟨⟨one, all⟩, serves⟩
    exact .of_success serves (last_eq_ok one all)
  · intro xs y seeds s fits result seeding serves
    exact post_forwardBatch member serves (serves.square member) (serves.roomy member matrix.room)
      rows whole fits result seeding
  · intro xs y seeds s fits result seeding serves
    exact post_adjointBatch member serves (serves.square member) (serves.roomy member matrix.room)
      rows whole fits result seeding

end Batches

end Solve

end Cotangent
