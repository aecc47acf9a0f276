import Cotangent.Proofs.DrivenBackends
import Cotangent.Proofs.SharedSolves
import Cotangent.Proofs.SingleDirections
import Cotangent.Proofs.WorkVectors

/-! Columns and directions are solved one by one. However a backend was driven before values were
factorized, a block has in each column what the column has alone, it is refused as a single column is,
and it may be solved in place with one work vector for all columns. So a batch of directions of a solve
operation is the directions one after another, whatever the operation was asked before, up to the state
that they leave. Only the columns of all directions together have to be a size. Nothing is asked of the
numbers. -/
namespace Cotangent

open Relation

variable {α ω : Type} [Scalar α] {n : Nat}

/-- A list that repeats one member gives its answer as often. -/
theorem Outcome.mapM_replicate {β γ ε : Type} {f : β → Except ε γ} {x : β} {y : γ} (answered : f x = .ok y)
    (n : Nat) : (List.replicate n x).mapM f = .ok (List.replicate n y) := by
  refine mapM_eq_ok.mpr ?_
  induction n with
  | zero => exact .nil
  | succ n ih => exact .cons answered ih

/-! ### Blocks -/

namespace Factor

/-- One column of a block. -/
def column {m : Nat} (n c : Nat) (rhs : Vector α m) : Vector α n :=
  .ofFn fun i => rhs.toArray.getD (c * n + i) 0

/-- Every column of a block is solved as it is alone, and a block is refused as any single column is. -/
structure ColumnByColumn (n : Nat)
    (solve : {m : Nat} → Nat → Vector α m → Except Error (Vector α m)) : Prop where
  columns : ∀ {nrhs c : Nat} (rhs : Vector α (n * nrhs)), c < nrhs →
    solve 1 (column n c rhs) = (solve nrhs rhs).map (column n c)
  refuses : ∀ {nrhs : Nat} (rhs : Vector α (n * nrhs)) (alone : Vector α n) (e : Error),
    solve nrhs rhs = .error e ↔ solve 1 alone = .error e

/-- The column taken out is the one that the rule gets. -/
theorem extract_column {m nrhs c : Nat} (rhs : Vector α m) (full : m = n * nrhs) (inside : c < nrhs) :
    (column n c rhs).toArray.extract (0 * n) ((0 + 1) * n) =
      rhs.toArray.extract (c * n) ((c + 1) * n) := by
  have block : (c + 1) * n ≤ m := by
    rw [full, Nat.mul_comm n]
    exact Nat.mul_le_mul_right n inside
  have last : (c + 1) * n = c * n + n := Nat.succ_mul c n
  have whole : (column n c rhs).toArray.extract (0 * n) ((0 + 1) * n) = (column n c rhs).toArray := by
    simp
  rw [whole]
  refine Array.ext ?_ fun i row place => ?_
  · rw [Array.size_extract, Vector.size_toArray, Vector.size_toArray]
    omega
  · have inside : c * n + i < m := by
      rw [Vector.size_toArray] at row
      omega
    simp [column, Array.getD_eq_getD_getElem?, inside]

/-- A rule for single columns and a verdict solve column by column. -/
theorem columnByColumn_of_rule (rule : Array α → Array α) (verdict : Except Error Unit)
    {solve : {m : Nat} → Nat → Vector α m → Except Error (Vector α m)}
    (solves : ∀ {m : Nat} (nrhs : Nat) (rhs : Vector α m), m = n * nrhs →
      solve nrhs rhs = eachColumn n nrhs rule rhs >>= fun x => verdict.map fun _ => x) :
    ColumnByColumn n solve := by
  have single : n = n * 1 := (Nat.mul_one n).symm
  refine ⟨fun {nrhs c} rhs inside => ?_, fun {nrhs} rhs alone e => ?_⟩
  · obtain ⟨x, done, entries⟩ := exists_eachColumn rule rhs rfl
    obtain ⟨y, done', entries'⟩ := exists_eachColumn rule (column n c rhs) single
    have same : y = column n c x := by
      refine Vector.ext fun i row => ?_
      have here := entries' 0 Nat.one_pos i row
      rw [extract_column rhs rfl inside, ← entries c inside i row, Nat.zero_mul, Nat.zero_add] at here
      simpa [column, Array.getD_eq_getD_getElem?, row] using here
    rw [solves nrhs rhs rfl, solves 1 _ single, done, done', same]
    cases verdict <;> rfl
  · obtain ⟨x, done, -⟩ := exists_eachColumn rule rhs rfl
    obtain ⟨y, done', -⟩ := exists_eachColumn rule alone single
    rw [solves nrhs rhs rfl, solves 1 _ single, done, done']
    cases verdict <;> simp [Except.map]

end Factor

/-! ### Backends -/

namespace BuiltIn

variable {b : BuiltIn α}

/-- The solve of a backend in place. -/
def inPlace (b : BuiltIn α) (transposed : Bool) : Factor.InPlace α :=
  match b with
  | denseLU s => s.factors.elim Prod.mk fun f =>
    if transposed then f.solveTransposedInPlace else f.solveInPlace
  | sparseLU s => s.factors.elim Prod.mk fun f =>
    if transposed then f.solveTransposedInPlace else f.solveInPlace
  | qr s => s.factors.elim Prod.mk fun f =>
    if transposed then f.solveTransposedInPlace else f.solveInPlace
  | cholesky s => s.factor.elim Prod.mk Cholesky.solveInPlace

/-- Whatever stands in the work vector, the solve in place finds what the rule finds. -/
theorem Arranged.finds (arranged : b.Arranged n) (transposed : Bool) :
    (b.inPlace transposed).Finds n (b.rule transposed) := by
  cases arranged with
  | @denseLU s f π held order lists =>
    subst order
    simp only [inPlace, rule, held, Option.elim]
    cases transposed with
    | false => exact f.finds_solveColumn
    | true => exact DenseLU.finds_solveColumnTransposed lists
  | sparseLU held finished =>
    simp only [inPlace, rule, held, Option.elim]
    cases transposed with
    | false => exact finished.finds_solveColumn
    | true => exact finished.finds_solveColumnTransposed
  | @qr s f held arranged =>
    obtain ⟨rfl, ⟨π, lists⟩, -, -⟩ := arranged
    simp only [inPlace, rule, held, Option.elim]
    cases transposed with
    | false => exact QR.finds_solveColumn lists
    | true => exact f.finds_solveColumnTransposed
  | cholesky held fills pattern order =>
    subst order
    simp only [inPlace, rule, held, Option.elim]
    exact Cholesky.finds_solve fills pattern

/-- Blocks are solved column by column, also by one Cholesky factor alone, and they may be solved in
place with a work vector that is never cleared. -/
structure Columnwise (b : BuiltIn α) (n : Nat) : Prop where
  solves : ∀ transposed, Factor.ColumnByColumn n fun nrhs rhs => b.solve nrhs transposed rhs
  triangles : ∀ transposed, Factor.ColumnByColumn n fun nrhs rhs => b.solveTriangle nrhs transposed rhs
  shared : ∀ (transposed : Bool) (nrhs : Nat) (rhs x : Vector α (n * nrhs)),
    b.solve nrhs transposed rhs = .ok x → ∀ work : Array α, work.size = n →
      x.toArray = (Factor.blockInPlace n nrhs (b.inPlace transposed) rhs.toArray work).1

theorem columnByColumn_solveTriangle (factored : b.Factored n) (transposed : Bool) :
    Factor.ColumnByColumn n fun nrhs rhs => b.solveTriangle nrhs transposed rhs := by
  have refused {e : Error} (same : ∀ {m : Nat} (nrhs : Nat) (rhs : Vector α m),
      b.solveTriangle nrhs transposed rhs = .error e) :
      Factor.ColumnByColumn n fun nrhs rhs => b.solveTriangle nrhs transposed rhs := by
    refine Factor.columnByColumn_of_rule id (.error e) fun nrhs rhs full => ?_
    obtain ⟨x, done, -⟩ := Factor.exists_eachColumn id rhs full
    rw [same, done]
    rfl
  cases factored with
  | denseLU | sparseLU | qr => exact refused fun _ _ => rfl
  | @cholesky s l held order =>
    refine Factor.columnByColumn_of_rule
      (if transposed then Cholesky.solveUpper l else Cholesky.solveLower l) (.ok ()) fun nrhs rhs _ => ?_
    simp only [solveTriangle, withCholesky, Cholesky.solveTriangle, Cholesky.current, held,
      Outcome.ok_bind, order]
    cases Factor.eachColumn n nrhs _ rhs <;> rfl

theorem Arranged.columnwise (arranged : b.Arranged n) : b.Columnwise n where
  solves transposed := Factor.columnByColumn_of_rule (b.rule transposed) b.verdict
    fun nrhs rhs _ => solve_columnwise arranged.factored transposed nrhs rhs
  triangles := columnByColumn_solveTriangle arranged.factored
  shared transposed nrhs rhs x answered work size := by
    rw [solve_columnwise arranged.factored transposed nrhs rhs] at answered
    obtain ⟨y, done, same⟩ := Factor.blockInPlace_eq (arranged.finds transposed) rhs rfl size
    rw [done, Outcome.ok_bind] at answered
    cases verdict : b.verdict with
    | error e =>
      rw [verdict] at answered
      cases answered
    | ok _ =>
      rw [verdict] at answered
      cases answered
      exact same

end BuiltIn

/-! ### Directions in turn -/

namespace Solve

variable {op : Solve} {s s' t : Store α (BuiltIn α) ω} {a b y : DenseMatrix α} {r : Response α}
  {opposite : Bool} {shape : Shape} {blocks : List (DenseMatrix α)} {γ : Type}

section Settled

/-- Where an operation has settled, it stays. -/
theorem Settles.settled (settles : op.Settles a opposite s s' r) {x z : DenseMatrix α}
    (answered : r.answer x = .ok z) : op.Settles a opposite s' s' r :=
  ⟨settles.again x z answered, settles.again⟩

/-- Blocks that fit side by side are answered one after another. -/
theorem Settles.sideBySide (settles : op.Settles a opposite s s' r) (rows : shape.1 = op.pattern.nrows)
    (shapes : ∀ b ∈ blocks, b.shape = shape) (more : blocks ≠ [])
    (few : blocks.length * shape.2 < sizeLimit) (finish : DenseMatrix α → Except Error γ) :
    op.sideBySide a opposite blocks shape.2 finish s =
      (blocks.mapM fun b => r.answer b >>= finish, s') := by
  have small : shape.2 < sizeLimit :=
    (Nat.le_mul_of_pos_left _ (List.length_pos_of_ne_nil more)).trans_lt few
  rcases DenseMatrix.hcat_cases more small shapes with ⟨rhs, joined, whole, -⟩ | ⟨-, large⟩
  · rw [sideBySide_eq settles.first joined ((congrArg Prod.fst whole).trans rows),
      Response.batch_eq_mapM shapes more small joined]
  · exact absurd few (Nat.not_lt.mpr large)

omit [Scalar α] in
/-- The only member of a batch. -/
theorem last_single {x : DenseMatrix α} {f : DenseMatrix α → Except Error γ} {what : String}
    {act : Run (Store α (BuiltIn α) ω) (List γ)} (ran : act s = ([x].mapM f, s')) :
    (act >>= fun found => Run.ofExcept (last what found)) s = (f x, s') := by
  rw [Run.bind_apply, ran, List.mapM_cons]
  cases f x <;> rfl

variable (rows : shape.1 = op.pattern.nrows) (small : shape.2 < sizeLimit) (result : y.shape = shape)

include rows small result

theorem Settles.forward (settles : op.Settles a false s s' r) {seed : List (DenseMatrix α)}
    {block : DenseMatrix α} (computed : op.direction y seed = .ok block) (fits : block.shape = shape) :
    op.operation.forward [a, b] y seed s = (r.answer block >>= .ok, s') := by
  have alone : [seed].mapM (op.direction y) = .ok [block] := by
    rw [List.mapM_cons, computed]
    rfl
  have width : y.ncols = shape.2 := congrArg Prod.snd result
  refine last_single (x := block) (f := fun b => r.answer b >>= .ok) ?_
  rw [forwardBatch_eq (List.cons_ne_nil seed []) alone, width]
  exact settles.sideBySide rows (by simpa using fits) (List.cons_ne_nil block [])
    (by rwa [List.length_singleton, Nat.one_mul]) .ok

theorem Settles.adjoint (settles : op.Settles a true s s' r) {seed : DenseMatrix α}
    (fits : seed.shape = shape) : op.operation.adjoint [a, b] y seed s =
      (r.answer seed >>= fun bbar => do return [some (← op.matrixSensitivity y bbar), some bbar], s') := by
  have width : y.ncols = shape.2 := congrArg Prod.snd result
  refine last_single (x := seed) (f := fun b => r.answer b >>= fun bbar => do
    return [some (← op.matrixSensitivity y bbar), some bbar]) ?_
  rw [adjointBatch_eq (List.cons_ne_nil seed []), width]
  exact settles.sideBySide rows (by simpa using fits) (List.cons_ne_nil seed [])
    (by rwa [List.length_singleton, Nat.one_mul]) _

/-- The first of several directions settles the operation, and all of them are answered from there. -/
theorem Settles.adjoint_in_turn (settles : op.Settles a true s s' r) {seeds : List (DenseMatrix α)}
    (more : seeds ≠ []) (fits : ∀ seed ∈ seeds, seed.shape = shape) :
    seeds.mapM (op.operation.adjoint [a, b] y) s =
      (seeds.mapM fun seed => r.answer seed >>= fun bbar => do
        return [some (← op.matrixSensitivity y bbar), some bbar], s') :=
  Run.mapM_settled more (fun seed along => settles.adjoint rows small result (fits seed along))
    fun seed along z answered x member => by
      obtain ⟨_, answered, -⟩ := Outcome.bind_eq_ok.mp answered
      exact (settles.settled answered).adjoint rows small result (fits x member)

end Settled

/-- The operation has a cell that is used in the promised order. -/
def Serving (op : Solve) (s : Store α (BuiltIn α) ω) : Prop :=
  ∃ c, s.cells[op.cell]? = some c ∧ SolveCell.On op.pattern (c, s.world)

section Batches

variable (serving : op.Serving s) (square : op.pattern.ncols = op.pattern.nrows)
  (rows : shape.1 = op.pattern.nrows) (sized : shape.Sized)
  (fits : a.shape = (op.pattern.nrows, op.pattern.nrows)) (result : y.shape = shape)

include serving square rows sized fits result

/-- A batch of forward directions is the directions one after another. -/
theorem Serving.forwardBatch {seeds : List (List (DenseMatrix α))} (seeding : ∀ direction ∈ seeds,
      direction.map (·.shape) = [(op.pattern.nrows, op.pattern.nrows), shape])
    (few : seeds.length * shape.2 < sizeLimit) :
    op.operation.forwardBatch [a, b] y seeds s = seeds.mapM (op.operation.forward [a, b] y) s := by
  by_cases nothing : seeds = []
  · subst nothing
    rfl
  obtain ⟨c, held, on⟩ := serving
  obtain ⟨r, c', w', -, settles⟩ := exists_settles held on square fits false
  have each (direction) (along : direction ∈ seeds) :=
    exists_direction square rows sized result (seeding direction along)
  obtain ⟨blocks, computed, length, shapes⟩ := Outcome.exists_mapM each
  have more : blocks ≠ [] := by
    rintro rfl
    exact nothing (List.eq_nil_of_length_eq_zero length.symm)
  have width : y.ncols = shape.2 := congrArg Prod.snd result
  have alone {s s' : Store α (BuiltIn α) ω} (settles : op.Settles a false s s' r) (seed)
      (along : seed ∈ seeds) :
      op.operation.forward [a, b] y seed s =
        (op.direction y seed >>= fun block => r.answer block >>= .ok, s') := by
    obtain ⟨block, computed, fits⟩ := each seed along
    rw [settles.forward rows sized.columns result computed fits, computed]
    rfl
  have turns := Run.mapM_settled nothing (alone settles) fun seed along z answered => by
    obtain ⟨block, -, answered⟩ := Outcome.bind_eq_ok.mp answered
    obtain ⟨x, answered, -⟩ := Outcome.bind_eq_ok.mp answered
    exact alone (settles.settled answered)
  rw [turns]
  change op.forwardBatch [a, b] y seeds s = _
  rw [forwardBatch_eq nothing computed, width, settles.sideBySide rows shapes more (length ▸ few),
    Outcome.mapM_bind computed]

/-- A batch of adjoint directions is the directions one after another. -/
theorem Serving.adjointBatch {seeds : List (DenseMatrix α)}
    (seeding : ∀ seed ∈ seeds, seed.shape = shape) (few : seeds.length * shape.2 < sizeLimit) :
    op.operation.adjointBatch [a, b] y seeds s = seeds.mapM (op.operation.adjoint [a, b] y) s := by
  by_cases nothing : seeds = []
  · subst nothing
    rfl
  obtain ⟨c, held, on⟩ := serving
  obtain ⟨r, c', w', -, settles⟩ := exists_settles held on square fits true
  have width : y.ncols = shape.2 := congrArg Prod.snd result
  rw [settles.adjoint_in_turn rows sized.columns result nothing seeding]
  change op.adjointBatch [a, b] y seeds s = _
  rw [adjointBatch_eq nothing, width, settles.sideBySide rows seeding nothing few]

end Batches

/-! ### Histories -/

/-- What may happen: a request of the operation with any arguments, or anything that leaves its cell as
it is. -/
inductive Event (op : Solve) (s : Store α (BuiltIn α) ω) : Store α (BuiltIn α) ω → Prop
  | ask (r : Operation.Request α) : Event op s (op.operation.ask r s).2
  | elsewhere {t : Store α (BuiltIn α) ω} (cell : t.cells[op.cell]? = s.cells[op.cell]?) : Event op s t

theorem serving_create {plugin : String} {pattern : Pattern} {transposed : Bool}
    (created : Solve.create (.builtIn id) plugin pattern transposed s = .ok (op, t)) : op.Serving t := by
  obtain ⟨square, rfl, b, -, rfl⟩ := create_cases created
  exact ⟨_, Array.getElem?_push_size, ⟨Slot.sound_new square, rfl, nofun⟩, rfl⟩

/-- The solution of a system leaves the cell in order, whatever the arguments are. -/
theorem Serving.solveWith (serving : op.Serving s) (a rhs : DenseMatrix α) (opposite : Bool) :
    op.Serving (op.solveWith a rhs opposite s).2 := by
  obtain ⟨c, held, on⟩ := serving
  cases projected : SparseMatrix.project a op.pattern with
  | error e =>
    have same : op.solveWith a rhs opposite s = (.error e, s) := by
      rw [Solve.solveWith, projected]
      rfl
    rw [same]
    exact ⟨c, held, on⟩
  | ok m =>
    have pattern : m.pattern = op.pattern := SparseMatrix.pattern_project projected
    have ran : op.solveWith a rhs opposite s = Store.onCell op.cell
        (SolveCell.factorize m >>= fun _ => SolveCell.solution rhs (op.transposed != opposite)) s := by
      simp only [Solve.solveWith, projected]
      rfl
    have after := SolveCell.post_factorize (a := m) (c := c) (w := s.world) (pattern.symm ▸ on)
    have kept : SolveCell.On op.pattern ((SolveCell.factorize m >>= fun _ =>
        SolveCell.solution rhs (op.transposed != opposite)) (c, s.world)).2 := by
      rw [Run.bind_apply]
      rcases ran : (SolveCell.factorize m : Run (SolveCell α (BuiltIn α) × ω) Unit) (c, s.world) with
        ⟨e | _, c', w'⟩
      · exact pattern ▸ (after.of_error ran).2
      · have ready := after.of_ok ran
        exact ⟨ready.sound, ready.pattern.trans pattern⟩
    rw [ran, Store.after_onCell held]
    exact ⟨_, by simp [(Array.getElem?_eq_some_iff.mp held).1], kept⟩

theorem Serving.later (serving : op.Serving s) (later : ReflTransGen op.Event s t) : op.Serving t := by
  induction later with
  | refl => exact serving
  | tail _ event ih =>
    cases event with
    | ask r =>
      exact ask_keeps (P := op.Serving) (fun _ a rhs opposite h => h.solveWith a rhs opposite) ih r
    | elsewhere cell =>
      obtain ⟨c, held, on⟩ := ih
      exact ⟨c, cell.trans held, on.sound, on.pattern⟩

/-- Columns and directions are solved one by one. However a backend was driven, after values are
factorized a block has in each column what the column has alone, and it is refused as a single column is;
one work vector does for all columns. From any state that a history leaves, a batch of directions, as long
as their columns together are a size, is the directions one after another, with the same outcome and the
same state. If their columns are more, the batch is refused, and nothing has happened. -/
theorem columns_and_directions_apart (α ω : Type) [Scalar α] :
    (∀ {p : Pattern} {values : Array α} {b b' : BuiltIn α}, b.Driven →
      BuiltIn.numeric p values b = (.ok (), b') → b'.Columnwise p.nrows) ∧
    ∀ {plugin : String} {pattern : Pattern} {transposed : Bool} {op : Solve}
      {s₀ s₁ s : Store α (BuiltIn α) ω},
      Solve.create (.builtIn id) plugin pattern transposed s₀ = .ok (op, s₁) →
      ReflTransGen op.Event s₁ s →
      ∀ {shapes : List Shape} {shape : Shape}, op.outputShape shapes = .ok shape → shape.Sized →
      ∀ {xs : List (DenseMatrix α)} {y : DenseMatrix α}, xs.map (·.shape) = shapes → y.shape = shape →
        (∀ seeds : List (List (DenseMatrix α)), (∀ direction ∈ seeds, direction.map (·.shape) = shapes) →
          (seeds.length * shape.2 < sizeLimit →
            op.operation.forwardBatch xs y seeds s = seeds.mapM (op.operation.forward xs y) s) ∧
          (sizeLimit ≤ seeds.length * shape.2 →
            op.operation.forwardBatch xs y seeds s = (.error .sizeOverflow, s))) ∧
        ∀ seeds : List (DenseMatrix α), (∀ seed ∈ seeds, seed.shape = shape) →
          (seeds.length * shape.2 < sizeLimit →
            op.operation.adjointBatch xs y seeds s = seeds.mapM (op.operation.adjoint xs y) s) ∧
          (sizeLimit ≤ seeds.length * shape.2 →
            op.operation.adjointBatch xs y seeds s = (.error .sizeOverflow, s)) := by
  refine ⟨fun driven ran => (driven.analyses.arranged_of_numeric ran).columnwise, ?_⟩
  intro plugin pattern transposed op s₀ s₁ s created later shapes shape promised sized xs y fits result
  have serving := (serving_create created).later later
  obtain ⟨square, same, -⟩ := create_cases created
  obtain rfl : op.pattern = pattern := congrArg Solve.pattern same
  obtain ⟨rfl, rows⟩ := outputShape_eq_ok promised
  obtain ⟨a, b, rfl, first, -⟩ := eq_two_of_shapes fits
  exact ⟨fun seeds seeding =>
      ⟨fun few => serving.forwardBatch square rows sized first result seeding few,
        fun many => forwardBatch_of_crowded square rows sized rfl result seeding many⟩,
    fun seeds seeding => ⟨fun few => serving.adjointBatch square rows sized first result seeding few,
      fun many => adjointBatch_of_crowded sized rfl seeding many⟩⟩

/-- Two rows exchanged: a block of two columns, and two directions after a matrix that is refused. -/
theorem columns_and_directions_apart_exchange :
    let m : DenseMatrix Int := ⟨2, 2, #[0, 1, 1, 0], rfl⟩
    let zero : DenseMatrix Int := ⟨2, 2, #[0, 0, 0, 0], rfl⟩
    let x : DenseMatrix Int := ⟨2, 1, #[7, 5], rfl⟩
    let seeds : List (DenseMatrix Int) := [⟨2, 1, #[1, 2], rfl⟩, ⟨2, 1, #[3, 4], rfl⟩]
    ∃ (b b' : BuiltIn Int) (op : Solve) (s₁ s : Store Int (BuiltIn Int) Unit),
      b.Driven ∧ BuiltIn.numeric (.dense 2 2) m.data b = (.ok (), b') ∧ b'.Columnwise 2 ∧
      b'.solve 2 true #v[1, 2, 3, 4] = .ok #v[2, 1, 4, 3] ∧
      Solve.create (.builtIn id) "lu" (.dense 2 2) false ⟨#[], ()⟩ = .ok (op, s₁) ∧
      s = (op.operation.ask (.evaluate [zero, x]) s₁).2 ∧
      op.operation.adjointBatch [m, x] x seeds s = seeds.mapM (op.operation.adjoint [m, x] x) s ∧
      (op.operation.adjointBatch [m, x] x seeds s).1.map (·.map (·.map (·.map (·.data)))) =
        .ok [[some #[-14, -7, -10, -5], some #[2, 1]], [some #[-28, -21, -20, -15], some #[4, 3]]] := by
  intro m zero x seeds
  have created : Solve.create (.builtIn id : Catalogue Int (BuiltIn Int)) "lu" (.dense 2 2) false
      (⟨#[], ()⟩ : Store Int (BuiltIn Int) Unit) = .ok (_, _) := rfl
  have made : (Catalogue.builtIn id : Catalogue Int (BuiltIn Int)).create "lu" .default =
      .ok (.denseLU (.new .default)) := rfl
  have driven : (BuiltIn.symbolic (.dense 2 2) (.denseLU (.new .default) : BuiltIn Int)).2.Driven :=
    .symbolic (.created made) _
  obtain ⟨blocks, batches⟩ := columns_and_directions_apart Int Unit
  have promised : (⟨0, .dense 2 2, false⟩ : Solve).outputShape [(2, 2), (2, 1)] = .ok (2, 1) := rfl
  have fits : [m, x].map (·.shape) = [(2, 2), (2, 1)] := rfl
  have result : x.shape = (2, 1) := rfl
  obtain ⟨-, adjoints⟩ := batches created (.tail .refl (.ask (.evaluate [zero, x]))) promised
    ⟨⟨by decide, by decide⟩, by decide⟩ fits result
  have factorized : (BuiltIn.numeric (.dense 2 2) m.data
      (BuiltIn.symbolic (.dense 2 2) (.denseLU (.new .default) : BuiltIn Int)).2).1 = .ok () := by
    decide +kernel
  refine ⟨_, _, _, _, _, driven, Prod.ext factorized rfl, blocks driven (Prod.ext factorized rfl), ?_,
    created, rfl, (adjoints seeds (by decide)).1 (by decide), ?_⟩
  · decide +kernel
  · decide +kernel

/-- A system without equations along `2 ^ 24` directions of `2 ^ 40` columns each: one after another they
are answered, but not as a batch. -/
theorem crowded_directions_answered_in_turn :
    let shape : Shape := (0, 1099511627776)
    let columns : DenseMatrix Int := ⟨0, 1099511627776, #[], rfl⟩
    let seeds := List.replicate 16777216 columns
    ∃ (op : Solve) (s : Store Int (BuiltIn Int) Unit),
      Solve.create (.builtIn id) "lu" (.dense 0 0) false ⟨#[], ()⟩ = .ok (op, s) ∧
        op.outputShape [(0, 0), shape] = .ok shape ∧ shape.Sized ∧
        (op.operation.adjointBatch [.empty, columns] columns seeds s).1 = .error .sizeOverflow ∧
        (seeds.mapM (op.operation.adjoint [.empty, columns] columns) s).1 =
          .ok (List.replicate 16777216 [some .empty, some columns]) := by
  intro shape columns seeds
  have sized : shape.Sized := ⟨⟨by decide, by decide⟩, by decide⟩
  have length : seeds.length = 16777216 := List.length_replicate
  have seeding (seed) (along : seed ∈ seeds) : seed = columns := List.eq_of_mem_replicate along
  let op : Solve := ⟨0, .dense 0 0, false⟩
  obtain ⟨s, created⟩ : ∃ s : Store Int (BuiltIn Int) Unit,
      Solve.create (.builtIn id) "lu" (.dense 0 0) false ⟨#[], ()⟩ = .ok (op, s) := ⟨_, rfl⟩
  have square : op.pattern.ncols = op.pattern.nrows := rfl
  have fits : (DenseMatrix.empty : DenseMatrix Int).shape = (0, 0) := rfl
  have single : (op.operation.adjoint [.empty, columns] columns columns s).1 =
      .ok [some .empty, some columns] := by
    cases created
    decide +kernel
  have turns (n : Nat) (more : 0 < n) :
      ((List.replicate n columns).mapM (op.operation.adjoint [.empty, columns] columns) s).1 =
        .ok (List.replicate n [some .empty, some columns]) := by
    obtain ⟨c, held, on⟩ := serving_create created
    obtain ⟨r, c', w', -, settles⟩ := exists_settles held on square fits true
    rw [settles.adjoint rfl sized.columns rfl rfl] at single
    rw [settles.adjoint_in_turn rfl sized.columns rfl]
    · exact Outcome.mapM_replicate (f := fun seed => r.answer seed >>= fun bbar => do
        return [some (← op.matrixSensitivity columns bbar), some bbar]) single n
    · exact List.ne_nil_of_length_pos (by rwa [List.length_replicate])
    · intro seed along
      rw [List.eq_of_mem_replicate along]
      rfl
  refine ⟨op, s, created, rfl, sized, ?_, turns 16777216 (by decide)⟩
  refine congrArg Prod.fst (adjointBatch_of_crowded sized rfl (fun seed along => ?_) ?_)
  · rw [seeding seed along]
    rfl
  · rw [length]
    decide

end Solve

end Cotangent
