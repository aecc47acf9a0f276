import Mathlib
import Cotangent.Proofs.ExactSolves
import Cotangent.Proofs.SharedSolves
import Cotangent.Proofs.SingleDirections
import Cotangent.Proofs.SolveMotions
import Cotangent.Proofs.SymmetricExact

/-! Solve operations with Cholesky as their backend. The value is the solution of a symmetric system, of
which the lower triangle is read; the derivatives take the operand as it stands on the pattern. The two
belong to one function only in those directions of the operand in which this makes no difference. -/
namespace Cotangent

open Matrix Filter Topology

variable {α ω : Type} [FieldScalar α]

theorem DenseMatrix.columnVec_pair (x y : α) : (column [x, y]).columnVec 2 0 = ![x, y] := by
  ext i
  fin_cases i <;> rfl

/-! ### Backends -/

section Backends

variable [LinearOrder α] [RootScalar α]

omit [LinearOrder α] [RootScalar α] in
theorem SparseMatrix.transpose_symmetric (m : SparseMatrix α) (n : Nat) :
    (m.symmetric n)ᵀ = m.symmetric n := by
  ext i j
  simp only [symmetric, transpose_apply, of_apply, max_comm, min_comm]

omit [LinearOrder α] [RootScalar α] in
/-- On an analysed pattern the factorization decides. -/
theorem Cholesky.factored_eq {m : SparseMatrix α} {a : Analysis} (analysed : analyse m.pattern = .ok a) :
    (BuiltIn.cholesky (.new .default)).factored m =
      match factorize .default a m.values with
      | .ok l => .ok (.cholesky ⟨.default, some a, some l⟩)
      | .error e => .error (e.atStage .numeric) := by
  obtain ⟨square, fills⟩ := analyse_eq_ok analysed
  simp only [BuiltIn.factored, BuiltIn.symbolic, BuiltIn.numeric, BuiltIn.step, symbolic, new, analysed,
    numeric_eq fills square]
  cases factorize .default a m.values <;> rfl

/-- What the backend has factorized, it solves exactly, as the symmetric matrix that it is taken for. -/
theorem Cholesky.solves_of_factored {m : SparseMatrix α} {b : BuiltIn α}
    (factored : (BuiltIn.cholesky (.new .default)).factored m = .ok b) :
    Factor.Solves (m.symmetric m.nrows) fun nrhs transposed rhs => b.solve nrhs transposed rhs := by
  cases analysed : analyse m.pattern with
  | error e =>
    simp only [BuiltIn.factored, BuiltIn.symbolic, BuiltIn.step, symbolic, analysed] at factored
    cases factored
  | ok a =>
    have fills := (analyse_eq_ok analysed).2
    rw [factored_eq analysed] at factored
    rcases factorize_cases fills Options.default_nonneg.1 with ⟨l, done, factorizes⟩ | ⟨⟨e, failed⟩, -⟩
    · rw [done] at factored
      cases factored
      exact factorizes.solves fills
    · rw [failed] at factored
      cases factored

omit [LinearOrder α] [RootScalar α] in
theorem SparseMatrix.symmetric_identity {p : Pattern} (square : p.ncols = p.nrows)
    (full : p.hasFullDiagonal = true) :
    (sample p (DenseMatrix.identity p.nrows).entry : SparseMatrix α).symmetric p.nrows = 1 := by
  ext i j
  have inside := Pattern.mem_col_of_hasFullDiagonal square full i.isLt
  rw [symmetric, of_apply, entry_sample, DenseMatrix.identity,
    DenseMatrix.entry_ofFn (max_lt i.isLt j.isLt) (min_lt_of_left_lt i.isLt), one_apply]
  by_cases same : i = j
  · subst same
    simp [inside]
  · simp [same, Fin.val_ne_iff.mpr same]

/-- The unit matrix is accepted on every square pattern with a full diagonal. -/
theorem Cholesky.exists_factored_identity {p : Pattern} (square : p.ncols = p.nrows)
    (full : p.hasFullDiagonal = true) : ∃ b, (BuiltIn.cholesky (.new .default)).factored
      (.sample p (DenseMatrix.identity p.nrows).entry : SparseMatrix α) = .ok b := by
  have low : Factor.pivotTolerance (Options.default : Options α).pivotThreshold
      (SparseMatrix.sample p (DenseMatrix.identity p.nrows).entry : SparseMatrix α).values < 1 := by
    have bounded : Scalar.maxAbs (SparseMatrix.sample p (DenseMatrix.identity p.nrows).entry :
        SparseMatrix α).values.toList ≤ 1 := by
      refine maxAbs_le zero_le_one fun x member => ?_
      obtain ⟨⟨i, j⟩, cell, rfl⟩ := List.mem_map.mp member
      have held := Pattern.mem_col_of_mem_cells cell
      dsimp only
      rw [DenseMatrix.identity, DenseMatrix.entry_ofFn (Pattern.lt_nrows_of_mem_col held)
        (square ▸ Pattern.lt_ncols_of_mem_col held)]
      split <;> simp
    refine (mul_le_mul_of_nonneg_left bounded Options.default_nonneg.1).trans_lt ?_
    rw [mul_one, Options.default]
    norm_num
  obtain ⟨a, analysed, fills⟩ := exists_analyse square full
  obtain ⟨l, done⟩ := exists_factor_one (m := .sample p (DenseMatrix.identity p.nrows).entry) fills
    Options.default_nonneg.1 (SparseMatrix.symmetric_identity square full) low
  exact ⟨_, by rw [factored_eq analysed, done]⟩

end Backends

/-! ### Operations -/

namespace Solve

/-- The symmetric matrix with the lower triangle of the operand at the positions of the pattern. -/
def symmetric (op : Solve) (a : DenseMatrix α) :
    Matrix (Fin op.pattern.nrows) (Fin op.pattern.nrows) α :=
  .of fun i j =>
    if max (i : Nat) j ∈ op.pattern.col (min (i : Nat) j) then a.entry (max i j) (min i j) else 0

variable {op : Solve} {a b x y : DenseMatrix α}

theorem symmetric_of_project {m : SparseMatrix α}
    (projected : SparseMatrix.project a op.pattern = .ok m) :
    op.symmetric a = m.symmetric op.pattern.nrows := by
  obtain ⟨_, -, rfl⟩ := Outcome.map_eq_ok.mp projected
  ext i j
  exact (SparseMatrix.entry_sample op.pattern a.entry (max i j) (min i j)).symm

theorem symmetric_identity (square : op.pattern.ncols = op.pattern.nrows)
    (full : op.pattern.hasFullDiagonal = true) :
    op.symmetric (.identity op.pattern.nrows : DenseMatrix α) = 1 := by
  have fits : (DenseMatrix.identity op.pattern.nrows : DenseMatrix α).checkShape op.pattern.shape =
    .ok () := Sweep.checkShape_eq_ok.mpr (Prod.ext rfl square.symm)
  have projected : SparseMatrix.project (.identity op.pattern.nrows : DenseMatrix α) op.pattern =
      .ok (.sample op.pattern (DenseMatrix.identity op.pattern.nrows).entry) := by
    rw [SparseMatrix.project, fits]
    rfl
  rw [symmetric_of_project projected, SparseMatrix.symmetric_identity square full]

/-- A unit system is its own solution. -/
theorem eq_of_unit {v w : Fin op.pattern.nrows → α} (unit : op.symmetric a = 1)
    (solved : op.symmetric a *ᵥ v = w) : v = w := by
  rwa [unit, one_mulVec] at solved

/-- The operand is symmetric on the pattern exactly if nothing is lost with its upper triangle. -/
theorem system_eq_symmetric_iff : op.system a = op.symmetric a ↔ (op.system a).IsSymm := by
  have entry (i j : Fin op.pattern.nrows) (le : j ≤ i) : op.symmetric a i j =
      if op.transposed then op.system a j i else op.system a i j := by
    rw [symmetric, of_apply, max_eq_left (Fin.le_iff_val_le_val.mp le),
      min_eq_right (Fin.le_iff_val_le_val.mp le)]
    cases sense : op.transposed <;> simp [system, sense]
  have mirrored (i j : Fin op.pattern.nrows) : op.symmetric a j i = op.symmetric a i j := by
    simp only [symmetric, of_apply, max_comm, min_comm]
  constructor
  · intro same
    rw [same]
    exact Matrix.ext fun i j => mirrored i j
  · intro symm
    have lower (i j) (le : j ≤ i) : op.system a i j = op.symmetric a i j := by
      rw [entry i j le, symm.apply, ite_self]
    ext i j
    rcases le_total j i with le | le
    · exact lower i j le
    · rw [← symm.apply, lower j i le, mirrored]

/-- Solutions of the symmetric system, and the only ones, for every column of a right-hand side. -/
structure SymmetricSolution (op : Solve) (a b x : DenseMatrix α) : Prop where
  shape : x.shape = b.shape
  unique : ∀ c < b.ncols, ∀ v, op.symmetric a *ᵥ v = b.columnVec _ c ↔ v = x.columnVec _ c

theorem SymmetricSolution.det_ne_zero (solution : op.SymmetricSolution a b x) {c : Nat}
    (inside : c < b.ncols) : (op.symmetric a).det ≠ 0 := by
  intro singular
  obtain ⟨v, nonzero, zero⟩ := Matrix.exists_mulVec_eq_zero_iff.mpr singular
  have solved := (solution.unique c inside _).mpr rfl
  have other := (solution.unique c inside (x.columnVec _ c + v)).mp
    (by rw [Matrix.mulVec_add, solved, zero, add_zero])
  exact nonzero (add_eq_left.mp other)

/-- The derivative of such a solution along sensitivities of the operands. -/
def SymmetricDerivative (op : Solve) (a x da db dx : DenseMatrix α) : Prop :=
  ∀ c < x.ncols, op.symmetric a *ᵥ dx.columnVec _ c =
    db.columnVec _ c - op.symmetric da *ᵥ x.columnVec _ c

section Motion

variable {op : Solve} {ma mb : Motion} {x : ℝ → DenseMatrix ℝ} {dx : DenseMatrix ℝ} {c : Nat}

theorem hasDerivAt_symmetric (shape : ma.velocity.shape = (op.pattern.nrows, op.pattern.nrows))
    (i j : Fin op.pattern.nrows) :
    HasDerivAt (fun t => op.symmetric (ma.path t) i j) (op.symmetric ma.velocity i j) 0 := by
  obtain ⟨rows, columns⟩ := Prod.mk.inj shape
  simp only [symmetric, of_apply]
  split
  · exact ma.hasDerivAt _ ((max_lt i.isLt j.isLt).trans_eq rows.symm) _
      ((min_lt_of_left_lt i.isLt).trans_eq columns.symm)
  · exact hasDerivAt_const 0 0

/-- Over the real numbers it is the derivative: while the operands move, the solution moves with this
velocity. -/
theorem SymmetricDerivative.hasDerivAt
    (shape : ma.velocity.shape = (op.pattern.nrows, op.pattern.nrows))
    (rows : mb.velocity.nrows = op.pattern.nrows)
    (solves : ∀ᶠ t in 𝓝 0, op.SymmetricSolution (ma.path t) (mb.path t) (x t))
    (derivative : op.SymmetricDerivative ma.value (x 0) ma.velocity mb.velocity dx)
    (inside : c < mb.velocity.ncols) (i : Fin op.pattern.nrows) :
    HasDerivAt (fun t => (x t).entry i c) (dx.entry i c) 0 := by
  have few (t : ℝ) : c < (mb.path t).ncols := inside.trans_eq (mb.ncols_path t).symm
  have found {t : ℝ} (solution : op.SymmetricSolution (ma.path t) (mb.path t) (x t)) :
      (x t).columnVec _ c =
        cramerSolution (op.symmetric (ma.path t)) ((mb.path t).columnVec _ c) :=
    ((solution.unique c (few t) _).mp (mulVec_cramerSolution (solution.det_ne_zero (few t)) _)).symm
  have now := solves.self_of_nhds
  have moves (k : Fin op.pattern.nrows) : HasDerivAt (fun t => (mb.path t).columnVec _ c k)
      (mb.velocity.columnVec _ c k) 0 := mb.hasDerivAt k (k.isLt.trans_eq rows.symm) c inside
  have width : c < (x 0).ncols := (few 0).trans_eq (congrArg Prod.snd now.shape).symm
  have velocity := derivative c width
  rw [found now] at velocity
  have motion := hasDerivAt_cramerSolution (hasDerivAt_symmetric shape) moves
    (now.det_ne_zero (few 0)) velocity i
  refine motion.congr_of_eventuallyEq ?_
  filter_upwards [solves] with t solution
  exact congrFun (found solution) i

end Motion

variable {s t u : Store α (BuiltIn α) ω}

/-- In this state every right-hand side of the order is answered by the solution of the symmetric
system of a matrix, whichever of the two systems is asked for. -/
def Answers (op : Solve) (a : DenseMatrix α) (s : Store α (BuiltIn α) ω) : Prop :=
  ∀ (r : DenseMatrix α) (opposite : Bool), r.nrows = op.pattern.nrows →
    ∃ y, (op.solveWith a r opposite s).1 = .ok y ∧ op.SymmetricSolution a r y

/-- The forward sensitivity solves the symmetric system, but the product that it takes off the
right-hand side is with the operand's sensitivity as it stands on the pattern. -/
theorem forward_symmetric (answers : op.Answers a s) (square : op.pattern.ncols = op.pattern.nrows)
    (rows : x.nrows = op.pattern.nrows) (sized : x.shape.Sized) {da db : DenseMatrix α}
    (left : da.shape = (op.pattern.nrows, op.pattern.nrows)) (right : db.shape = x.shape) :
    ∃ dx, (op.operation.forward [a, b] x [da, db] s).1 = .ok dx ∧ dx.shape = x.shape ∧
      ∀ c < x.ncols, op.symmetric a *ᵥ dx.columnVec _ c =
        db.columnVec _ c - op.system da *ᵥ x.columnVec _ c := by
  have seeding : [da, db].map (·.shape) = [(op.pattern.nrows, op.pattern.nrows), x.shape] := by
    rw [List.map_cons, List.map_singleton, left, right]
  obtain ⟨block, found, shape⟩ := exists_direction square rows sized rfl seeding
  obtain ⟨-, columns⟩ := direction_columns square rows right found
  have width : block.ncols = x.ncols := congrArg Prod.snd shape
  obtain ⟨dx, solved, solution⟩ := answers block false ((congrArg Prod.fst shape).trans rows)
  refine ⟨dx, forward_of_solved found shape solved solution.shape sized.columns,
    solution.shape.trans shape, fun c inside => ?_⟩
  rw [← columns c inside]
  exact (solution.unique c (width.symm ▸ inside) _).mpr rfl

/-- The contribution to the right-hand side solves the symmetric system; the contribution to the operand
is spread over the pattern. -/
theorem adjoint_symmetric (answers : op.Answers a s) (square : op.pattern.ncols = op.pattern.nrows)
    (room : Shape.elements (op.pattern.nrows, op.pattern.nrows) < wordLimit)
    (rows : x.nrows = op.pattern.nrows) (small : x.ncols < sizeLimit) {seed : DenseMatrix α}
    (fits : seed.shape = x.shape) : ∃ abar bbar,
      (op.operation.adjoint [a, b] x seed s).1 = .ok [some abar, some bbar] ∧
      abar.shape = (op.pattern.nrows, op.pattern.nrows) ∧ bbar.shape = x.shape ∧
      (∀ c < x.ncols, op.symmetric a *ᵥ bbar.columnVec _ c = seed.columnVec _ c) ∧
      ∀ i j : Fin op.pattern.nrows, abar.entry i j = if (i : Nat) ∈ op.pattern.col j then
        -∑ c ∈ Finset.range x.ncols, (if op.transposed then x.entry i c * bbar.entry j c else
          bbar.entry i c * x.entry j c) else 0 := by
  have width : seed.ncols = x.ncols := congrArg Prod.snd fits
  have order : x.shape = (op.pattern.nrows, x.ncols) := Prod.ext rows rfl
  obtain ⟨bbar, solved, solution⟩ := answers seed true ((congrArg Prod.fst fits).trans rows)
  have shape : bbar.shape = x.shape := solution.shape.trans fits
  obtain ⟨abar, product, whole⟩ := exists_matrixSensitivity square room order (shape.trans order)
  refine ⟨abar, bbar, adjoint_of_solved fits solved solution.shape product small, whole, shape,
    fun c inside => ?_, entry_matrixSensitivity order (shape.trans order) product⟩
  exact (solution.unique c (width.symm ▸ inside) _).mpr rfl

section Accepted

variable [LinearOrder α] [RootScalar α]

/-- Once a matrix has been accepted, every right-hand side of its order has its solution, whichever of
the two systems is asked for. -/
theorem symmetric_answer {rhs : DenseMatrix α} {opposite : Bool}
    (answered : op.answer (.cholesky (.new .default)) a rhs opposite = .ok x) :
    a.shape = op.pattern.shape ∧ rhs.nrows = op.pattern.nrows ∧
      ∀ (r : DenseMatrix α) (opposite : Bool), r.nrows = op.pattern.nrows →
        ∃ y, op.answer (.cholesky (.new .default)) a r opposite = .ok y ∧
          op.SymmetricSolution a r y := by
  obtain ⟨m, projected, answered⟩ := Outcome.bind_eq_ok.mp answered
  obtain ⟨b, factored, answered⟩ := Outcome.bind_eq_ok.mp answered
  have order : m.nrows = op.pattern.nrows :=
    congrArg Pattern.nrows (SparseMatrix.pattern_project projected)
  obtain ⟨_, checked, -⟩ := Outcome.map_eq_ok.mp projected
  have solves := Cholesky.solves_of_factored factored
  rw [order] at solves
  refine ⟨Sweep.checkShape_eq_ok.mp checked, ?_, fun r opposite rows => ?_⟩
  · by_contra other
    rw [BuiltIn.answer, if_neg other] at answered
    cases answered
  · obtain ⟨y, found, shape, unique⟩ :=
      BuiltIn.answer_of_solves solves rows (op.transposed != opposite)
    refine ⟨y, ?_, shape, fun c inside v => ?_⟩
    · rw [answer, projected, Outcome.ok_bind, factored, Outcome.ok_bind, found]
    · rw [← unique c inside v, m.transpose_symmetric, ite_self, symmetric_of_project projected]

/-- A matrix with which a value is found is answered for from then on. -/
theorem answers_of_evaluate (made : s.made op.cell = some (op.pattern, "cholesky"))
    (later : s.Extends t) (evaluated : (op.evaluate [a, b] t).1 = .ok x) (later' : s.Extends u) :
    a.shape = op.pattern.shape ∧ b.nrows = op.pattern.nrows ∧ op.SymmetricSolution a b x ∧
      op.Answers a u := by
  have created : (Catalogue.builtIn id).create "cholesky" (.default : Options α) =
    .ok (.cholesky (.new .default)) := rfl
  have answered : op.answer (.cholesky (.new .default)) a b false = .ok x :=
    (solveWith_eq later made created a b false).1.symm.trans evaluated
  obtain ⟨fits, rows, answers⟩ := symmetric_answer answered
  obtain ⟨x', answered', solution⟩ := answers b false rows
  cases answered.symm.trans answered'
  refine ⟨fits, rows, solution, fun r opposite rows => ?_⟩
  obtain ⟨y, answered, solution⟩ := answers r opposite rows
  exact ⟨y, (solveWith_eq later' made created a r opposite).1.trans answered, solution⟩

/-- The unit matrix is solved with on every pattern with a full diagonal. -/
theorem exists_evaluate_identity (made : s.made op.cell = some (op.pattern, "cholesky"))
    (later : s.Extends t) (square : op.pattern.ncols = op.pattern.nrows)
    (full : op.pattern.hasFullDiagonal = true) (rows : b.nrows = op.pattern.nrows) :
    ∃ x, (op.evaluate [.identity op.pattern.nrows, b] t).1 = .ok x := by
  have created : (Catalogue.builtIn id).create "cholesky" (.default : Options α) =
    .ok (.cholesky (.new .default)) := rfl
  have fits : (DenseMatrix.identity op.pattern.nrows : DenseMatrix α).shape =
    (op.pattern.nrows, op.pattern.nrows) := rfl
  obtain ⟨m, projected, -⟩ := exists_project square fits
  obtain ⟨_, -, rfl⟩ := Outcome.map_eq_ok.mp projected
  obtain ⟨f, factored⟩ := Cholesky.exists_factored_identity (α := α) square full
  obtain ⟨x, answered, -⟩ := BuiltIn.answer_of_solves (Cholesky.solves_of_factored factored) rows
    (op.transposed != false)
  refine ⟨x, (solveWith_eq later made created _ b false).1.trans ?_⟩
  rw [answer, projected, Outcome.ok_bind, factored, Outcome.ok_bind]
  exact answered

end Accepted

end Solve

/-! ### Sessions -/

namespace Session

variable [LinearOrder α] [RootScalar α]

/-- What a solve operation with Cholesky computes in a session. Its value is the only solution of the
symmetric system whose lower triangle the operand has on the pattern. Once a value has been found,
sensitivities do not fail, but they read the sensitivity of the operand as it stands on the pattern. So the
forward sensitivity is the derivative of the value in exactly the directions in which the products of the
two with the value agree, among them all those that are symmetric on the pattern. The contribution to the
operand is spread over the whole pattern, entries above the diagonal included, on which the value does
not depend. -/
theorem symmetric_solve_sensitivities {world : ω} {pattern : Pattern} {transposed : Bool} {op : Solve}
    {store : Store α (BuiltIn α) ω} {s t u : Session α ω} {a b x : DenseMatrix α}
    (before : Later ⟨[], [], [], ⟨#[], world⟩⟩ s)
    (created : Solve.create (.builtIn id) "cholesky" pattern transposed s.store = .ok (op, store))
    (later : Later { s with solves := op :: s.solves, store := store } t)
    (room : a.shape.Sized) (room' : b.shape.Sized)
    (evaluated : (op.operation.evaluate [a, b] t.store).1 = .ok x) (later' : Later t u) :
    op.SymmetricSolution a b x ∧
    (∀ da db, da.shape = a.shape → db.shape = b.shape → ∃ dx,
      (op.operation.forward [a, b] x [da, db] u.store).1 = .ok dx ∧ dx.shape = x.shape ∧
      (∀ c < x.ncols, op.symmetric a *ᵥ dx.columnVec _ c =
        db.columnVec _ c - op.system da *ᵥ x.columnVec _ c) ∧
      (op.SymmetricDerivative a x da db dx ↔
        ∀ c < x.ncols, op.system da *ᵥ x.columnVec _ c = op.symmetric da *ᵥ x.columnVec _ c) ∧
      ((op.system da).IsSymm → op.SymmetricDerivative a x da db dx)) ∧
    ∀ seed, seed.shape = b.shape → ∃ abar bbar,
      (op.operation.adjoint [a, b] x seed u.store).1 = .ok [some abar, some bbar] ∧
      abar.shape = a.shape ∧ bbar.shape = b.shape ∧
      (∀ c < x.ncols, op.symmetric a *ᵥ bbar.columnVec _ c = seed.columnVec _ c) ∧
      ∀ i j : Fin op.pattern.nrows, abar.entry i j = if (i : Nat) ∈ op.pattern.col j then
        -∑ c ∈ Finset.range x.ncols, (if op.transposed then x.entry i c * bbar.entry j c else
          bbar.entry i c * x.entry j c) else 0 := by
  obtain ⟨rfl, square, -⟩ := Solve.create_eq_ok created
  have shared := ((Shared.start world).later before).1
  have made := (shared.faithful.store.create created).2
  have first := (shared.use (.step (.solve created))).1.later later
  obtain ⟨fits, rows, solution, answers⟩ := Solve.answers_of_evaluate made first.2 evaluated
    (first.2.trans (first.1.later later').2)
  have matrix : a.shape = (pattern.nrows, pattern.nrows) := fits.trans (Prod.ext rfl square)
  have order : x.nrows = pattern.nrows := (congrArg Prod.fst solution.shape).trans rows
  rw [← solution.shape] at room' ⊢
  refine ⟨solution, fun da db left right => ?_, fun seed given => ?_⟩
  · obtain ⟨dx, answered, shape, solves⟩ :=
      Solve.forward_symmetric answers square order room' (left.trans matrix) right
    refine ⟨dx, answered, shape, solves, ?_, fun symm c inside => ?_⟩
    · refine forall₂_congr fun c inside => ?_
      rw [solves c inside, sub_right_inj]
    · rw [solves c inside, Solve.system_eq_symmetric_iff.mpr symm]
  · rw [matrix] at room ⊢
    exact Solve.adjoint_symmetric answers square room.room order room'.columns given

/-- Along the matrix that exchanges two coordinates, a symmetric direction, the solution `(1, 2)` of the
unit system moves by its mirror image. -/
theorem symmetric_solve_sensitivities_swap :
    ∃ (op : Solve) (store : Store ℝ (BuiltIn ℝ) Unit) (x dx : DenseMatrix ℝ),
      Solve.create (.builtIn id) "cholesky" (.dense 2 2) false (⟨#[], ()⟩ : Store ℝ (BuiltIn ℝ) Unit) =
        .ok (op, store) ∧
      (op.operation.evaluate [.identity 2, .column [1, 2]] store).1 = .ok x ∧
      (op.operation.forward [.identity 2, .column [1, 2]] x
        [⟨2, 2, #[0, 1, 1, 0], rfl⟩, .column [0, 0]] store).1 = .ok dx ∧
      dx.columnVec 2 0 = ![-2, -1] := by
  obtain ⟨store, created⟩ : ∃ store, Solve.create (.builtIn id) "cholesky" (.dense 2 2) false
    (⟨#[], ()⟩ : Store ℝ (BuiltIn ℝ) Unit) = .ok (⟨0, .dense 2 2, false⟩, store) := ⟨_, rfl⟩
  have faithful : (⟨#[], ()⟩ : Store ℝ (BuiltIn ℝ) Unit).Faithful := nofun
  obtain ⟨extended, made⟩ := faithful.create created
  have full : (Pattern.dense 2 2).hasFullDiagonal = true := by decide +kernel
  obtain ⟨x, evaluated⟩ := Solve.exists_evaluate_identity (b := .column [1, 2]) made
    (.refl extended.faithful) rfl full rfl
  have two : (DenseMatrix.identity 2 : DenseMatrix ℝ).shape.Sized :=
    ⟨⟨by decide +kernel, by decide +kernel⟩, by decide +kernel⟩
  have one : (DenseMatrix.column [1, 2] : DenseMatrix ℝ).shape.Sized :=
    ⟨⟨by decide +kernel, by decide +kernel⟩, by decide +kernel⟩
  obtain ⟨solution, forward, -⟩ :=
    symmetric_solve_sensitivities .refl created .refl two one evaluated .refl
  obtain ⟨dx, answered, -, solves, -⟩ := forward ⟨2, 2, #[0, 1, 1, 0], rfl⟩ (.column [0, 0]) rfl rfl
  have unit : Solve.symmetric ⟨0, .dense 2 2, false⟩ (.identity 2 : DenseMatrix ℝ) = 1 :=
    Solve.symmetric_identity rfl full
  have few : 0 < x.ncols := Nat.one_pos.trans_eq (congrArg Prod.snd solution.shape).symm
  have value : x.columnVec 2 0 = ![1, 2] :=
    (Solve.eq_of_unit unit ((solution.unique 0 Nat.one_pos _).mpr rfl)).trans
      (DenseMatrix.columnVec_pair 1 2)
  have exchange : Solve.system ⟨0, .dense 2 2, false⟩ (⟨2, 2, #[0, 1, 1, 0], rfl⟩ : DenseMatrix ℝ) =
      !![0, 1; 1, 0] := by
    ext i j
    fin_cases i <;> fin_cases j <;> rfl
  have motion : dx.columnVec 2 0 =
      (DenseMatrix.column [0, 0]).columnVec 2 0 - !![0, 1; 1, 0] *ᵥ x.columnVec 2 0 :=
    (Solve.eq_of_unit unit (solves 0 few)).trans (by rw [exchange]; rfl)
  refine ⟨_, store, x, dx, created, evaluated, answered, ?_⟩
  rw [motion, value, DenseMatrix.columnVec_pair]
  ext i
  fin_cases i <;> norm_num [mulVec, dotProduct]

/-- If only the lower triangle is on the pattern, the exchange of two coordinates is felt in one of them
only. The system has a symmetric matrix, and the direction is symmetric too; the solution moves by
`(-1, -1)`, and the forward sensitivity is `(0, -1)`. -/
theorem symmetric_solve_misses_mirror_image :
    ∃ (op : Solve) (store : Store ℝ (BuiltIn ℝ) Unit) (x dx : DenseMatrix ℝ),
      Solve.create (.builtIn id) "cholesky" (Pattern.dense 2 2).lower false
        (⟨#[], ()⟩ : Store ℝ (BuiltIn ℝ) Unit) = .ok (op, store) ∧
      (op.operation.evaluate [.identity 2, .column [1, 1]] store).1 = .ok x ∧
      (op.operation.forward [.identity 2, .column [1, 1]] x
        [⟨2, 2, #[0, 1, 1, 0], rfl⟩, .column [0, 0]] store).1 = .ok dx ∧
      dx.columnVec 2 0 = ![0, -1] ∧
      ¬ op.SymmetricDerivative (.identity 2) x ⟨2, 2, #[0, 1, 1, 0], rfl⟩ (.column [0, 0]) dx := by
  obtain ⟨store, created⟩ : ∃ store, Solve.create (.builtIn id) "cholesky" (Pattern.dense 2 2).lower
    false (⟨#[], ()⟩ : Store ℝ (BuiltIn ℝ) Unit) =
      .ok (⟨0, (Pattern.dense 2 2).lower, false⟩, store) := ⟨_, rfl⟩
  have faithful : (⟨#[], ()⟩ : Store ℝ (BuiltIn ℝ) Unit).Faithful := nofun
  obtain ⟨extended, made⟩ := faithful.create created
  have after := Store.Extends.refl extended.faithful
  have square : (Pattern.dense 2 2).lower.ncols = (Pattern.dense 2 2).lower.nrows := by decide +kernel
  have full : (Pattern.dense 2 2).lower.hasFullDiagonal = true := by decide +kernel
  obtain ⟨x, evaluated⟩ := Solve.exists_evaluate_identity (b := .column [1, 1]) made after square full rfl
  obtain ⟨-, -, solution, answers⟩ := Solve.answers_of_evaluate made after evaluated after
  have one : (DenseMatrix.column [1, 1] : DenseMatrix ℝ).shape.Sized :=
    ⟨⟨by decide +kernel, by decide +kernel⟩, by decide +kernel⟩
  have swap : (⟨2, 2, #[0, 1, 1, 0], rfl⟩ : DenseMatrix ℝ).shape =
    ((Pattern.dense 2 2).lower.nrows, (Pattern.dense 2 2).lower.nrows) := rfl
  have still : (DenseMatrix.column [0, 0] : DenseMatrix ℝ).shape = x.shape := solution.shape.symm
  obtain ⟨dx, answered, -, solves⟩ := Solve.forward_symmetric (b := .column [1, 1]) answers square
    (congrArg Prod.fst solution.shape) (solution.shape ▸ one) swap still
  have unit : Solve.symmetric ⟨0, (Pattern.dense 2 2).lower, false⟩ (.identity 2 : DenseMatrix ℝ) = 1 :=
    Solve.symmetric_identity square full
  have few : 0 < x.ncols := Nat.one_pos.trans_eq (congrArg Prod.snd solution.shape).symm
  have value : x.columnVec 2 0 = ![1, 1] :=
    (Solve.eq_of_unit unit ((solution.unique 0 Nat.one_pos _).mpr rfl)).trans
      (DenseMatrix.columnVec_pair 1 1)
  have seen : Solve.system ⟨0, (Pattern.dense 2 2).lower, false⟩
      (⟨2, 2, #[0, 1, 1, 0], rfl⟩ : DenseMatrix ℝ) = !![0, 0; 1, 0] := by
    ext i j
    fin_cases i <;> fin_cases j <;> rfl
  have meant : Solve.symmetric ⟨0, (Pattern.dense 2 2).lower, false⟩
      (⟨2, 2, #[0, 1, 1, 0], rfl⟩ : DenseMatrix ℝ) = !![0, 1; 1, 0] := by
    ext i j
    fin_cases i <;> fin_cases j <;> rfl
  have motion : dx.columnVec 2 0 =
      (DenseMatrix.column [0, 0]).columnVec 2 0 - !![0, 0; 1, 0] *ᵥ x.columnVec 2 0 :=
    (Solve.eq_of_unit unit (solves 0 few)).trans (by rw [seen]; rfl)
  have moved : dx.columnVec 2 0 = ![0, -1] := by
    rw [motion, value, DenseMatrix.columnVec_pair]
    ext i
    fin_cases i <;> norm_num [mulVec, dotProduct]
  refine ⟨_, store, x, dx, created, evaluated, answered, moved, fun derivative => ?_⟩
  have right : dx.columnVec 2 0 =
      (DenseMatrix.column [0, 0]).columnVec 2 0 - !![0, 1; 1, 0] *ᵥ x.columnVec 2 0 :=
    (Solve.eq_of_unit unit (derivative 0 few)).trans (by rw [meant]; rfl)
  rw [moved, value, DenseMatrix.columnVec_pair] at right
  have first := congrFun right 0
  norm_num [mulVec, dotProduct] at first

end Session

end Cotangent
