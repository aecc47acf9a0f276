import Mathlib
import Cotangent.Proofs.Caches
import Cotangent.Proofs.DenseExact
import Cotangent.Proofs.RankRevealing
import Cotangent.Proofs.SolveRules

/-! Solve operations are exact in exact arithmetic. The three backends that take any invertible matrix
answer the solution of the system that the operation denotes: the operand read through the pattern,
transposed if the operation says so. -/
namespace Cotangent

open Matrix

section Field

variable {α : Type} [FieldScalar α]

/-- A solution of the system for every right-hand side. -/
structure Solve.Solution (op : Solve) (a b x : DenseMatrix α) : Prop where
  matrix : a.shape = (op.pattern.nrows, op.pattern.nrows)
  rows : b.nrows = op.pattern.nrows
  shape : x.shape = b.shape
  solves : ∀ c < b.ncols, op.system a *ᵥ x.columnVec _ c = b.columnVec _ c

/-! ### Backends -/

/-- Only invertible matrices have a rule that solves their systems. -/
theorem Factor.Solves.det_ne_zero {n : Nat} {a : Matrix (Fin n) (Fin n) α}
    {solve : {m : Nat} → Nat → Bool → Vector α m → Except Error (Vector α m)}
    (solves : Factor.Solves a solve) : a.det ≠ 0 := by
  intro singular
  obtain ⟨v, nonzero, zero⟩ := Matrix.exists_mulVec_eq_zero_iff.mpr singular
  obtain ⟨x, -, unique⟩ := solves n 1 false (Vector.replicate n 0) (Nat.mul_one n).symm
  have given : columnOf n 0 (Vector.replicate n (0 : α)).toArray = 0 := by
    funext i
    simp [columnOf, Array.getD_eq_getD_getElem?]
  have first := (unique 0 Nat.one_pos v).mp (zero.trans given.symm)
  have second := (unique 0 Nat.one_pos 0).mp ((Matrix.mulVec_zero a).trans given.symm)
  exact nonzero (first.trans second.symm)

/-- A backend that solves the systems of a matrix answers every right-hand side of its order, column by
column, by the only solution. -/
theorem BuiltIn.answer_of_solves {n : Nat} {m : Matrix (Fin n) (Fin n) α} {b : BuiltIn α}
    (solves : Factor.Solves m fun nrhs transposed rhs => b.solve nrhs transposed rhs)
    {rhs : DenseMatrix α} (rows : rhs.nrows = n) (transposed : Bool) :
    ∃ x, b.answer n transposed rhs = .ok x ∧ x.shape = rhs.shape ∧ ∀ c < rhs.ncols, ∀ v,
      (if transposed then mᵀ else m) *ᵥ v = rhs.columnVec n c ↔ v = x.columnVec n c := by
  rw [answer, if_pos rows]
  by_cases none : rhs.ncols = 0
  · exact ⟨rhs, if_pos none, rfl, fun c inside => by omega⟩
  · obtain ⟨v, solved, unique⟩ := solves (rhs.nrows * rhs.ncols) rhs.ncols transposed
      ⟨rhs.data, rhs.size_data⟩ (congrArg (· * rhs.ncols) rows)
    dsimp only at solved
    refine ⟨.ofVector v, by rw [if_neg none, solved], rfl, fun c inside w => ?_⟩
    rw [DenseMatrix.columnVec_eq rows, DenseMatrix.columnVec_eq (m := .ofVector v) rows]
    exact unique c inside w

/-- An accepted analysis and accepted values leave the factors. -/
theorem BuiltIn.factored_eq_ok {φ : Type} {wrap : Staged α φ → BuiltIn α}
    {factorize : Options α → SparseMatrix α → Except Error φ} {options : Options α}
    {a : SparseMatrix α} {b : BuiltIn α}
    (analyses : ∀ s, symbolic a.pattern (wrap s) = step wrap (Staged.symbolic a.pattern) s)
    (factorizes : ∀ s, numeric a.pattern a.values (wrap s) =
      step wrap (Staged.numeric factorize a.pattern a.values) s)
    (factored : (wrap (.new options)).factored a = .ok b) :
    a.ncols = a.nrows ∧ ∃ f, factorize options a = .ok f ∧
      b = wrap ⟨options, some a.nrows, some f⟩ := by
  simp only [BuiltIn.factored, analyses, step] at factored
  rcases analysed : Staged.symbolic a.pattern (.new options : Staged α φ) with ⟨e | _, s⟩
  · simp only [analysed, reduceCtorEq] at factored
  · have accepted : (Staged.symbolic a.pattern (.new options : Staged α φ)).1 = .ok () :=
      congrArg Prod.fst analysed
    have square := (Staged.symbolic_eq_ok.mp accepted).1
    obtain rfl : s = ⟨options, some a.nrows, none⟩ :=
      (congrArg Prod.snd analysed).symm.trans (Staged.state_symbolic accepted)
    have decided := Staged.numeric_eq factorize (a := a)
      (s := ⟨options, some a.nrows, none⟩) rfl square
    simp only [analysed, factorizes, step, decided] at factored
    cases done : factorize options a with
    | error e => simp only [done, reduceCtorEq] at factored
    | ok f =>
      simp only [done, Except.ok.injEq] at factored
      exact ⟨square, f, rfl, factored.symm⟩

variable [LinearOrder α] [RootScalar α]

omit [RootScalar α] in
theorem Options.default_nonneg [OrderedScalar α] :
    (0 : α) ≤ (Options.default : Options α).pivotThreshold ∧
      (0 : α) ≤ (Options.default : Options α).rankTolerance :=
  ⟨div_nonneg zero_le_one (Nat.cast_nonneg _), div_nonneg zero_le_one (Nat.cast_nonneg _)⟩

/-- What a backend other than Cholesky has factorized, it solves exactly. -/
theorem BuiltIn.solves_of_factored {b b' : BuiltIn α} {plugin : String} {a : SparseMatrix α}
    (created : (Catalogue.builtIn id).create plugin (.default : Options α) = .ok b)
    (general : plugin ≠ "cholesky") (factored : b.factored a = .ok b') {m nrhs : Nat}
    {transposed : Bool} {rhs x : Vector α m} (solved : b'.solve nrhs transposed rhs = .ok x) :
    Factor.Solves (a.matrix a.nrows) fun nrhs transposed rhs => b'.solve nrhs transposed rhs := by
  obtain ⟨pivots, ranks⟩ := Options.default_nonneg (α := α)
  rcases create_eq_ok created with ⟨-, rfl⟩ | ⟨-, rfl⟩ | ⟨-, rfl⟩ | ⟨cholesky, -⟩
  · obtain ⟨square, f, done, rfl⟩ := factored_eq_ok (fun _ => rfl) (fun _ => rfl) factored
    exact DenseLU.solves_of_factorize rfl square pivots done
  · obtain ⟨square, f, done, rfl⟩ := factored_eq_ok (fun _ => rfl) (fun _ => rfl) factored
    exact SparseLU.solves_of_factorize rfl square pivots done
  · obtain ⟨square, f, done, rfl⟩ := factored_eq_ok (fun _ => rfl) (fun _ => rfl) factored
    obtain ⟨f', done', π, reduces, -⟩ :=
      QR.factorize_reduces Options.default (QR.eq_of_factorize done).1 (rfl : a.nrows = a.nrows)
        square
    cases done.symm.trans done'
    have order : f.order = a.nrows := congrArg Prod.fst reduces.shape
    have full : ¬ f.rank (Options.default : Options α) < f.order := by
      intro deficient
      obtain ⟨f', held, solved⟩ := Outcome.bind_eq_ok.mp solved
      cases held
      obtain ⟨y, -, refused⟩ := Outcome.bind_eq_ok.mp solved
      simp only [if_pos deficient, reduceCtorEq] at refused
    exact reduces.solves (order ▸ QR.pivots_of_rank ranks full) full
  · exact absurd cholesky general

/-- An answer is the solution, and if there are columns to solve for, the only one. -/
theorem BuiltIn.answer_solves {b b' : BuiltIn α} {plugin : String} {a : SparseMatrix α}
    (created : (Catalogue.builtIn id).create plugin (.default : Options α) = .ok b)
    (general : plugin ≠ "cholesky") (factored : b.factored a = .ok b') {transposed : Bool}
    {rhs x : DenseMatrix α} (answered : b'.answer a.nrows transposed rhs = .ok x) :
    rhs.nrows = a.nrows ∧ x.shape = rhs.shape ∧
      (0 < rhs.ncols → (a.matrix a.nrows).det ≠ 0) ∧ ∀ c < rhs.ncols,
        (if transposed then (a.matrix a.nrows)ᵀ else a.matrix a.nrows) *ᵥ x.columnVec a.nrows c =
          rhs.columnVec a.nrows c := by
  have given := answered
  unfold answer at answered
  split at answered
  · next rows =>
    split at answered
    · next none =>
      cases answered
      exact ⟨rows, rfl, fun some => absurd none some.ne', fun c inside => by omega⟩
    · split at answered
      · next solved =>
        have solves := solves_of_factored created general factored solved
        obtain ⟨y, found, shape, unique⟩ := answer_of_solves solves rows transposed
        cases given.symm.trans found
        exact ⟨rows, shape, fun _ => solves.det_ne_zero, fun c inside => (unique c inside _).mpr rfl⟩
      · cases answered
  · cases answered

/-- What a solve operation answers is the solution of the system that it denotes. -/
theorem Solve.answer_solution {op : Solve} {b : BuiltIn α} {plugin : String}
    (created : (Catalogue.builtIn id).create plugin (.default : Options α) = .ok b)
    (general : plugin ≠ "cholesky") (square : op.pattern.ncols = op.pattern.nrows)
    {a rhs x : DenseMatrix α} (answered : op.answer b a rhs false = .ok x) :
    op.Solution a rhs x ∧ (0 < rhs.ncols → (op.system a).det ≠ 0) := by
  obtain ⟨m, projected, answered⟩ := Outcome.bind_eq_ok.mp answered
  obtain ⟨b', factored, answered⟩ := Outcome.bind_eq_ok.mp answered
  have rows : op.pattern.nrows = m.nrows :=
    congrArg Pattern.nrows (SparseMatrix.pattern_project projected).symm
  rw [Bool.bne_false, rows] at answered
  obtain ⟨fits, shape, invertible, solves⟩ := BuiltIn.answer_solves created general factored answered
  have system := Solve.system_of_project projected
  rw [← rows] at fits invertible solves
  obtain ⟨_, checked, -⟩ := Outcome.map_eq_ok.mp projected
  have matrix : a.shape = (op.pattern.nrows, op.pattern.nrows) :=
    (Sweep.checkShape_eq_ok.mp checked).trans (Prod.ext rfl square)
  refine ⟨⟨matrix, fits, shape, fun c inside => system ▸ solves c inside⟩, fun some => ?_⟩
  rw [system]
  split
  · rw [det_transpose]
    exact invertible some
  · exact invertible some

/-! ### Operations -/

namespace Solve

variable {ω : Type} {op : Solve} {s : Store α (BuiltIn α) ω} {a b x y : DenseMatrix α}

/-- The cell of the operation was made for its pattern and has a backend for any invertible matrix. -/
def General (op : Solve) (s : Store α (BuiltIn α) ω) : Prop :=
  ∃ plugin, plugin ≠ "cholesky" ∧ s.made op.cell = some (op.pattern, plugin)

omit [RootScalar α] [LinearOrder α] in
/-- Cells are made for square patterns, with a backend of a known kind. -/
theorem General.created (faithful : s.Faithful) (general : op.General s) :
    op.pattern.ncols = op.pattern.nrows ∧ ∃ plugin b, plugin ≠ "cholesky" ∧
      s.made op.cell = some (op.pattern, plugin) ∧
      (Catalogue.builtIn id).create plugin (.default : Options α) = .ok b := by
  obtain ⟨plugin, direct, made⟩ := general
  obtain ⟨c, held, same⟩ := Option.map_eq_some_iff.mp made
  obtain ⟨pattern, rfl⟩ := Prod.mk.inj same
  obtain ⟨b, created, sound⟩ := faithful c (Array.mem_of_getElem? held)
  exact ⟨pattern ▸ sound.square, c.solver.plugin, b, direct, made, created⟩

/-- What a solve operation answers in any store of a session is the solution of its system. -/
theorem solveWith_solution (faithful : s.Faithful) (general : op.General s) {rhs : DenseMatrix α}
    (answered : (op.solveWith a rhs false s).1 = .ok x) :
    op.Solution a rhs x ∧ (0 < rhs.ncols → (op.system a).det ≠ 0) := by
  obtain ⟨square, plugin, b, direct, made, created⟩ := general.created faithful
  rw [(solveWith_eq (.refl faithful) made created a rhs false).1] at answered
  exact answer_solution created direct square answered

theorem evaluate_solution (faithful : s.Faithful) (general : op.General s)
    {xs : List (DenseMatrix α)} (evaluated : (op.evaluate xs s).1 = .ok y) :
    ∃ a b, xs = [a, b] ∧ op.Solution a b y ∧ (0 < b.ncols → (op.system a).det ≠ 0) := by
  obtain ⟨_, arity, evaluated⟩ := Run.ok_of_bind evaluated
  obtain ⟨a, b, rfl⟩ := eq_two_of_length (checkArity_eq_ok.mp arity)
  exact ⟨a, b, rfl, solveWith_solution faithful general evaluated⟩

/-! ### Forward sensitivities -/

/-- The sensitivity of a solution: it solves the system for what the sensitivity of the right-hand
side has left when the product with that of the operand is taken off. -/
structure Linearized (op : Solve) (a y da db dy : DenseMatrix α) : Prop where
  shape : dy.shape = y.shape
  solves : ∀ c < y.ncols, op.system a *ᵥ dy.columnVec _ c =
    db.columnVec _ c - op.system da *ᵥ y.columnVec _ c

omit [RootScalar α] [LinearOrder α] in
/-- Columns of a common solution are the sensitivity of the direction whose columns they solve. -/
theorem Linearized.of_colBlock {rhs da db dy : DenseMatrix α} (solution : op.Solution a rhs x)
    (rows : y.nrows = op.pattern.nrows) {start : Nat} (within : start + y.ncols ≤ rhs.ncols)
    (part : x.colBlock start y.ncols = .ok dy) (right : ∀ c < y.ncols, rhs.columnVec _ (start + c) =
      db.columnVec _ c - op.system da *ᵥ y.columnVec _ c) : op.Linearized a y da db dy := by
  obtain ⟨fits, taken⟩ := DenseMatrix.entry_colBlock part
  have order : x.nrows = op.pattern.nrows := (congrArg Prod.fst solution.shape).trans solution.rows
  refine ⟨fits.trans (Prod.ext (order.trans rows.symm) rfl), fun c inside => ?_⟩
  calc op.system a *ᵥ dy.columnVec _ c
      = op.system a *ᵥ x.columnVec _ (start + c) := congrArg _ (funext fun i =>
        taken i (i.isLt.trans_eq order.symm) c inside)
    _ = rhs.columnVec _ (start + c) := solution.solves _ (by omega)
    _ = _ := right c inside

/-- All directions of a batch have their sensitivities from one solve. -/
theorem forwardBatch_linearized (faithful : s.Faithful) (general : op.General s)
    (rows : y.nrows = op.pattern.nrows)
    {seeds : List (List (DenseMatrix α))} {row : List (DenseMatrix α)}
    (fits : ∀ seed ∈ seeds, ∃ da db, seed = [da, db] ∧ db.shape = y.shape)
    (answered : (op.forwardBatch [a, b] y seeds s).1 = .ok row) :
    List.Forall₂ (fun seed dy => ∀ da db, seed = [da, db] → op.Linearized a y da db dy) seeds row := by
  have square := (general.created faithful).1
  obtain ⟨_, -, answered⟩ := Run.ok_of_bind answered
  by_cases nothing : seeds.isEmpty = true
  · rw [if_pos nothing] at answered
    cases answered
    rw [List.isEmpty_iff.mp nothing]
    exact .nil
  rw [if_neg nothing] at answered
  obtain ⟨blocks, computed, answered⟩ := Run.ok_of_bind answered
  obtain ⟨rhs, joined, answered⟩ := Run.ok_of_bind answered
  obtain ⟨a', same, answered⟩ := Run.ok_of_bind answered
  cases same
  obtain ⟨x, solved, answered⟩ := Run.ok_of_bind answered
  have each := Outcome.mapM_eq_ok.mp computed
  have parts := Outcome.mapM_eq_ok.mp answered
  obtain ⟨solution, -⟩ := solveWith_solution faithful general solved
  have shapes : ∀ block ∈ blocks, block.shape = (op.pattern.nrows, y.ncols) := by
    intro block member
    obtain ⟨seed, along, found⟩ := Outcome.exists_of_forall₂ each.flip member
    obtain ⟨da, db, rfl, shape⟩ := fits seed along
    exact (direction_columns square rows shape found).1.trans (Prod.ext rows rfl)
  have more : blocks ≠ [] := by
    rintro rfl
    exact nothing (List.isEmpty_iff.mpr (List.eq_nil_of_length_eq_zero each.length_eq))
  obtain ⟨whole, held⟩ := DenseMatrix.entry_hcat more shapes joined
  refine List.forall₂_iff_get.mpr ⟨by simpa using parts.length_eq, ?_⟩
  rintro d few few' da db here
  obtain ⟨block, at_d, found⟩ :=
    Outcome.exists_at_of_forall₂ each (List.getElem?_eq_getElem few)
  have few₁ : d < blocks.length := each.length_eq ▸ few
  have part := parts.get (by simpa using few) few'
  simp only [List.get_eq_getElem, List.getElem_range] at part here ⊢
  obtain ⟨da', db', here', shape⟩ := fits _ (List.getElem_mem few)
  cases here.symm.trans here'
  rw [here] at found
  obtain ⟨-, right⟩ := direction_columns square rows shape found
  have within : d * y.ncols + y.ncols ≤ rhs.ncols := by
    rw [(Prod.mk.inj whole).2, ← Nat.succ_mul]
    exact Nat.mul_le_mul_right _ few₁
  refine .of_colBlock solution rows within part fun c inside => ?_
  rw [← right c inside]
  exact funext fun i => held d block at_d i i.isLt c inside

end Solve

/-! ### Systems of one equation -/

section Scalar

omit [LinearOrder α] [RootScalar α] in
/-- On an accepted pattern the factorization decides. -/
theorem DenseLU.factored_eq {m : SparseMatrix α}
    (accepted : (Staged.symbolic m.pattern (.new .default : Staged α (DenseLU α))).1 = .ok ()) :
    (BuiltIn.denseLU (.new .default)).factored m = match factorize .default m with
      | .ok f => .ok (.denseLU ⟨.default, some m.nrows, some f⟩)
      | .error e => .error (e.atStage .numeric) := by
  have square := (Staged.symbolic_eq_ok.mp accepted).1
  have analysed : Staged.symbolic m.pattern (.new .default : Staged α (DenseLU α)) =
      (.ok (), ⟨.default, some m.nrows, none⟩) := Prod.ext accepted (Staged.state_symbolic accepted)
  have decided := Staged.numeric_eq factorize (a := m) (s := ⟨.default, some m.nrows, none⟩) rfl square
  simp only [BuiltIn.factored, BuiltIn.symbolic, BuiltIn.numeric, BuiltIn.step, analysed, decided]
  cases factorize .default m <;> rfl

variable {x : α} (nonzero : x ≠ 0)

include nonzero

/-- A matrix of one entry is accepted if that is not zero. -/
theorem DenseLU.exists_factored_scalar :
    ∃ f, factorize .default (⟨.dense 1 1, #[x], rfl⟩ : SparseMatrix α) = .ok f ∧
      (BuiltIn.denseLU (.new .default)).factored ⟨.dense 1 1, #[x], rfl⟩ =
        .ok (.denseLU ⟨.default, some 1, some f⟩) := by
  let m : SparseMatrix α := ⟨.dense 1 1, #[x], rfl⟩
  have entry : m.toDense.entry 0 0 = x := SparseMatrix.entry_toDense Nat.one_pos Nat.one_pos
  have low : Factor.pivotTolerance (Options.default : Options α).pivotThreshold m.values < |x| := by
    have bounded : Scalar.maxAbs m.values.toList ≤ |x| := maxAbs_le (abs_nonneg x) (by simp [m])
    refine (mul_le_mul_of_nonneg_left bounded Options.default_nonneg.1).trans_lt ?_
    refine mul_lt_of_lt_one_left (abs_pos.mpr nonzero) ?_
    rw [Options.default]
    norm_num
  have roomy : (Pattern.dense 1 1).Roomy := by decide
  obtain ⟨f, done⟩ : ∃ f, factorize .default m = .ok f := by
    rw [factorize_of_roomy roomy]
    rcases eliminate_outcome (f := ⟨m.toDense, Array.range 1⟩) rfl Nat.one_pos
      (pivotTolerance_nonneg Options.default_nonneg.1 m.values) with ⟨-, t, turn, -⟩ | ⟨small, -⟩
    · refine ⟨t, ?_⟩
      change (List.range 1).foldlM _ _ = _
      rw [List.range_one, List.foldlM_cons]
      exact (congrArg (· >>= _) turn).trans rfl
    · have largest := (abs_le_best _ le_rfl Nat.one_pos).trans small
      exact absurd (entry ▸ largest) (not_le.mpr low)
  have full : (Pattern.dense 1 1).ncols = 1 ∧ 2 * 1 < wordLimit ∧
      1 ≤ (Pattern.dense 1 1).structuralRank := by
    decide +kernel
  exact ⟨f, done, by rw [factored_eq (Staged.symbolic_eq_ok.mpr full), done]; rfl⟩

/-- So a system of one equation has an answer if its operand is not zero. -/
theorem Solve.exists_solved_scalar {ω : Type} {s : Store α (BuiltIn α) ω} {cell : Nat}
    (faithful : s.Faithful) (made : s.made cell = some (.dense 1 1, "lu")) {rhs : DenseMatrix α}
    (rows : rhs.nrows = 1) :
    ∃ y, (solveWith ⟨cell, .dense 1 1, false⟩ (.scalar x) rhs false s).1 = .ok y ∧
      y.shape = rhs.shape := by
  obtain ⟨f, done, factored⟩ := DenseLU.exists_factored_scalar nonzero
  have solves := DenseLU.solves_of_factorize rfl rfl Options.default_nonneg.1 done
  obtain ⟨y, answered, shape, -⟩ := BuiltIn.answer_of_solves
    (b := .denseLU ⟨.default, some 1, some f⟩) solves rows false
  have created : (Catalogue.builtIn id).create "lu" (.default : Options α) =
      .ok (.denseLU (.new .default)) := rfl
  have projected : SparseMatrix.project (.scalar x) (.dense 1 1) =
      .ok ⟨.dense 1 1, #[x], rfl⟩ := rfl
  refine ⟨y, ?_, shape⟩
  rw [(solveWith_eq (.refl faithful) made created _ rhs false).1, answer, projected, Outcome.ok_bind,
    factored, Outcome.ok_bind]
  exact answered

end Scalar

end Field

end Cotangent
