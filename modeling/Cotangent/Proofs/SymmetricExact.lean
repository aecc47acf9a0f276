import Cotangent.Proofs.Entries
import Cotangent.Proofs.RealScalar
import Cotangent.Proofs.SparseExact
import Cotangent.Proofs.SymmetricFactors
import Cotangent.Solver.BuiltIn

/-! The Cholesky backend in exact arithmetic. The rows are finished one after another; a run that ends
gives a factor and solves, and a run that is cut short by a row has shown, if the threshold is zero,
that the symmetric matrix is not positive definite. -/
namespace Cotangent.Cholesky

open Matrix Pattern

/-! ## Solves -/

section Solves

variable {α : Type} [FieldScalar α] {p : Pattern} {a : Analysis} {l : SparseMatrix α} {n : Nat}

/-- A column of the factor starts with the diagonal entry. -/
theorem exists_col (fills : a.Fills p) (pattern : l.pattern = a.lower) {j : Nat}
    (inside : j < p.nrows) : ∃ below, l.col j = (j, l.entry j j) :: below ∧
      ∀ cell ∈ below, j < cell.1 ∧ cell.1 < p.nrows := by
  obtain ⟨d, below, column, after⟩ := exists_col_cons fills pattern inside
  have vacant : coefficient below j = 0 :=
    coefficient_of_forall_ne fun c member => Nat.ne_of_gt (after c member).1
  have value := l.coefficient_col j j
  rw [column, coefficient_cons, if_pos rfl, vacant, add_zero] at value
  exact ⟨below, by rw [column, ← value], after⟩

/-- The turn of the loop of a solve with `L`: the entry is divided, then the column is taken off. -/
def takeColumn (l : SparseMatrix α) (x : Array α) (j : Nat) : Array α :=
  match l.col j with
  | [] => x
  | (_, d) :: below =>
    let xj := x.getD j 0 / d
    below.foldl (fun x (i, v) => x.modify i (· - v * xj)) (x.setIfInBounds j xj)

theorem solveLower_eq (l : SparseMatrix α) (b : Array α) :
    solveLower l b = (List.range l.ncols).foldl (takeColumn l) b :=
  rfl

/-- A row that is given with its diagonal apart, against a vector. -/
theorem dotProduct_entriesOf {n : Nat} {row : Fin n → α} {d : α} {others : Nat → α} {i : Fin n}
    {x : Array α} (split : ∀ j, row j = (if i = j then d else 0) + others j) :
    row ⬝ᵥ entriesOf n x = d * x.getD i 0 + ∑ j ∈ Finset.range n, others j * x.getD j 0 := by
  simp only [dotProduct, split, add_mul, ite_mul, zero_mul, Finset.sum_add_distrib,
    Finset.sum_ite_eq, Finset.mem_univ, if_true, Finset.sum_range]
  rfl

variable (fills : a.Fills p) (pattern : l.pattern = a.lower)

include fills pattern

theorem entry_eq {i j : Nat} (inside : j < p.nrows) : l.entry i j =
    (if i = j then l.entry j j else 0) + coefficient (l.col j).tail i := by
  obtain ⟨below, column, -⟩ := exists_col fills pattern inside
  rw [← l.coefficient_col i j, column, coefficient_cons, List.tail_cons]
  simp only [eq_comm]

theorem matrix_mulVec (x : Array α) (i : Fin p.nrows) :
    (l.matrix p.nrows *ᵥ entriesOf p.nrows x) i = l.entry i i * x.getD i 0 +
      ∑ j ∈ Finset.range p.nrows, coefficient (l.col j).tail i * x.getD j 0 := by
  refine dotProduct_entriesOf fun j => ?_
  rw [SparseMatrix.matrix, of_apply, entry_eq fills pattern j.isLt]
  by_cases same : i = j
  · simp [same]
  · simp [same, Fin.val_inj]

theorem transpose_matrix_mulVec (x : Array α) (j : Fin p.nrows) :
    ((l.matrix p.nrows)ᵀ *ᵥ entriesOf p.nrows x) j = l.entry j j * x.getD j 0 +
      ∑ i ∈ Finset.range p.nrows, coefficient (l.col j).tail i * x.getD i 0 := by
  refine dotProduct_entriesOf fun i => ?_
  rw [transpose_apply, SparseMatrix.matrix, of_apply, entry_eq fills pattern j.isLt]
  simp only [Fin.val_inj, eq_comm]

theorem sweeps_takeColumn :
    Sweeps p.nrows (fun j => l.entry j j) (fun j => (l.col j).tail) (takeColumn l) := by
  intro c j size within
  obtain ⟨below, column, -⟩ := exists_col fills pattern within
  rw [takeColumn, column]
  refine ⟨(size_foldl fun c cell => Array.size_modify).trans (by simpa using size), fun i inside => ?_⟩
  rw [getD_foldl_modify _ _ (by simpa [size] using inside), getD_setIfInBounds (size.symm ▸ inside)]
  simp only [column, List.tail_cons]

/-- The loop over the columns resolves the system of `L`. -/
theorem resolves_solveLower {b : Array α} (size : b.size = p.nrows) :
    (solveLower l b).size = p.nrows ∧ Triangular.Resolves p.nrows (fun j => l.entry j j)
      (fun i j => coefficient (l.col j).tail i) (b.getD · 0) (solveLower l b) := by
  have columns : l.ncols = p.nrows := (congrArg Pattern.ncols pattern).trans fills.columns
  have after := tail_col_lt fills pattern
  have forwards : (List.range p.nrows).Pairwise fun i j => ∀ cell ∈ (l.col j).tail, cell.1 ≠ i :=
    List.pairwise_lt_range.imp fun less cell held => Nat.ne_of_gt (less.trans (after _ cell held).1)
  rw [solveLower_eq, columns]
  exact (sweeps_takeColumn fills pattern).resolves (.refl _)
    (fun j cell held => Nat.ne_of_gt (after j cell held).1) forwards size

/-- The entries from the last to the first resolve the system of `Lᵀ`. -/
theorem resolves_solveUpper (b : Array α) : Triangular.Resolves p.nrows (fun j => l.entry j j)
    (fun i j => coefficient (l.col i).tail j) (b.getD · 0) (solveUpper l b) := by
  have columns : l.ncols = p.nrows := (congrArg Pattern.ncols pattern).trans fills.columns
  rw [solveUpper_eq, columns]
  refine Triangular.resolves_of_cells fun j inside => ?_
  obtain ⟨done, here, later⟩ := Triangular.getD_descending (columnRule l (b.getD · 0)) inside
  obtain ⟨below, column, after⟩ := exists_col fills pattern inside
  refine ⟨done, by rw [here, columnRule, column, List.tail_cons], ?_⟩
  rw [column, List.tail_cons]
  exact fun cell held => ⟨(after cell held).2, later cell.1 (after cell held).2 (after cell held).1⟩

variable (nonzero : ∀ j < p.nrows, l.entry j j ≠ 0)

include nonzero

theorem matrix_mulVec_solveLower {b : Array α} (size : b.size = p.nrows) :
    l.matrix p.nrows *ᵥ entriesOf p.nrows (solveLower l b) = entriesOf p.nrows b := by
  funext i
  rw [matrix_mulVec fills pattern]
  exact ((resolves_solveLower fills pattern size).2.equation i.isLt (nonzero i i.isLt)).symm

theorem transpose_matrix_mulVec_solveUpper (b : Array α) :
    (l.matrix p.nrows)ᵀ *ᵥ entriesOf p.nrows (solveUpper l b) = entriesOf p.nrows b := by
  funext j
  rw [transpose_matrix_mulVec fills pattern]
  exact ((resolves_solveUpper fills pattern b).equation j.isLt (nonzero j j.isLt)).symm

end Solves

/-! ## The run -/

variable {α : Type} [FieldScalar α] [LinearOrder α] {p : Pattern} {a : Analysis}
  {m l : SparseMatrix α} {s : Partial α} {k : Nat} {tolerance : α}

/-- A factor solves the system of the symmetric matrix. -/
theorem Factorizes.solves [OrderedScalar α] (factorizes : Factorizes l a m) (fills : a.Fills m.pattern) :
    Factor.Solves (m.symmetric m.pattern.nrows) fun nrhs _ rhs =>
      Factor.eachColumn l.nrows nrhs (fun b => solveUpper l (solveLower l b)) rhs := by
  have rows : l.nrows = m.pattern.nrows := (congrArg Pattern.nrows factorizes.pattern).trans fills.rows
  have nonzero : ∀ j < m.pattern.nrows, l.entry j j ≠ 0 := fun j inside =>
    (factorizes.positive ⟨j, inside⟩).ne'
  have invertible : (m.symmetric m.pattern.nrows).det ≠ 0 := by
    rw [← factorizes.product, det_mul, det_transpose]
    exact mul_ne_zero factorizes.det_ne_zero factorizes.det_ne_zero
  have symmetric : (m.symmetric m.pattern.nrows)ᵀ = m.symmetric m.pattern.nrows := by
    rw [← factorizes.product, transpose_mul, Matrix.transpose_transpose]
  have correct (b : Array α) (size : b.size = m.pattern.nrows) :
      m.symmetric m.pattern.nrows *ᵥ entriesOf m.pattern.nrows (solveUpper l (solveLower l b)) =
        entriesOf m.pattern.nrows b := by
    rw [← factorizes.product, ← mulVec_mulVec,
      transpose_matrix_mulVec_solveUpper fills factorizes.pattern nonzero,
      matrix_mulVec_solveLower fills factorizes.pattern nonzero size]
  rw [rows]
  exact Factor.solves_eachColumn invertible (fun _ b => solveUpper l (solveLower l b)) correct
    fun b size => symmetric.symm ▸ correct b size

/-- A factor solves its own systems. -/
theorem Factorizes.solves_triangle [OrderedScalar α] (factorizes : Factorizes l a m)
    (fills : a.Fills m.pattern) :
    Factor.Solves (l.matrix m.pattern.nrows) fun nrhs transposed rhs =>
      Factor.eachColumn l.nrows nrhs (if transposed then solveUpper l else solveLower l) rhs := by
  have rows : l.nrows = m.pattern.nrows := (congrArg Pattern.nrows factorizes.pattern).trans fills.rows
  have nonzero : ∀ j < m.pattern.nrows, l.entry j j ≠ 0 := fun j inside =>
    (factorizes.positive ⟨j, inside⟩).ne'
  rw [rows]
  exact Factor.solves_eachColumn factorizes.det_ne_zero
    (fun transposed => if transposed then solveUpper l else solveLower l)
    (fun b size => matrix_mulVec_solveLower fills factorizes.pattern nonzero size)
    fun b _ => transpose_matrix_mulVec_solveUpper fills factorizes.pattern nonzero b

variable [RootScalar α]

/-- One more row, or a diagonal entry that is too small. -/
theorem post_factorRow (sound : s.Sound a m.pattern.nrows k) (factors : s.Factors a m k)
    (fills : a.Fills m.pattern) (inside : k < m.pattern.nrows) (nonneg : 0 ≤ tolerance) :
    Run.Post (factorRow a m.values tolerance k) s
      (fun _ t => t.Sound a m.pattern.nrows (k + 1) ∧ t.Factors a m (k + 1))
      fun _ _ => (s.reduced a m k).2 ≤ tolerance := by
  rcases factorRow_cases fills tolerance k s with ⟨large, ran⟩ | ⟨small, ran⟩
  · rw [Run.Post, ran]
    rw [← Bool.not_eq_true, OrderedScalar.le_iff, not_le] at large
    exact ⟨sound.closed fills inside, factors.closed sound fills inside (nonneg.trans_lt large)⟩
  · rw [OrderedScalar.le_iff] at small
    rcases result : factorRow a m.values tolerance k s with ⟨_ | _, t⟩
    · rw [Run.Post, result]
      exact small
    · rw [result] at ran
      cases ran

/-- A factorization is exact, or one of its rows has a diagonal entry that is too small. -/
theorem exact_or_small {options : Options α} {Q : Prop} (fills : a.Fills m.pattern)
    (nonneg : 0 ≤ options.pivotThreshold)
    (small : ∀ k < m.pattern.nrows, ∀ s : Partial α, s.Sound a m.pattern.nrows k → s.Factors a m k →
      (s.reduced a m k).2 ≤ Factor.pivotTolerance options.pivotThreshold m.values → Q) :
    (∃ l, factorize options a m.values = .ok l ∧ Factorizes l a m) ∨
      (∃ e, factorize options a m.values = .error e) ∧ Q := by
  have post : Run.Post ((List.range a.lower.ncols).forM
      (factorRow a m.values (Factor.pivotTolerance options.pivotThreshold m.values))) (Partial.start a)
      (fun _ t => t.Sound a m.pattern.nrows m.pattern.nrows ∧ t.Factors a m m.pattern.nrows)
      fun _ _ => Q := by
    refine Run.Post.forM
      (fun k t => t.Sound a m.pattern.nrows k ∧ t.Factors a m k) ?_ ?_ ?_
    · exact ⟨Partial.sound_start fills, ⟨fun r earlier => absurd earlier (Nat.not_lt_zero r),
        fun j earlier => absurd earlier (Nat.not_lt_zero j)⟩⟩
    · rintro k k' s at_k ⟨sound, factors⟩
      obtain ⟨inside, rfl⟩ := List.getElem?_eq_some_iff.mp at_k
      rw [List.length_range, fills.columns] at inside
      rw [List.getElem_range]
      exact (post_factorRow sound factors fills inside
        (pivotTolerance_nonneg nonneg m.values)).imp (fun _ _ => id) fun _ _ => small k inside s sound
          factors
    · intro t done
      rwa [List.length_range, fills.columns] at done
  unfold factorize
  rcases ran : (List.range a.lower.ncols).forM
    (factorRow a m.values (Factor.pivotTolerance options.pivotThreshold m.values))
    (Partial.start a) with ⟨e | _, t⟩
  · exact .inr ⟨⟨e, by simp only [ran]⟩, post.of_error ran⟩
  · obtain ⟨sound, factors⟩ := post.of_ok ran
    have size := sound.size_values
    refine .inl ⟨_, ?_, factors.factorizes fills size⟩
    simp only [ran, SparseMatrix.ofValues, size, dite_true]

/-- A factorization is exact, or the matrix is not definite. -/
theorem factorize_cases {options : Options α} (fills : a.Fills m.pattern)
    (nonneg : 0 ≤ options.pivotThreshold) :
    (∃ l, factorize options a m.values = .ok l ∧ Factorizes l a m) ∨
      (∃ e, factorize options a m.values = .error e) ∧
        (options.pivotThreshold = 0 → ¬ PositiveDefinite (m.symmetric m.pattern.nrows)) := by
  refine exact_or_small fills nonneg fun k inside s sound factors small zero definite => ?_
  rw [Factor.pivotTolerance, zero, zero_mul] at small
  exact absurd (factors.diagonal_pos sound fills inside definite) (not_lt.mpr small)

/-- A unit matrix has nothing to eliminate. -/
theorem reduced_one (sound : s.Sound a m.pattern.nrows k) (factors : s.Factors a m k)
    (fills : a.Fills m.pattern) (inside : k < m.pattern.nrows)
    (one : m.symmetric m.pattern.nrows = 1) : (s.reduced a m k).2 = 1 := by
  have pivots : ∀ j < k, s.entry a j j ≠ 0 := fun j before => (factors.pivots j before).ne'
  have given (r : Nat) (below : r ≤ k) : m.entry k r = if k = r then 1 else 0 := by
    have entry := congrFun (congrFun one ⟨k, inside⟩) ⟨r, below.trans_lt inside⟩
    simpa [SparseMatrix.symmetric, max_eq_left below, min_eq_right below, Matrix.one_apply] using entry
  obtain ⟨row, diagonal⟩ := sound.exact fills inside pivots
  have clear (r : Nat) : r < k → (s.reduced a m k).1.entry a k r = 0 := by
    induction r using Nat.strong_induction_on with
    | _ r ih =>
      intro before
      have share := row r before
      rw [given r before.le, if_neg before.ne', Finset.sum_eq_single r] at share
      · exact (mul_eq_zero.mp share.symm).resolve_left (pivots r before)
      · intro i within other
        rcases Nat.lt_or_gt_of_ne other with less | more
        · rw [ih i less (Finset.mem_range.mp within), mul_zero]
        · rw [Partial.entry_of_lt fills more, zero_mul]
      · exact fun missing => absurd (Finset.mem_range.mpr before) missing
  rw [given k le_rfl, if_pos rfl, Finset.sum_eq_zero, add_zero] at diagonal
  · exact diagonal.symm
  · intro i within
    rw [clear i (Finset.mem_range.mp within), zero_mul]

/-- A unit matrix is factorized if the threshold lets one pass. -/
theorem exists_factor_one {options : Options α} (fills : a.Fills m.pattern)
    (nonneg : 0 ≤ options.pivotThreshold) (one : m.symmetric m.pattern.nrows = 1)
    (low : Factor.pivotTolerance options.pivotThreshold m.values < 1) :
    ∃ l, factorize options a m.values = .ok l := by
  rcases exact_or_small (Q := False) fills nonneg fun k inside s sound factors small =>
    absurd (small.trans_lt low) (reduced_one sound factors fills inside one).not_lt with
    ⟨l, done, -⟩ | ⟨-, impossible⟩
  · exact ⟨l, done⟩
  · exact impossible.elim

/-- Sparse Cholesky is exact in an ordered field with square roots. Every square pattern with a full
diagonal is analysed. Values that are accepted give a factor with the predicted pattern, and the solver
finds the only solution of the symmetric system and of both triangular systems for every column of a
right-hand side. With threshold zero, exactly the positive definite matrices are accepted. -/
theorem symmetric_numeric_exact {s t : Cholesky α} {values : Array α} {outcome : Except Error Unit}
    (square : p.ncols = p.nrows) (full : p.hasFullDiagonal = true)
    (nonneg : 0 ≤ s.options.pivotThreshold)
    (ran : numeric p values (symbolic p s).2 = (outcome, t)) :
    (symbolic p s).1 = .ok () ∧
    (outcome = .ok () → ∃ m : SparseMatrix α, m.pattern = p ∧ m.values = values ∧
      ∃ l, t.triangle false = .ok l ∧
        (l.matrix p.nrows).IsLowerTriangular ∧ (∀ i, 0 < l.matrix p.nrows i i) ∧
        l.matrix p.nrows * (l.matrix p.nrows)ᵀ = m.symmetric p.nrows ∧
        (symbolic p s).2.trianglePattern false = .ok l.pattern ∧
        (∃ l', t.triangle true = .ok l' ∧ l'.matrix p.nrows = (l.matrix p.nrows)ᵀ) ∧
        (∀ transposed, t.trianglePattern transposed = (t.triangle transposed).map (·.pattern)) ∧
        (∀ transposed, Factor.Solves (m.symmetric p.nrows) fun nrhs _ rhs =>
          (BuiltIn.cholesky t).solve nrhs transposed rhs) ∧
        Factor.Solves (l.matrix p.nrows) fun nrhs transposed rhs =>
          t.solveTriangle nrhs transposed rhs) ∧
    (s.options.pivotThreshold = 0 → (outcome = .ok () ↔ ∃ m : SparseMatrix α,
      m.pattern = p ∧ m.values = values ∧ PositiveDefinite (m.symmetric p.nrows))) := by
  obtain ⟨a, analysed, fills⟩ := exists_analyse square full
  have state : symbolic p s = (.ok (), ⟨s.options, some a, none⟩) := by
    simp only [symbolic, analysed]
  rw [state] at ran ⊢
  have succeeds := numeric_eq_ok fills square s.options values
  rw [ran] at succeeds
  refine ⟨rfl, fun succeeded => ?_, fun zero => succeeds.trans ⟨?_, ?_⟩⟩
  · obtain ⟨m, rfl, rfl, l, done⟩ := succeeds.mp succeeded
    have reached := numeric_eq fills square s.options
    rw [ran, done] at reached
    cases reached
    rcases factorize_cases fills nonneg with ⟨l', done', factorizes⟩ | ⟨⟨e, failed⟩, -⟩
    · cases done.symm.trans done'
      refine ⟨m, rfl, rfl, l, rfl, factorizes.lower, factorizes.positive, factorizes.product,
        congrArg Except.ok factorizes.pattern.symm, ⟨l.transpose, rfl, ?_⟩, ?_,
        fun _ => factorizes.solves fills, factorizes.solves_triangle fills⟩
      · ext i j
        exact l.entry_transpose i j
      · intro transposed
        cases transposed
        · exact congrArg Except.ok factorizes.pattern.symm
        · exact congrArg (fun q => Except.ok (Pattern.transpose q)) factorizes.pattern.symm
    · cases done.symm.trans failed
  · rintro ⟨m, rfl, rfl, l, done⟩
    rcases factorize_cases fills nonneg with ⟨l', -, factorizes⟩ | ⟨⟨e, failed⟩, -⟩
    · exact ⟨m, rfl, rfl, factorizes.positiveDefinite⟩
    · cases done.symm.trans failed
  · rintro ⟨m, rfl, rfl, definite⟩
    rcases factorize_cases fills nonneg with ⟨l, done, -⟩ | ⟨-, indefinite⟩
    · exact ⟨m, rfl, rfl, l, done⟩
    · exact absurd definite (indefinite zero)

/-- Of the matrix `[[4, 7], [2, 5]]` the lower triangle is read. The symmetric system with right-hand
side `(8, 12)` has the solution `(1, 2)`. -/
theorem symmetric_numeric_exact_two :
    let s : Cholesky ℝ := .new ⟨0, 0⟩
    let t := (numeric (.dense 2 2) #[4, 2, 7, 5] (symbolic (.dense 2 2) s).2).2
    (Pattern.dense 2 2).hasFullDiagonal = true ∧
      ∃ x, (BuiltIn.cholesky t).solve 1 false #v[8, 12] = .ok x ∧
        columnOf 2 0 x.toArray = ![1, 2] := by
  intro s t
  have full : (Pattern.dense 2 2).hasFullDiagonal = true := by decide +kernel
  have ran : numeric (.dense 2 2) #[4, 2, 7, 5] (symbolic (.dense 2 2) s).2 =
      ((numeric (.dense 2 2) #[4, 2, 7, 5] (symbolic (.dense 2 2) s).2).1, t) := rfl
  obtain ⟨-, accepted, decided⟩ := symmetric_numeric_exact rfl full (le_refl (0 : ℝ)) ran
  let m : SparseMatrix ℝ := ⟨.dense 2 2, #[4, 2, 7, 5], rfl⟩
  have matrix : m.symmetric 2 = !![4, 2; 2, 5] := by
    ext i j
    fin_cases i <;> fin_cases j <;> rfl
  have definite : PositiveDefinite (m.symmetric 2) := by
    intro x nonzero
    have form : x ⬝ᵥ (m.symmetric 2 *ᵥ x) = (2 * x 0 + x 1) ^ 2 + (2 * x 1) ^ 2 := by
      rw [matrix]
      simp only [dotProduct, mulVec, Fin.sum_univ_two, of_apply, cons_val_zero, cons_val_one]
      ring
    rw [form]
    refine lt_of_le_of_ne (by positivity) fun zero => nonzero ?_
    have second : x 1 = 0 := by nlinarith [sq_nonneg (2 * x 0 + x 1), sq_nonneg (x 1)]
    have first : x 0 = 0 := by nlinarith [sq_nonneg (x 0)]
    ext i
    fin_cases i
    · exact first
    · exact second
  obtain ⟨m', pattern, values, l, -, -, -, -, -, -, -, solves, -⟩ :=
    accepted ((decided rfl).mpr ⟨m, rfl, rfl, definite⟩)
  obtain rfl : m' = m := SparseMatrix.eq_of_values pattern values
  obtain ⟨x, solved, unique⟩ := solves false 2 1 false #v[8, 12] rfl
  refine ⟨full, x, solved, ((unique 0 Nat.one_pos ![1, 2]).mp ?_).symm⟩
  change (m.symmetric 2).mulVec ![1, 2] = columnOf 2 0 #[8, 12]
  rw [matrix]
  ext i
  fin_cases i <;> norm_num [columnOf, mulVec, dotProduct]

end Cotangent.Cholesky
