import Mathlib
import Cotangent.Proofs.DenseFactors
import Cotangent.Solver.BuiltIn

/-! The dense LU backend in exact arithmetic. A step brings the largest entry that is left of its
column to the diagonal, so no multiplier exceeds one in magnitude, also when later steps move its row.
A step that finds no pivot has shown, if the threshold is zero, that its column depends on the columns
before it, so exactly the values of singular matrices are rejected. -/
namespace Cotangent

open Matrix

namespace DenseLU

open Triangular Factor

variable {α : Type} [FieldScalar α] [LinearOrder α] [OrderedScalar α] {n k p : Nat} {f t : DenseLU α}
  {tolerance : α} {π : Equiv.Perm (Fin n)} {m : SparseMatrix α}

/-! ## One step -/

/-- Every multiplier of the first `k` columns is at most one in magnitude. -/
def Small (f : DenseLU α) (n k : Nat) : Prop := ∀ j < k, ∀ i < n, j < i → |f.packed.entry i j| ≤ 1

omit [OrderedScalar α] in
/-- Multipliers move with their rows, and a new one is a quotient by the largest entry. -/
theorem Small.extend [IsStrictOrderedRing α] (small : f.Small n k) (below : k < n)
    (step : Eliminates f t n k p)
    (largest : ∀ i, k ≤ i → i < n → |f.packed.entry i k| ≤ |f.packed.entry p k|) :
    t.Small n (k + 1) := by
  intro j reached i hi under
  have within : exchange k p i < n := by
    have below_n := step.below_n
    unfold exchange
    split
    · exact below_n
    · split <;> omega
  rcases Nat.lt_succ_iff_lt_or_eq.mp reached with earlier | rfl
  · rw [step.moved i hi j (earlier.trans below) (.inr earlier)]
    refine small j earlier _ within ?_
    by_cases above : i < k
    · rwa [step.exchange_of_lt above]
    · exact earlier.trans_le (step.le_exchange_iff.mpr (not_lt.mp above))
  · rw [step.multiplier i hi under, abs_div]
    exact div_le_one_of_le₀ (largest _ (step.le_exchange_iff.mpr under.le) within) (abs_nonneg _)

/-- The row of the largest entry that is left of a column, and its magnitude. -/
def best (f : DenseLU α) (n k : Nat) : Nat × α :=
  firstMax (fun i => Scalar.abs (f.packed.entry i k)) k n

theorem best_mem (f : DenseLU α) (below : k < n) : k ≤ (f.best n k).1 ∧ (f.best n k).1 < n ∧
    (f.best n k).2 = |f.packed.entry (f.best n k).1 k| := by
  rw [← OrderedScalar.abs_eq]
  exact firstMax_mem (fun i => Scalar.abs (f.packed.entry i k)) below

theorem abs_le_best (f : DenseLU α) {i : Nat} (later : k ≤ i) (hi : i < n) :
    |f.packed.entry i k| ≤ (f.best n k).2 := by
  rw [← OrderedScalar.abs_eq]
  exact le_firstMax (fun i => Scalar.abs (f.packed.entry i k)) later hi

/-- A step eliminates below the best row, unless its entry is too small. -/
theorem eliminate_outcome (order : f.order = n) (below : k < n) (nonneg : 0 ≤ tolerance) :
    (tolerance < (f.best n k).2 ∧
      ∃ t, f.eliminate tolerance k = .ok t ∧ Eliminates f t n k (f.best n k).1) ∨
    ((f.best n k).2 ≤ tolerance ∧ f.eliminate tolerance k =
      .error (.factorization .numeric (.zeroPivot k (Scalar.scientific (f.best n k).2)))) := by
  obtain ⟨from_k, below_n, magnitude⟩ := f.best_mem below
  have chosen : firstMax (fun i => Scalar.abs (f.packed.entry i k)) k n = f.best n k := rfl
  unfold eliminate
  rw [order]
  dsimp only
  rw [chosen]
  generalize f.best n k = best at from_k below_n magnitude ⊢
  split
  · next small => exact .inr ⟨(OrderedScalar.le_iff _ _).mp small, rfl⟩
  · next large =>
    rw [OrderedScalar.le_iff, not_le] at large
    have nonzero := abs_pos.mp (magnitude ▸ nonneg.trans_lt large)
    have there (p : Nat) : exchange k p k = p := if_pos rfl
    refine .inl ⟨large, _, rfl, from_k, below_n, rfl, rfl, nonzero, ?_, ?_, ?_⟩
    · intro i hi j hj kept
      rw [DenseMatrix.entry_ofFn hi hj, if_pos kept]
    · intro i hi under
      have changed : ¬ (i ≤ k ∨ k < k) := by omega
      rw [DenseMatrix.entry_ofFn hi below, if_neg changed, if_pos rfl, getD_ofFn hi, there]
    · intro i hi j hj under later
      have changed : ¬ (i ≤ k ∨ j < k) := by omega
      have changed' : ¬ (i ≤ k ∨ k < k) := by omega
      rw [DenseMatrix.entry_ofFn hi hj, if_neg changed, if_neg later.ne',
        DenseMatrix.entry_ofFn hi below, if_neg changed', if_pos rfl, getD_ofFn hi]
      split
      · next zero =>
        rw [there, isZero_iff] at zero
        rw [zero, mul_zero, sub_zero]
      · rw [there]

/-- So the entries that are left are at most as large as the pivot, or too small themselves. -/
theorem eliminate_cases (order : f.order = n) (below : k < n) (nonneg : 0 ≤ tolerance) :
    (∃ t, f.eliminate tolerance k = .ok t ∧ ∃ p, Eliminates f t n k p ∧
      ∀ i, k ≤ i → i < n → |f.packed.entry i k| ≤ |f.packed.entry p k|) ∨
    ∃ e, f.eliminate tolerance k = .error e ∧
      ∀ i, k ≤ i → i < n → |f.packed.entry i k| ≤ tolerance := by
  rcases eliminate_outcome order below nonneg with ⟨-, t, turn, step⟩ | ⟨small, turn⟩
  · exact .inl ⟨t, turn, _, step, fun i later hi =>
      (f.abs_le_best later hi).trans_eq (f.best_mem below).2.2⟩
  · exact .inr ⟨_, turn, fun i later hi => (f.abs_le_best later hi).trans small⟩

/-! ## All steps -/

omit [LinearOrder α] [OrderedScalar α] in
/-- When nothing is left of a column, it depends on the columns before it. -/
theorem Reduces.dependent (reduces : f.Reduces m.entry k π) (below : k < n)
    (vanish : ∀ i, k ≤ i → i < n → f.packed.entry i k = 0) : SparseLU.Dependent m n := by
  refine ⟨k, below, fun i j => if h : i < n then lowerEntry f.packed.entry (π.symm ⟨i, h⟩) j else 0,
    upperEntry f.packed.entry, fun k' reached i inside => ?_⟩
  have known := reduces.product (π.symm ⟨i, inside⟩) ⟨k', reached.trans_lt below⟩
  have nothing : (if k ≤ (π.symm ⟨i, inside⟩ : Nat) ∧ k ≤ k' then
      f.packed.entry (π.symm ⟨i, inside⟩) k' else 0) = 0 := by
    split
    · next left =>
      obtain rfl := le_antisymm reached left.2
      exact vanish _ left.1 (π.symm ⟨i, inside⟩).isLt
    · rfl
  rw [Equiv.apply_symm_apply, nothing, add_zero] at known
  simpa only [dif_pos inside] using known

/-- Where there is room, a factorization has exact factors, or a column depends on the columns before
it. -/
theorem factorize_cases {options : Options α} (roomy : m.pattern.Roomy) (rows : m.nrows = n)
    (columns : m.ncols = n) (nonneg : 0 ≤ options.pivotThreshold) :
    (∃ f, ∃ π : Equiv.Perm (Fin n), factorize options m = .ok f ∧ f.Reduces m.entry n π ∧
      f.Small n n) ∨
    (∃ e, factorize options m = .error e) ∧
      (options.pivotThreshold = 0 → SparseLU.Dependent m n) := by
  have start : ∃ π : Equiv.Perm (Fin n),
      (⟨m.toDense, Array.range n⟩ : DenseLU α).Reduces m.entry 0 π := by
    refine ⟨1, Prod.ext rows columns, lists_range n, fun i j => ?_, fun m none => by omega⟩
    simp only [Finset.range_zero, Finset.sum_empty, zero_add, Nat.zero_le, and_self, if_true]
    exact (SparseMatrix.entry_toDense (rows ▸ i.isLt) (columns ▸ j.isLt)).symm
  have run := Outcome.foldlM_range_cases (n := n)
    (f := eliminate (pivotTolerance options.pivotThreshold m.values))
    (P := fun k f => (∃ π : Equiv.Perm (Fin n), f.Reduces m.entry k π) ∧ f.Small n k)
    (Q := fun _ => options.pivotThreshold = 0 → SparseLU.Dependent m n)
    ⟨start, fun j none => by omega⟩ fun k below f ⟨⟨π, reduces⟩, small⟩ => ?_
  · rw [factorize_of_roomy roomy, rows]
    rcases run with ⟨f, done, ⟨π, reduces⟩, small⟩ | ⟨e, failed, dependent⟩
    · exact .inl ⟨f, π, done, reduces, small⟩
    · exact .inr ⟨⟨e, failed⟩, dependent⟩
  · rcases eliminate_cases (congrArg Prod.fst reduces.shape) below
      (pivotTolerance_nonneg nonneg m.values) with ⟨t, turn, p, step, largest⟩ | ⟨e, turn, least⟩
    · exact .inl ⟨t, turn, ⟨_, reduces.extend below step⟩, small.extend below step largest⟩
    · refine .inr ⟨e, turn, fun zero => reduces.dependent below fun i later hi => ?_⟩
      have none : pivotTolerance options.pivotThreshold m.values = 0 := by
        rw [pivotTolerance, zero, zero_mul]
      exact abs_nonpos_iff.mp (none ▸ least i later hi)

/-- A factorization solves. -/
theorem solves_of_factorize {options : Options α} (rows : m.nrows = n) (columns : m.ncols = n)
    (nonneg : 0 ≤ options.pivotThreshold) (done : factorize options m = .ok f) :
    Factor.Solves (m.matrix n) fun nrhs transposed rhs => f.solve nrhs transposed rhs := by
  rcases factorize_cases (roomy_of_factorize done) rows columns nonneg with
    ⟨f', π, done', reduces, -⟩ | ⟨⟨e, failed⟩, -⟩
  · cases done.symm.trans done'
    exact reduces.solves
  · cases done.symm.trans failed

/-- Dense LU is exact in an ordered field. After an accepted analysis, values that are accepted give a
permutation of the rows and one array of factors: row `π k` of the matrix is row `k` of the product of
what is below the diagonal, with ones on it, and what is on and above the diagonal. Multipliers are at
most one in magnitude, and the solver finds the only solution of both systems for every column of a
right-hand side. With threshold zero, exactly the values of invertible matrices are accepted, as long as
there is room for a dense matrix on the pattern. -/
theorem packed_numeric_exact {p : Pattern} {s t t' : Staged α (DenseLU α)} {values : Array α}
    {outcome : Except Error Unit} (nonneg : 0 ≤ s.options.pivotThreshold)
    (analysed : Staged.symbolic p s = (.ok (), t))
    (ran : Staged.numeric factorize p values t = (outcome, t')) :
    p.ncols = p.nrows ∧
    (outcome = .ok () → ∃ a : SparseMatrix α, a.pattern = p ∧ a.values = values ∧
      ∃ f, t'.factors = some f ∧
        (∃ π : Equiv.Perm (Fin p.nrows), Lists f.perm π ∧ (a.matrix p.nrows).submatrix π id =
          unitLower p.nrows f.packed.entry * upper p.nrows f.packed.entry) ∧
        (∀ j i, j < i → i < p.nrows → |f.packed.entry i j| ≤ 1) ∧
        Factor.Solves (a.matrix p.nrows) fun nrhs transposed rhs =>
          (BuiltIn.denseLU t').solve nrhs transposed rhs) ∧
    (s.options.pivotThreshold = 0 → (outcome = .ok () ↔ p.Roomy ∧
      ∃ a : SparseMatrix α, a.pattern = p ∧ a.values = values ∧ (a.matrix p.nrows).det ≠ 0)) := by
  obtain ⟨square, succeeds, reached⟩ := Staged.outcome_numeric analysed ran
  refine ⟨square, fun succeeded => ?_, fun zero => succeeds.trans ⟨?_, ?_⟩⟩
  · obtain ⟨a, rfl, rfl, f, done⟩ := succeeds.mp succeeded
    obtain rfl := reached a f rfl rfl done
    rcases factorize_cases (roomy_of_factorize done) rfl square nonneg with
      ⟨f', π, done', reduces, small⟩ | ⟨⟨e, failed⟩, -⟩
    · cases done.symm.trans done'
      have permuted := reduces.permuted
      rw [PEquiv.toMatrix_toPEquiv_mul] at permuted
      exact ⟨a, rfl, rfl, f, rfl, ⟨π, reduces.lists, permuted⟩,
        fun j i under hi => small j (under.trans hi) i hi under, reduces.solves⟩
    · cases done.symm.trans failed
  · rintro ⟨a, rfl, rfl, f, done⟩
    have roomy := roomy_of_factorize done
    rcases factorize_cases roomy rfl square nonneg with ⟨f', π, -, reduces, -⟩ | ⟨⟨e, failed⟩, -⟩
    · exact ⟨roomy, a, rfl, rfl, reduces.det_ne_zero⟩
    · cases done.symm.trans failed
  · rintro ⟨roomy, a, rfl, rfl, invertible⟩
    rcases factorize_cases roomy rfl square nonneg with ⟨f, π, done, -⟩ | ⟨-, dependent⟩
    · exact ⟨a, rfl, rfl, f, done⟩
    · exact absurd (dependent zero).det_eq_zero invertible

/-- The matrix `[[0, 2], [3, 4]]`, whose rows have to be exchanged, is accepted, and the system with
right-hand side `(4, 11)` has the solution `(1, 2)`. -/
theorem packed_numeric_exact_two :
    let s : Staged Rat (DenseLU Rat) := .new ⟨0, 0⟩
    let t := (Staged.symbolic (.dense 2 2) s).2
    let t' := (Staged.numeric factorize (.dense 2 2) #[0, 3, 2, 4] t).2
    Staged.symbolic (.dense 2 2) s = (.ok (), t) ∧
      ∃ x, (BuiltIn.denseLU t').solve 1 false #v[4, 11] = .ok x ∧
        columnOf 2 0 x.toArray = ![1, 2] := by
  intro s t t'
  have analysed : Staged.symbolic (.dense 2 2) s = (.ok (), t) := Staged.symbolic_dense_two s
  have ran : Staged.numeric factorize (.dense 2 2) #[0, 3, 2, 4] t =
      ((Staged.numeric factorize (.dense 2 2) #[0, 3, 2, 4] t).1, t') := rfl
  obtain ⟨-, accepted, decided⟩ := packed_numeric_exact (le_refl (0 : Rat)) analysed ran
  let a : SparseMatrix Rat := ⟨.dense 2 2, #[0, 3, 2, 4], rfl⟩
  have matrix : a.matrix 2 = !![0, 2; 3, 4] := by
    ext i j
    fin_cases i <;> fin_cases j <;> rfl
  have invertible : (a.matrix 2).det ≠ 0 := by
    rw [matrix, det_fin_two_of]
    norm_num
  obtain ⟨a', pattern, values, f, -, -, -, solves⟩ :=
    accepted ((decided rfl).mpr ⟨by decide, a, rfl, rfl, invertible⟩)
  obtain rfl : a' = a := SparseMatrix.eq_of_values pattern values
  obtain ⟨x, solved, unique⟩ := solves 2 1 false #v[4, 11] rfl
  refine ⟨analysed, x, solved, ((unique 0 Nat.one_pos ![1, 2]).mp ?_).symm⟩
  change (a.matrix 2).mulVec ![1, 2] = columnOf 2 0 #[4, 11]
  rw [matrix]
  ext i
  fin_cases i <;> norm_num [columnOf, mulVec, dotProduct]

end DenseLU

end Cotangent
