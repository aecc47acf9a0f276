import Mathlib
import Cotangent.Proofs.LowerUpper
import Cotangent.Proofs.PivotRows
import Cotangent.Proofs.Stages
import Cotangent.Proofs.Systems

/-! Sparse LU is exact in exact arithmetic. When all columns are finished every row is a pivot row,
and in the order of their steps the rows of the matrix are those of the product of the factors. Both
solves go through the two triangular systems. If the tolerance is zero, a column without a pivot
depends on the columns before it, so exactly the singular matrices are rejected. -/
namespace Cotangent

open Matrix

/-! ## Permuted products -/

section Products

variable {α : Type} [FieldScalar α] {n : Nat} {a l u : Matrix (Fin n) (Fin n) α}
  {σ : Equiv.Perm (Fin n)} {b x y z v : Fin n → α}

theorem eq_submatrix (product : Equiv.Perm.permMatrix α σ.symm * a = l * u) :
    a = (l * u).submatrix σ id := by
  rw [← product, PEquiv.toMatrix_toPEquiv_mul, submatrix_submatrix]
  simp

/-- Two triangular systems one after the other. -/
theorem mulVec_of_product (product : Equiv.Perm.permMatrix α σ.symm * a = l * u)
    (lower : ∀ i, (l *ᵥ y) (σ i) = b i) (upper : u *ᵥ x = y) : a *ᵥ x = b := by
  rw [eq_submatrix product]
  ext i
  rw [← lower i, ← upper, mulVec_mulVec]
  rfl

/-- The transposed systems in the other order. -/
theorem transpose_mulVec_of_product (product : Equiv.Perm.permMatrix α σ.symm * a = l * u)
    (upper : uᵀ *ᵥ z = b) (lower : lᵀ *ᵥ v = z) : aᵀ *ᵥ (fun i => v (σ i)) = b := by
  rw [← upper, ← lower, mulVec_mulVec, ← transpose_mul, eq_submatrix product]
  ext j
  exact Equiv.sum_comp σ fun i => (l * u) i j * v i

theorem det_ne_zero_of_product (product : Equiv.Perm.permMatrix α σ.symm * a = l * u)
    (lower : l.IsLowerTriangular) (unit : ∀ i, l i i = 1) (upper : u.IsUpperTriangular)
    (pivots : ∀ i, u i i ≠ 0) : a.det ≠ 0 := by
  intro singular
  have both := congrArg Matrix.det product
  rw [det_mul, det_mul, singular, mul_zero, det_of_isLowerTriangular l lower,
    det_of_isUpperTriangular upper, Finset.prod_eq_one fun i _ => unit i, one_mul] at both
  exact Finset.prod_ne_zero_iff.mpr (fun i _ => pivots i) both.symm

end Products

section Matrices

variable {α : Type} [FieldScalar α]

/-- The entries of a sparse matrix. -/
def SparseMatrix.matrix (a : SparseMatrix α) (n : Nat) : Matrix (Fin n) (Fin n) α :=
  .of fun i j => a.entry i j

namespace SparseLU

/-- The factor `L`, with its rows in the order of the steps. -/
def lowerMatrix (f : SparseLU α) (n : Nat) : Matrix (Fin n) (Fin n) α :=
  1 + .of fun i j => coefficient (f.lowerSteps j) i

/-- The factor `U`. -/
def upperMatrix (f : SparseLU α) (n : Nat) : Matrix (Fin n) (Fin n) α :=
  .of (fun i j => coefficient (f.upper.getD j []) i) + .diagonal fun i => f.diagonal.getD i 0

/-- A column that depends on the columns before it makes the matrix singular. -/
theorem Dependent.det_eq_zero {a : SparseMatrix α} {n : Nat} (dependent : Dependent a n) :
    (a.matrix n).det = 0 := by
  obtain ⟨k, below, l, u, columns⟩ := dependent
  let wide : Matrix (Fin k) (Fin (k + 1)) α := .of fun j k' => u j k'
  have kernel : LinearMap.ker wide.mulVecLin ≠ ⊥ := LinearMap.ker_ne_bot_of_finrank_lt (by simp)
  obtain ⟨v, member, nonzero⟩ := Submodule.exists_mem_ne_zero_of_ne_bot kernel
  let w : Nat → α := fun k' => if h : k' < k + 1 then v ⟨k', h⟩ else 0
  have extended (k' : Fin (k + 1)) : w k' = v k' := dif_pos k'.isLt
  have rows (j : Nat) (inside : j < k) : ∑ k' ∈ Finset.range (k + 1), u j k' * w k' = 0 := by
    have row := congrFun (LinearMap.mem_ker.mp member) ⟨j, inside⟩
    simp only [Finset.sum_range, extended]
    exact row
  refine exists_mulVec_eq_zero_iff.mp ⟨fun i => w i, fun zero => nonzero ?_, funext fun i => ?_⟩
  · funext k'
    exact (extended k').symm.trans (congrFun zero ⟨k', by omega⟩)
  · have short : ∑ k' ∈ Finset.range n, a.entry i k' * w k' =
        ∑ k' ∈ Finset.range (k + 1), a.entry i k' * w k' := by
      refine (Finset.sum_subset (Finset.range_subset_range.mpr below) fun k' _ outside => ?_).symm
      simp only [w, dif_neg (Finset.mem_range.not.mp outside), mul_zero]
    have entries : ∀ k' ∈ Finset.range (k + 1),
        a.entry i k' * w k' = ∑ j ∈ Finset.range k, l i j * (u j k' * w k') := by
      intro k' within
      rw [columns k' (Nat.lt_succ_iff.mp (Finset.mem_range.mp within)) i i.isLt, Finset.sum_mul]
      simp only [mul_assoc]
    calc (a.matrix n *ᵥ fun i => w i) i
        = ∑ k' ∈ Finset.range n, a.entry i k' * w k' := by
          rw [Finset.sum_range]
          rfl
      _ = ∑ k' ∈ Finset.range (k + 1), ∑ j ∈ Finset.range k, l i j * (u j k' * w k') := by
          rw [short, Finset.sum_congr rfl entries]
      _ = ∑ j ∈ Finset.range k, l i j * ∑ k' ∈ Finset.range (k + 1), u j k' * w k' := by
          rw [Finset.sum_comm]
          simp only [Finset.mul_sum]
      _ = 0 := Finset.sum_eq_zero fun j within => by
          rw [rows j (Finset.mem_range.mp within), mul_zero]

/-! ## The finished factors -/

/-- The factors of a matrix of order `n`: row `i` is the pivot row of step `σ i`. -/
structure Factorizes (f : SparseLU α) {n : Nat} (a : Matrix (Fin n) (Fin n) α)
    (σ : Equiv.Perm (Fin n)) : Prop where
  steps : f.step = Array.ofFn fun i => (σ i).val
  product : Equiv.Perm.permMatrix α σ.symm * a = f.lowerMatrix n * f.upperMatrix n
  lower : (f.lowerMatrix n).IsLowerTriangular
  unit : ∀ i, f.lowerMatrix n i i = 1
  upper : (f.upperMatrix n).IsUpperTriangular
  pivots : ∀ i, f.upperMatrix n i i ≠ 0

variable {a : SparseMatrix α} {s : Partial α} {f : SparseLU α} {n : Nat}

/-- Rows are renamed one to one. -/
theorem Finished.coefficient_lowerSteps (finished : Finished s f n) (i j : Fin n) :
    coefficient (f.lowerSteps j) (finished.perm i) = coefficient (s.lower.getD j []) i := by
  rw [lowerSteps, finished.lower]
  refine coefficient_map (f.step.getD · 0) fun cell held same => ?_
  have inside := finished.sound.lower_lt j cell held
  have equal : f.step.getD cell.1 0 = f.step.getD i 0 := same
  exact finished.sound.step_injective cell.1 i _ (finished.step cell.1 inside)
    (equal ▸ finished.step i i.isLt)

theorem Finished.lowerMatrix_perm (finished : Finished s f n) (i j : Fin n) :
    f.lowerMatrix n (finished.perm i) j = s.weight j i := by
  have same : finished.perm i = j ↔ f.step.getD i 0 = j := by
    rw [Fin.ext_iff, finished.perm_val]
  simp only [lowerMatrix, Matrix.add_apply, Matrix.one_apply, Matrix.of_apply, Partial.weight,
    finished.coefficient_lowerSteps, finished.step i i.isLt, Option.some.injEq, same]

theorem Finished.upperMatrix_apply (finished : Finished s f n) (i j : Fin n) :
    f.upperMatrix n i j = s.upperEntry i j := by
  simp only [upperMatrix, Matrix.add_apply, Matrix.of_apply, Matrix.diagonal_apply,
    Partial.upperEntry, finished.upper, finished.diagonal, Fin.ext_iff]
  congr 1
  split
  next same => rw [same]
  next => rfl

theorem Finished.factorizes (finished : Finished s f n) (factors : s.Factors a n n) :
    f.Factorizes (a.matrix n) finished.perm := by
  have weights (i j : Fin n) : f.lowerMatrix n i j = s.weight j (finished.perm.symm i) := by
    rw [← finished.lowerMatrix_perm, Equiv.apply_symm_apply]
  have steps (i : Fin n) : s.step? (finished.perm.symm i) = some (i : Nat) := by
    have here := finished.step (finished.perm.symm i) (finished.perm.symm i).isLt
    rwa [← finished.perm_val, Equiv.apply_symm_apply] at here
  constructor
  case steps =>
    refine Array.ext (by simp [finished.size]) fun i inside _ => ?_
    simp [finished.perm_val, Array.getD, inside]
  case product =>
    rw [PEquiv.toMatrix_toPEquiv_mul]
    ext i k
    rw [Matrix.mul_apply, Matrix.submatrix_apply]
    refine (factors.columns k k.isLt _ (finished.perm.symm i).isLt).trans ?_
    rw [Finset.sum_range]
    refine Finset.sum_congr rfl fun j _ => ?_
    rw [weights, finished.upperMatrix_apply]
  case lower =>
    intro i j above
    have less : (i : Nat) < j := above
    rw [weights, Partial.weight_of_pivoted finished.sound (steps i) less.le]
    exact if_neg (Nat.ne_of_lt less)
  case unit =>
    intro i
    rw [weights, Partial.weight_of_pivoted finished.sound (steps i) le_rfl, if_pos rfl]
  case upper =>
    intro i j below
    rw [finished.upperMatrix_apply]
    exact Partial.upperEntry_of_lt finished.sound below
  case pivots =>
    intro i
    have vacant : coefficient (s.upper.getD i []) i = 0 := by
      refine coefficient_eq_zero fun listed => ?_
      obtain ⟨cell, held, same⟩ := List.mem_map.mp listed
      exact Nat.ne_of_lt (finished.sound.upper_lt i cell held) same
    rw [finished.upperMatrix_apply, Partial.upperEntry, vacant, zero_add, if_pos rfl]
    exact factors.pivots i i.isLt

/-! ## The solves -/

theorem sweeps_takeLower (f : SparseLU α) (n : Nat) :
    Sweeps n (fun _ => 1) f.lowerSteps f.takeLower := by
  intro c j size within
  have kept {i : Nat} : (if i = j then c.getD j 0 / 1 else c.getD i 0) = c.getD i 0 := by
    split
    next same => rw [same, div_one]
    next => rfl
  dsimp only [takeLower]
  split
  next zero =>
    refine ⟨size, fun i inside => ?_⟩
    rw [kept, isZero_iff.mp zero, zero_div, mul_zero, sub_zero]
  next =>
    refine ⟨(size_foldl fun c cell => Array.size_modify).trans size, fun i inside => ?_⟩
    rw [kept, div_one]
    exact getD_foldl_modify _ _ (size.symm ▸ inside)

theorem sweeps_takeUpper (f : SparseLU α) (n : Nat) :
    Sweeps n (f.diagonal.getD · 0) (f.upper.getD · []) f.takeUpper := by
  intro c k size within
  refine ⟨(size_foldl fun c cell => Array.size_modify).trans (by simpa using size),
    fun i inside => ?_⟩
  rw [takeUpper, getD_foldl_modify _ _ (by simpa [size] using inside),
    getD_setIfInBounds (size.symm ▸ inside)]

theorem lowerMatrix_mulVec (f : SparseLU α) (x : Array α) (i : Fin n) :
    (f.lowerMatrix n *ᵥ entriesOf n x) i = x.getD i 0 +
      ∑ j ∈ Finset.range n, coefficient (f.lowerSteps j) i * x.getD j 0 := by
  rw [lowerMatrix, Matrix.add_mulVec, Matrix.one_mulVec, Finset.sum_range]
  rfl

theorem upperMatrix_mulVec (f : SparseLU α) (x : Array α) (i : Fin n) :
    (f.upperMatrix n *ᵥ entriesOf n x) i = f.diagonal.getD i 0 * x.getD i 0 +
      ∑ j ∈ Finset.range n, coefficient (f.upper.getD j []) i * x.getD j 0 := by
  rw [upperMatrix, Matrix.add_mulVec, Pi.add_apply, Matrix.mulVec_diagonal, Finset.sum_range, add_comm]
  rfl

theorem transpose_lowerMatrix_mulVec (f : SparseLU α) (x : Array α) (j : Fin n) :
    ((f.lowerMatrix n)ᵀ *ᵥ entriesOf n x) j = x.getD j 0 +
      ∑ i ∈ Finset.range n, coefficient (f.lowerSteps j) i * x.getD i 0 := by
  rw [lowerMatrix, Matrix.transpose_add, Matrix.transpose_one, Matrix.add_mulVec, Matrix.one_mulVec,
    Finset.sum_range]
  rfl

theorem transpose_upperMatrix_mulVec (f : SparseLU α) (x : Array α) (j : Fin n) :
    ((f.upperMatrix n)ᵀ *ᵥ entriesOf n x) j = f.diagonal.getD j 0 * x.getD j 0 +
      ∑ i ∈ Finset.range n, coefficient (f.upper.getD j []) i * x.getD i 0 := by
  rw [upperMatrix, Matrix.transpose_add, Matrix.diagonal_transpose, Matrix.add_mulVec, Pi.add_apply,
    Matrix.mulVec_diagonal, Finset.sum_range, add_comm]
  rfl

theorem Finished.diagonal_ne_zero (finished : Finished s f n) (factors : s.Factors a n n) {j : Nat}
    (inside : j < n) : f.diagonal.getD j 0 ≠ 0 :=
  finished.diagonal ▸ factors.pivots j inside

/-- The first loop resolves the system of `L`. -/
theorem Finished.resolves_takeLower (finished : Finished s f n) {c : Array α} (size : c.size = n) :
    ((List.range n).foldl f.takeLower c).size = n ∧ Triangular.Resolves n (fun _ => 1)
      (fun i j => coefficient (f.lowerSteps j) i) (c.getD · 0)
      ((List.range n).foldl f.takeLower c) := by
  have forwards : (List.range n).Pairwise fun i j => ∀ cell ∈ f.lowerSteps j, cell.1 ≠ i :=
    List.pairwise_lt_range.imp fun less cell held =>
      Nat.ne_of_gt (less.trans (finished.lowerSteps_lt _ cell held).1)
  exact (sweeps_takeLower f n).resolves (.refl _)
    (fun j cell held => Nat.ne_of_gt (finished.lowerSteps_lt j cell held).1) forwards size

/-- The second loop resolves the system of `U`. -/
theorem Finished.resolves_takeUpper (finished : Finished s f n) {c : Array α} (size : c.size = n) :
    Triangular.Resolves n (f.diagonal.getD · 0) (fun i j => coefficient (f.upper.getD j []) i)
      (c.getD · 0) ((List.range n).reverse.foldl f.takeUpper c) := by
  have backwards : (List.range n).reverse.Pairwise fun i j =>
      ∀ cell ∈ f.upper.getD j [], cell.1 ≠ i :=
    List.pairwise_reverse.mpr <| List.pairwise_lt_range.imp fun less cell held =>
      Nat.ne_of_lt ((finished.upper_lt _ cell held).trans less)
  exact ((sweeps_takeUpper f n).resolves (List.reverse_perm _)
    (fun j cell held => Nat.ne_of_lt (finished.upper_lt j cell held)) backwards size).2

theorem Finished.foldl_takeLower (finished : Finished s f n) {c : Array α} (size : c.size = n) :
    f.lowerMatrix n *ᵥ entriesOf n ((List.range n).foldl f.takeLower c) = entriesOf n c := by
  funext i
  have row := (finished.resolves_takeLower size).2.equation i.isLt one_ne_zero
  rw [one_mul] at row
  exact (lowerMatrix_mulVec f _ i).trans row.symm

theorem Finished.foldl_takeUpper (finished : Finished s f n) (factors : s.Factors a n n)
    {c : Array α} (size : c.size = n) :
    f.upperMatrix n *ᵥ entriesOf n ((List.range n).reverse.foldl f.takeUpper c) = entriesOf n c := by
  funext i
  have pivot := finished.diagonal_ne_zero factors i.isLt
  exact (upperMatrix_mulVec f _ i).trans
    ((finished.resolves_takeUpper size).equation i.isLt pivot).symm

/-- The solve of the system. -/
theorem Finished.solveColumn_correct (finished : Finished s f n) (factors : s.Factors a n n)
    (b : Array α) : a.matrix n *ᵥ entriesOf n (f.solveColumn b) = entriesOf n b := by
  have size : (Factor.permute f.step b).size = n :=
    (size_foldl fun c cell => Array.size_setIfInBounds).trans (by simp [finished.size])
  rw [solveColumn_eq, finished.order]
  refine mulVec_of_product (finished.factorizes factors).product (fun i => ?_)
    (finished.foldl_takeUpper factors (finished.resolves_takeLower size).1)
  rw [finished.foldl_takeLower size]
  exact finished.lists.permute b i

theorem Finished.resolves_upperRule (finished : Finished s f n) (b : Array α) :
    Triangular.Resolves n (f.diagonal.getD · 0) (fun i j => coefficient (f.upper.getD i []) j)
      (b.getD · 0) (Triangular.ascending n (f.upperRule b)) := by
  refine Triangular.resolves_of_cells fun k inside => ?_
  obtain ⟨done, here, before⟩ := Triangular.getD_ascending (f.upperRule b) inside
  refine ⟨done, here, fun cell held => ?_⟩
  have earlier := finished.upper_lt k cell held
  exact ⟨earlier.trans inside, before cell.1 earlier⟩

theorem Finished.resolves_lowerRule (finished : Finished s f n) (z : Array α) :
    Triangular.Resolves n (fun _ => 1) (fun i j => coefficient (f.lowerSteps i) j) (z.getD · 0)
      (Triangular.descending n (f.lowerRule z)) := by
  refine Triangular.resolves_of_cells fun j inside => ?_
  obtain ⟨done, here, after⟩ := Triangular.getD_descending (f.lowerRule z) inside
  refine ⟨done, here.trans (div_one _).symm, fun cell held => ?_⟩
  have later := finished.lowerSteps_lt j cell held
  exact ⟨later.2, after cell.1 later.2 later.1⟩

theorem Finished.ascending_upperRule (finished : Finished s f n) (factors : s.Factors a n n)
    (b : Array α) :
    (f.upperMatrix n)ᵀ *ᵥ entriesOf n (Triangular.ascending n (f.upperRule b)) = entriesOf n b := by
  funext k
  have pivot := finished.diagonal_ne_zero factors k.isLt
  exact (transpose_upperMatrix_mulVec f _ k).trans
    ((finished.resolves_upperRule b).equation k.isLt pivot).symm

theorem Finished.descending_lowerRule (finished : Finished s f n) (z : Array α) :
    (f.lowerMatrix n)ᵀ *ᵥ entriesOf n (Triangular.descending n (f.lowerRule z)) = entriesOf n z := by
  funext j
  have row := (finished.resolves_lowerRule z).equation j.isLt one_ne_zero
  rw [one_mul] at row
  exact (transpose_lowerMatrix_mulVec f _ j).trans row.symm

/-- The solve of the transposed system. -/
theorem Finished.solveColumnTransposed_correct (finished : Finished s f n) (factors : s.Factors a n n)
    (b : Array α) : (a.matrix n)ᵀ *ᵥ entriesOf n (f.solveColumnTransposed b) = entriesOf n b := by
  rw [solveColumnTransposed_eq, finished.order]
  have read (v : Array α) : entriesOf n (f.step.map (v.getD · 0)) =
      fun i => entriesOf n v (finished.perm i) := by
    funext i
    have inside : (i : Nat) < f.step.size := finished.size.symm ▸ i.isLt
    simp only [entriesOf, finished.perm_val]
    simp [inside]
  rw [read]
  exact transpose_mulVec_of_product (finished.factorizes factors).product
    (finished.ascending_upperRule factors b) (finished.descending_lowerRule _)

end SparseLU

end Matrices

end Cotangent
