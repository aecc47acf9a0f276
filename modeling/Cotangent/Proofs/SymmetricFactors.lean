import Cotangent.Proofs.Cursors
import Cotangent.Proofs.SparseFactors

/-! Cholesky factors in exact arithmetic. A finished row of the factor gives, with every row before
it, the entry of the symmetric matrix. A row whose diagonal entry is not positive shows a direction in
which the quadratic form is not positive, and a matrix with a factor has none. -/
namespace Cotangent

open Matrix

/-! ## Definite matrices -/

section Definite

variable {α ι κ : Type} [FieldScalar α] [LinearOrder α] [Fintype ι] [Fintype κ]

/-- The quadratic form of the matrix is positive except at zero. -/
def PositiveDefinite (s : Matrix ι ι α) : Prop := ∀ x : ι → α, x ≠ 0 → 0 < x ⬝ᵥ (s *ᵥ x)

/-- A principal part of a definite matrix is definite. -/
theorem PositiveDefinite.submatrix {s : Matrix ι ι α} (definite : PositiveDefinite s) {e : κ → ι}
    (injective : Function.Injective e) : PositiveDefinite (s.submatrix e e) := by
  intro x nonzero
  -- the direction continued by zero
  let y : ι → α := Function.extend e x 0
  have restricted : y ∘ e = x := funext fun k => injective.extend_apply x 0 k
  have paired (z : ι → α) : y ⬝ᵥ z = x ⬝ᵥ (z ∘ e) := by
    refine (Fintype.sum_of_injective e injective _ _ (fun i outside => ?_) fun k => ?_).symm
    · simp only [y, Function.extend_apply' x (0 : ι → α) i outside, Pi.zero_apply, zero_mul]
    · simp only [y, injective.extend_apply, Function.comp_apply]
  have moved : (s *ᵥ y) ∘ e = s.submatrix e e *ᵥ x := by
    funext k
    rw [Function.comp_apply, mulVec, dotProduct_comm, paired, dotProduct_comm]
    rfl
  have positive := definite y fun zero => nonzero (restricted.symm.trans (zero ▸ rfl))
  rwa [paired, moved] at positive

/-- A matrix with an invertible factor is definite if and only if the diagonal between the factor and
its transpose is positive. -/
theorem positiveDefinite_iff_of_product [OrderedScalar α] [DecidableEq ι] {s l : Matrix ι ι α}
    {d : ι → α} (product : l * diagonal d * lᵀ = s) (invertible : l.det ≠ 0) :
    PositiveDefinite s ↔ ∀ i, 0 < d i := by
  have form (x : ι → α) : x ⬝ᵥ (s *ᵥ x) = ∑ i, (lᵀ *ᵥ x) i * (d i * (lᵀ *ᵥ x) i) := by
    rw [← product, ← mulVec_mulVec, ← mulVec_mulVec, dotProduct_mulVec, ← mulVec_transpose]
    exact Finset.sum_congr rfl fun i _ => by rw [mulVec_diagonal]
  have invertible' : lᵀ.det ≠ 0 := by rwa [det_transpose]
  constructor
  · intro definite i
    have unit := (isUnit_iff_isUnit_det lᵀ).mpr (isUnit_iff_ne_zero.mpr invertible')
    obtain ⟨x, found⟩ := mulVec_surjective_iff_isUnit.mpr unit (Pi.single i 1)
    have nonzero : x ≠ 0 := by
      rintro rfl
      rw [mulVec_zero] at found
      exact zero_ne_one ((congrFun found i).trans (Pi.single_eq_same i 1))
    have positive := definite x nonzero
    rwa [form, found, Finset.sum_eq_single i (fun k _ other => by simp [Pi.single_eq_of_ne other])
      (fun missing => absurd (Finset.mem_univ i) missing), Pi.single_eq_same, one_mul,
      mul_one] at positive
  · intro positive x nonzero
    have moved : lᵀ *ᵥ x ≠ 0 := fun zero =>
      nonzero (mulVec_injective_of_det_ne_zero invertible' (zero.trans (mulVec_zero _).symm))
    obtain ⟨i, other⟩ := Function.ne_iff.mp moved
    rw [form]
    refine Finset.sum_pos' (fun k _ => ?_) ⟨i, Finset.mem_univ i, ?_⟩
    · rw [mul_left_comm]
      exact mul_nonneg (positive k).le (mul_self_nonneg _)
    · rw [mul_left_comm]
      exact mul_pos (positive i) (mul_self_pos.mpr other)

end Definite

/-- The symmetric matrix of order `n` with the lower triangle of a sparse matrix. -/
def SparseMatrix.symmetric {α : Type} [FieldScalar α] (m : SparseMatrix α) (n : Nat) :
    Matrix (Fin n) (Fin n) α :=
  .of fun i j => m.entry (max i j) (min i j)

namespace Cholesky

open Pattern

variable {α : Type} [FieldScalar α] {a : Analysis} {m : SparseMatrix α} {s : Partial α} {i j k : Nat}

/-- What the dense row and the diagonal entry lack is what the eliminated columns give. -/
structure Exact (a : Analysis) (m : SparseMatrix α) (k : Nat) (done : List Nat)
    (acc : Partial α × α) : Prop where
  row : ∀ r < k, m.entry k r =
    acc.1.work.getD r 0 + (done.map fun i => acc.1.entry a r i * acc.1.entry a k i).sum
  diagonal : m.entry k k = acc.2 + (done.map fun i => acc.1.entry a k i * acc.1.entry a k i).sum

/-- A column that is eliminated moves its share from the dense row to the sums. -/
theorem Exact.step (fills : a.Fills m.pattern) {reach done rest : List Nat} {start : Partial α}
    {acc acc' : Partial α × α} (row : EliminationTree.Row m.pattern k reach)
    (split : reach = done ++ j :: rest) (reduced : Reduced a m.pattern k reach start done acc)
    (turn : Turn a k j acc acc' (acc.1.work.getD j 0 / acc.1.entry a j j))
    (pivot : acc.1.entry a j j ≠ 0) (exact : Exact a m k done acc) :
    Exact a m k (done ++ [j]) acc' := by
  have member : j ∈ reach := by simp [split]
  obtain ⟨below, fill⟩ := (row.mem_iff j).mp member
  have new := notMem_of_split row.nodup split
  have entries := Partial.entry_set reduced.size_values fills fill turn.values
  have old {i : Nat} (earlier : i ∈ done) : acc'.1.entry a k i = acc.1.entry a k i := by
    rw [entries, if_neg]
    rintro ⟨-, rfl⟩
    exact new earlier
  have here : acc'.1.entry a k j = acc.1.work.getD j 0 / acc.1.entry a j j := by
    rw [entries, if_pos ⟨rfl, rfl⟩]
  have upper {r i : Nat} (before : r < k) : acc'.1.entry a r i = acc.1.entry a r i := by
    rw [entries, if_neg]
    rintro ⟨rfl, -⟩
    exact Nat.lt_irrefl r before
  constructor
  case row =>
    intro r before
    have inside : r < acc.1.work.size := by
      rw [reduced.size_work]
      exact before.trans fill.lt_nrows
    have sums : (done.map fun i => acc'.1.entry a r i * acc'.1.entry a k i) =
        done.map fun i => acc.1.entry a r i * acc.1.entry a k i :=
      List.map_congr_left fun i earlier => by rw [upper before, old earlier]
    rw [exact.row r before, List.map_append, List.sum_append, sums, List.map_singleton,
      List.sum_singleton, here, upper before, turn.work r inside]
    by_cases same : r = j
    · subst same
      rw [if_pos rfl, mul_div_cancel₀ _ pivot]
      ring
    · rw [if_neg same]
      by_cases given : m.pattern.Fill r j
      · have after : j < r := given.le.lt_of_ne (Ne.symm same)
        rw [if_pos ⟨after, before, (fills.mem_iff r j).mpr given⟩]
        ring
      · rw [if_neg fun held => given ((fills.mem_iff r j).mp held.2.2),
          Partial.entry_of_not_fill fills given]
        ring
  case diagonal =>
    have sums : (done.map fun i => acc'.1.entry a k i * acc'.1.entry a k i) =
        done.map fun i => acc.1.entry a k i * acc.1.entry a k i :=
      List.map_congr_left fun i earlier => by rw [old earlier]
    rw [exact.diagonal, List.map_append, List.sum_append, sums, List.map_singleton,
      List.sum_singleton, here, turn.diagonal]
    ring

/-- A sum over the columns of a row is a sum over all columns before it. -/
theorem sum_row {p : Pattern} {reach : List Nat} (row : EliminationTree.Row p k reach) {f : Nat → α}
    (outside : ∀ i, ¬ p.Fill k i → f i = 0) :
    (reach.map f).sum = ∑ i ∈ Finset.range k, f i := by
  rw [← List.sum_toFinset f row.nodup]
  refine Finset.sum_subset (fun i member => ?_) fun i within missing => outside i fun fill => ?_
  · exact Finset.mem_range.mpr ((row.mem_iff i).mp (List.mem_toFinset.mp member)).1
  · exact missing (List.mem_toFinset.mpr ((row.mem_iff i).mpr ⟨Finset.mem_range.mp within, fill⟩))

namespace Partial.Sound

variable (sound : s.Sound a m.pattern.nrows k) (fills : a.Fills m.pattern) (inside : k < m.pattern.nrows)

include sound fills inside

/-- Entries of rows before the last stay. -/
theorem entry_reduced (before : i < k) (j : Nat) :
    (s.reduced a m k).1.entry a i j = s.entry a i j :=
  (sound.reduced fills inside).frame i j fun same => absurd same (Nat.ne_of_lt before)

/-- A row of the matrix from the rows of the factor. -/
theorem exact (pivots : ∀ j < k, s.entry a j j ≠ 0) :
    (∀ r < k, m.entry k r =
      ∑ i ∈ Finset.range k, s.entry a r i * (s.reduced a m k).1.entry a k i) ∧
    m.entry k k = (s.reduced a m k).2 + ∑ i ∈ Finset.range k,
      (s.reduced a m k).1.entry a k i * (s.reduced a m k).1.entry a k i := by
  have row := (sound.row (m := m) fills inside).1
  have start : Exact a m k [] (s.opened a m k, (s.loaded a m k).getD k 0) := by
    constructor
    case row =>
      intro r before
      rw [sound.getD_opened fills inside, if_pos before, List.map_nil, List.sum_nil, add_zero]
    case diagonal =>
      rw [getD_loaded fills (sound.clear k) (sound.size_work.symm ▸ inside), if_pos le_rfl,
        List.map_nil, List.sum_nil, add_zero]
  obtain ⟨reduced, exact⟩ := sound.induction_row fills inside (P := Exact a m k) start
    fun done j rest acc acc' split reduced turn kept => by
      have below : j < k := ((row.mem_iff j).mp (by simp [split])).1
      have known : acc.1.entry a j j = s.entry a j j :=
        reduced.frame j j fun same => absurd same (Nat.ne_of_lt below)
      exact kept.step fills row split reduced turn (known ▸ pivots j below)
  have outside (i : Nat) (apart : ¬ m.pattern.Fill k i) : (s.reduced a m k).1.entry a k i = 0 :=
    Partial.entry_of_not_fill fills apart
  constructor
  · intro r before
    rw [exact.row r before, reduced.clear r id, zero_add,
      sum_row row fun i apart => by rw [outside i apart, mul_zero]]
    simp only [sound.entry_reduced fills inside before]
  · rw [exact.diagonal, sum_row row fun i apart => by rw [outside i apart, mul_zero]]

end Partial.Sound

/-- Entries above the diagonal are zero. -/
theorem Partial.entry_of_lt (fills : a.Fills m.pattern) (above : i < j) : s.entry a i j = 0 :=
  entry_of_not_fill fills fun fill => Nat.not_lt_of_le fill.le above

variable [LinearOrder α]

/-- The first `k` rows of the factor give the lower triangle of the first `k` rows. -/
structure Partial.Factors (a : Analysis) (m : SparseMatrix α) (k : Nat) (s : Partial α) : Prop where
  rows : ∀ r < k, ∀ j ≤ r, m.entry r j = ∑ i ∈ Finset.range k, s.entry a r i * s.entry a j i
  pivots : ∀ j < k, 0 < s.entry a j j

/-- A positive diagonal entry gives a further row. -/
theorem Partial.Factors.closed [RootScalar α] (factors : s.Factors a m k)
    (sound : s.Sound a m.pattern.nrows k) (fills : a.Fills m.pattern) (inside : k < m.pattern.nrows)
    (positive : 0 < (s.reduced a m k).2) : (s.closed a m k).Factors a m (k + 1) := by
  obtain ⟨row, diagonal⟩ := sound.exact fills inside fun j before => (factors.pivots j before).ne'
  have root := RootScalar.sqrt_mul_self (s.reduced a m k).2 positive.le
  have entries := sound.entry_closed fills inside
  have old {i j : Nat} (before : i < k) : (s.closed a m k).entry a i j = s.entry a i j := by
    rw [entries, if_neg fun same => Nat.ne_of_lt before same.1, sound.entry_reduced fills inside before]
  have new {j : Nat} (before : j < k) :
      (s.closed a m k).entry a k j = (s.reduced a m k).1.entry a k j := by
    rw [entries, if_neg fun same => Nat.ne_of_lt before same.2]
  have last : (s.closed a m k).entry a k k = Scalar.sqrt (s.reduced a m k).2 := by
    rw [entries, if_pos ⟨rfl, rfl⟩]
  constructor
  case rows =>
    intro r before j below
    rw [Finset.sum_range_succ]
    rcases Nat.lt_succ_iff_lt_or_eq.mp before with earlier | rfl
    · rw [Partial.entry_of_lt fills earlier, zero_mul, add_zero, factors.rows r earlier j below]
      simp only [old earlier, old (below.trans_lt earlier)]
    · rcases below.lt_or_eq with earlier | rfl
      · rw [Partial.entry_of_lt fills earlier, mul_zero, add_zero, row j earlier]
        refine Finset.sum_congr rfl fun i within => ?_
        rw [old earlier, new (Finset.mem_range.mp within), mul_comm]
      · rw [last, root, diagonal, add_comm]
        refine congrArg₂ _ (Finset.sum_congr rfl fun i within => ?_) rfl
        rw [new (Finset.mem_range.mp within)]
  case pivots =>
    intro j before
    rcases Nat.lt_succ_iff_lt_or_eq.mp before with earlier | rfl
    · rw [old earlier]
      exact factors.pivots j earlier
    · rw [last]
      refine (RootScalar.sqrt_nonneg _ positive.le).lt_of_ne fun zero => positive.ne ?_
      rw [← root, ← zero, zero_mul]

/-- The rows done, and the row that is worked on with one in place of its diagonal entry. -/
def Partial.bordered (a : Analysis) (k : Nat) (s : Partial α) :
    Matrix (Fin (k + 1)) (Fin (k + 1)) α :=
  .of fun i j => if i = Fin.last k ∧ j = Fin.last k then 1 else s.entry a i j

omit [LinearOrder α] in
theorem Partial.det_bordered_ne_zero (fills : a.Fills m.pattern)
    (pivots : ∀ j < k, s.entry a j j ≠ 0) : (s.bordered a k).det ≠ 0 := by
  have lower : (s.bordered a k).IsLowerTriangular := by
    intro i j above
    have less : (i : Nat) < j := above
    have other : ¬ (i = Fin.last k ∧ j = Fin.last k) := by
      rintro ⟨rfl, rfl⟩
      exact Nat.lt_irrefl _ less
    simp only [bordered, of_apply, if_neg other, Partial.entry_of_lt fills less]
  rw [det_of_isLowerTriangular _ lower]
  refine Finset.prod_ne_zero_iff.mpr fun i _ => ?_
  by_cases last : i = Fin.last k
  · simp [bordered, last]
  · have before : (i : Nat) < k := Fin.val_lt_last last
    simpa [bordered, last] using pivots i before

/-- The matrix up to row `k` is a product with the diagonal entry in the middle. -/
theorem Partial.Factors.product (factors : s.Factors a m k) (sound : s.Sound a m.pattern.nrows k)
    (fills : a.Fills m.pattern) (inside : k < m.pattern.nrows) :
    (s.reduced a m k).1.bordered a k *
        diagonal (fun i => if i = Fin.last k then (s.reduced a m k).2 else 1) *
        ((s.reduced a m k).1.bordered a k)ᵀ =
      (m.symmetric m.pattern.nrows).submatrix (Fin.castLE inside) (Fin.castLE inside) := by
  obtain ⟨row, corner⟩ := sound.exact fills inside fun j before => (factors.pivots j before).ne'
  set t := (s.reduced a m k).1 with named
  set d := (s.reduced a m k).2
  set e := t.entry a
  have old {i : Nat} (before : i < k) (j : Nat) : e i j = s.entry a i j :=
    sound.entry_reduced fills inside before j
  have border (i : Fin (k + 1)) : t.bordered a k i (Fin.last k) = if i = Fin.last k then 1 else 0 := by
    by_cases last : i = Fin.last k
    · simp [bordered, last]
    · have before : (i : Nat) < k := Fin.val_lt_last last
      simpa [bordered, last] using Partial.entry_of_lt fills before
  have expanded (i j : Fin (k + 1)) : (t.bordered a k *
      diagonal (fun i => if i = Fin.last k then d else 1) * (t.bordered a k)ᵀ) i j =
      ∑ l ∈ Finset.range k, e i l * e j l +
        if i = Fin.last k ∧ j = Fin.last k then d else 0 := by
    rw [mul_apply, Fin.sum_univ_castSucc, Finset.sum_range]
    congr 1
    · simp [mul_diagonal, bordered, Fin.castSucc_ne_last, e]
    · rw [mul_diagonal, transpose_apply, border, border]
      by_cases hi : i = Fin.last k <;> by_cases hj : j = Fin.last k <;> simp [hi, hj]
  have lower (i j : Fin (k + 1)) (le : j ≤ i) : m.entry i j = ∑ l ∈ Finset.range k, e i l * e j l +
      if i = Fin.last k ∧ j = Fin.last k then d else 0 := by
    by_cases last : j = Fin.last k
    · obtain rfl : i = Fin.last k := le_antisymm (Fin.le_last i) (last ▸ le)
      subst last
      simpa [add_comm] using corner
    · have before : (j : Nat) < k := Fin.val_lt_last last
      rw [if_neg fun both => last both.2, add_zero]
      by_cases here : i = Fin.last k
      · subst here
        rw [Fin.val_last, row j before]
        exact Finset.sum_congr rfl fun l _ => by rw [old before, mul_comm]
      · have earlier : (i : Nat) < k := Fin.val_lt_last here
        rw [factors.rows i earlier j le]
        exact Finset.sum_congr rfl fun l _ => by rw [old before, old earlier]
  ext i j
  rw [expanded]
  rcases le_total j i with le | le
  · have sides : max (i : Nat) j = i ∧ min (i : Nat) j = j := ⟨max_eq_left le, min_eq_right le⟩
    simpa [SparseMatrix.symmetric, sides] using (lower i j le).symm
  · have sides : max (i : Nat) j = j ∧ min (i : Nat) j = i := ⟨max_eq_right le, min_eq_left le⟩
    simpa [SparseMatrix.symmetric, sides, mul_comm, and_comm] using (lower j i le).symm

/-- A row of a definite matrix has a positive diagonal entry. -/
theorem Partial.Factors.diagonal_pos [OrderedScalar α] (factors : s.Factors a m k)
    (sound : s.Sound a m.pattern.nrows k) (fills : a.Fills m.pattern) (inside : k < m.pattern.nrows)
    (definite : PositiveDefinite (m.symmetric m.pattern.nrows)) : 0 < (s.reduced a m k).2 := by
  have pivots : ∀ j < k, (s.reduced a m k).1.entry a j j ≠ 0 := fun j before => by
    rw [sound.entry_reduced fills inside before]
    exact (factors.pivots j before).ne'
  have part := definite.submatrix (Fin.castLE_injective inside)
  have positive := (positiveDefinite_iff_of_product (factors.product sound fills inside)
    (Partial.det_bordered_ne_zero fills pivots)).mp part (Fin.last k)
  rwa [if_pos rfl] at positive

/-! ## Finished factors -/

variable {l : SparseMatrix α}

/-- A finished factor of a symmetric matrix. -/
structure Factorizes (l : SparseMatrix α) (a : Analysis) (m : SparseMatrix α) : Prop where
  pattern : l.pattern = a.lower
  lower : (l.matrix m.pattern.nrows).IsLowerTriangular
  positive : ∀ i, 0 < l.matrix m.pattern.nrows i i
  product : l.matrix m.pattern.nrows * (l.matrix m.pattern.nrows)ᵀ = m.symmetric m.pattern.nrows

/-- When all rows are finished, the values are a factor. -/
theorem Partial.Factors.factorizes [OrderedScalar α] (factors : s.Factors a m m.pattern.nrows)
    (fills : a.Fills m.pattern) (size : s.values.size = a.lower.nnz) :
    Factorizes ⟨a.lower, s.values, size⟩ a m := by
  constructor
  case pattern => rfl
  case lower => exact fun i j above => Partial.entry_of_lt fills above
  case positive => exact fun i => factors.pivots i i.isLt
  case product =>
    have rows (i j : Fin m.pattern.nrows) (le : j ≤ i) := factors.rows i i.isLt j le
    ext i j
    rw [mul_apply, SparseMatrix.symmetric, of_apply]
    rcases le_total j i with le | le
    · rw [max_eq_left (Fin.le_iff_val_le_val.mp le), min_eq_right (Fin.le_iff_val_le_val.mp le),
        rows i j le, Finset.sum_range]
      rfl
    · rw [max_eq_right (Fin.le_iff_val_le_val.mp le), min_eq_left (Fin.le_iff_val_le_val.mp le),
        rows j i le, Finset.sum_range]
      exact Finset.sum_congr rfl fun k _ => mul_comm _ _

theorem Factorizes.det_ne_zero [OrderedScalar α] (factorizes : Factorizes l a m) :
    (l.matrix m.pattern.nrows).det ≠ 0 := by
  rw [det_of_isLowerTriangular _ factorizes.lower]
  exact Finset.prod_ne_zero_iff.mpr fun i _ => (factorizes.positive i).ne'

/-- A matrix with a factor is definite. -/
theorem Factorizes.positiveDefinite [OrderedScalar α] (factorizes : Factorizes l a m) :
    PositiveDefinite (m.symmetric m.pattern.nrows) := by
  have product : l.matrix m.pattern.nrows * Matrix.diagonal (fun _ => (1 : α)) *
      (l.matrix m.pattern.nrows)ᵀ = m.symmetric m.pattern.nrows := by
    rw [diagonal_one, mul_one, factorizes.product]
  exact (positiveDefinite_iff_of_product product factorizes.det_ne_zero).mpr fun _ => one_pos

end Cholesky

end Cotangent
