import Cotangent.Proofs.Entries
import Cotangent.Proofs.FlatBuilders

/-! Sparse arithmetic against dense arithmetic. Both kinds of matrices are compared entry by entry, over
scalars that are a commutative ring: the entry of a sparse matrix is what a search in its pattern finds, and
zero where it finds nothing. What a product leaves out, because a factor is zero or an entry is not stored,
is zero. -/
namespace Cotangent

open Finset

section Products

variable {α : Type} [RingScalar α]

/-- The matrix of sums of products. -/
def sumOfProducts (nrows inner ncols : Nat) (left right : Nat → Nat → α) : DenseMatrix α :=
  .ofFn nrows ncols fun i j => ∑ k ∈ range inner, left i k * right k j

/-- The product of dense matrices, though zeros on the right are skipped. -/
theorem DenseMatrix.matmul_eq (a b : DenseMatrix α) : a.matmul b =
    if a.ncols = b.nrows then
      (checkRoom (a.nrows * b.ncols)).map fun _ =>
        sumOfProducts a.nrows a.ncols b.ncols a.entry b.entry
    else .error (.shapeMismatch [a.ncols, b.ncols] b.shape.toList) := by
  have product : (ofFn a.nrows b.ncols fun i j => dot a.ncols (a.entry i ·) (b.entry · j)) =
      sumOfProducts a.nrows a.ncols b.ncols a.entry b.entry :=
    congrArg (ofFn a.nrows b.ncols) (funext₂ fun i j => dot_eq a.ncols (a.entry i ·) (b.entry · j))
  rw [matmul, product]

namespace SparseMatrix

variable (a : SparseMatrix α)

/-- The product of a sparse matrix with a dense one, though zeros on the right are skipped and only
stored entries are multiplied. -/
theorem matmul_eq (x : DenseMatrix α) : a.matmul x =
    if x.nrows = a.ncols then
      (checkRoom (a.nrows * x.ncols)).map fun _ =>
        sumOfProducts a.nrows a.ncols x.ncols a.entry x.entry
    else .error (.shapeMismatch [a.ncols, x.ncols] x.shape.toList) := by
  have product : DenseMatrix.ofColumnFn a.nrows x.ncols (fun c => a.mulColumn (x.entry · c)) =
      sumOfProducts a.nrows a.ncols x.ncols a.entry x.entry := by
    refine DenseMatrix.ext_entry rfl rfl fun i j hi hj => ?_
    have hi : i < a.nrows := hi
    have hj : j < x.ncols := hj
    rw [DenseMatrix.entry_ofColumnFn hi hj, getD_mulColumn _ hi, sumOfProducts,
      DenseMatrix.entry_ofFn hi hj]
  rw [matmul, product]

/-! ### From one kind to the other and back -/

theorem get_eq (i j : Nat) : a.get i j = a.entry i j := by
  cases found : a.pattern.position? i j <;> simp only [get, entry, Flat.position?_flat, found]

/-- The dense matrix is read back at the positions of the pattern. -/
theorem sample_toDense : sample a.pattern a.toDense.entry = a := by
  refine eq_of_values rfl (Array.ext_getElem? fun k => ?_)
  by_cases inside : k < a.pattern.nnz
  · obtain ⟨i, j, position⟩ := Pattern.exists_position?_eq inside
    have member := Pattern.mem_of_position? position
    have stored : k < a.values.size := a.size_values.symm ▸ inside
    rw [getElem?_values_sample position,
      entry_toDense (Pattern.lt_nrows_of_mem_col member) (Pattern.lt_ncols_of_mem_col member),
      a.entry_of_position? position]
    simp [Array.getD, stored]
  · have size : (sample a.pattern a.toDense.entry).values.size = a.pattern.nnz :=
      (sample a.pattern a.toDense.entry).size_values
    rw [Array.getElem?_eq_none (by omega), Array.getElem?_eq_none (by rw [a.size_values]; omega)]

/-- The entries of a dense matrix that are in a pattern, and zero elsewhere. -/
theorem toDense_sample {m : DenseMatrix α} {p : Pattern} (fits : m.shape = p.shape) :
    (sample p m.entry).toDense =
      .ofFn m.nrows m.ncols fun i j => if i ∈ p.col j then m.entry i j else 0 := by
  have rows : m.nrows = p.nrows := congrArg Prod.fst fits
  have columns : m.ncols = p.ncols := congrArg Prod.snd fits
  refine DenseMatrix.ext_entry rows.symm columns.symm fun i j hi hj => ?_
  have hi : i < p.nrows := hi
  have hj : j < p.ncols := hj
  rw [entry_toDense hi hj, entry_sample, DenseMatrix.entry_ofFn (rows ▸ hi) (columns ▸ hj)]

/-- A dense matrix whose entries outside a pattern are zero comes back from the pattern. -/
theorem toDense_sample_self {m : DenseMatrix α} {p : Pattern} (fits : m.shape = p.shape)
    (zero : ∀ i < m.nrows, ∀ j < m.ncols, i ∉ p.col j → m.entry i j = 0) :
    (sample p m.entry).toDense = m := by
  rw [toDense_sample fits]
  refine DenseMatrix.ext_entry rfl rfl fun i j hi hj => ?_
  have hi : i < m.nrows := hi
  have hj : j < m.ncols := hj
  rw [DenseMatrix.entry_ofFn hi hj, ite_eq_left_iff]
  exact fun outside => (zero i hi j hj outside).symm

theorem toDense_ofDense (m : DenseMatrix α) : (ofDense m).toDense = m := by
  refine toDense_sample_self ?_ fun i hi j hj outside => ?_
  · rw [Pattern.shape, Pattern.ncols_dense]
    rfl
  · exact absurd (Pattern.mem_col_dense.mpr ⟨hi, hj⟩) outside

theorem toDense_ofNonzeros (m : DenseMatrix α) : (ofNonzeros m).toDense = m := by
  refine toDense_sample_self ?_ fun i hi j hj outside => ?_
  · simp [Pattern.shape, Pattern.ofTest, Pattern.ncols, DenseMatrix.shape]
  · by_contra nonzero
    refine outside (Pattern.mem_col_ofTest.mpr ⟨hi, hj, ?_⟩)
    rwa [Bool.not_eq_true', ← Bool.not_eq_true, isZero_iff]

theorem toDense_transpose : a.transpose.toDense = a.toDense.transpose := by
  have rows : a.transpose.ncols = a.nrows := a.pattern.ncols_transpose
  refine DenseMatrix.ext_entry rfl rows fun i j hi hj => ?_
  have hi : i < a.ncols := hi
  have hj' : j < a.transpose.ncols := hj
  have hj : j < a.nrows := rows ▸ hj'
  rw [entry_toDense hi hj', entry_transpose, DenseMatrix.entry_transpose a.toDense hi hj,
    entry_toDense hj hi]

theorem toDense_matmul (x : DenseMatrix α) : a.toDense.matmul x = a.matmul x := by
  have entries : sumOfProducts a.nrows a.ncols x.ncols a.toDense.entry x.entry =
      sumOfProducts a.nrows a.ncols x.ncols a.entry x.entry := by
    refine DenseMatrix.ext_entry rfl rfl fun i j hi hj => ?_
    have hi : i < a.nrows := hi
    have hj : j < x.ncols := hj
    rw [sumOfProducts, sumOfProducts, DenseMatrix.entry_ofFn hi hj, DenseMatrix.entry_ofFn hi hj]
    exact sum_congr rfl fun k member => by rw [entry_toDense hi (mem_range.mp member)]
  rw [DenseMatrix.matmul_eq, matmul_eq, show a.toDense.nrows = a.nrows from rfl,
    show a.toDense.ncols = a.ncols from rfl, entries]
  exact if_congr eq_comm rfl rfl

/-! ### Agreement -/

theorem toDense?_bind {β : Type} (next : DenseMatrix α → Except Error β) :
    (a.toDense? >>= next) = (checkRoom (a.nrows * a.ncols) >>= fun _ => next a.toDense) := by
  rw [toDense?]
  cases checkRoom (a.nrows * a.ncols) <;> rfl

theorem project_toDense : project a.toDense a.pattern = .ok a := by
  have fits : a.toDense.checkShape a.pattern.shape = .ok () := if_pos rfl
  rw [project, fits, sample_toDense]
  rfl

theorem toDense?_project (m : DenseMatrix α) (p : Pattern) : (project m p >>= toDense?) =
    (m.checkShape p.shape >>= fun _ => (checkRoom (m.nrows * m.ncols)).map fun _ =>
      .ofFn m.nrows m.ncols fun i j => if i ∈ p.col j then m.entry i j else 0) := by
  rw [project, DenseMatrix.checkShape]
  by_cases fits : m.shape = p.shape
  · have rows : (sample p m.entry).nrows = m.nrows := (congrArg Prod.fst fits).symm
    have columns : (sample p m.entry).ncols = m.ncols := (congrArg Prod.snd fits).symm
    rw [if_pos fits, ← toDense_sample fits, ← rows, ← columns]
    rfl
  · rw [if_neg fits]
    rfl

theorem toDense?_gatherNonzeros? (m : DenseMatrix α) : (gatherNonzeros? m >>= toDense?) =
    (checkRoom (m.ncols + 1) >>= fun _ => (checkRoom (m.nrows * m.ncols)).map fun _ => m) := by
  have columns : (ofNonzeros m).ncols = m.ncols := by
    simp [ofNonzeros, sample, ncols, Pattern.ofTest, Pattern.ncols]
  have dense : (ofNonzeros m).toDense? = (checkRoom (m.nrows * m.ncols)).map fun _ => m := by
    rw [toDense?, toDense_ofNonzeros, columns]
    rfl
  rw [gatherNonzeros?_eq, ofNonzeros?]
  cases checkRoom (m.ncols + 1) with
  | error e => rfl
  | ok _ => exact dense

theorem toDense?_copyDense? (m : DenseMatrix α) : (copyDense? m >>= toDense?) =
    (checkRoom (m.ncols + 1) >>= fun _ => (checkRoom (m.nrows * m.ncols)).map fun _ => m) := by
  have columns : (ofDense m).ncols = m.ncols := Pattern.ncols_dense m.nrows m.ncols
  have dense : (ofDense m).toDense? = (checkRoom (m.nrows * m.ncols)).map fun _ => m := by
    rw [toDense?, toDense_ofDense, columns]
    rfl
  rw [copyDense?_eq, ofDense?, Pattern.dense?]
  cases checkRoom (m.ncols + 1) with
  | error e => rfl
  | ok _ =>
    cases room : checkRoom (m.nrows * m.ncols) with
    | error e => rfl
    | ok _ => exact dense.trans (congrArg (Except.map fun _ => m) room)

theorem toDense?_transpose? : (a.transpose? >>= toDense?) =
    (checkRoom (a.nrows + 1) >>= fun _ => a.toDense?.map (·.transpose)) := by
  have columns : a.transpose.ncols = a.nrows := a.pattern.ncols_transpose
  have dense : a.transpose.toDense? = a.toDense?.map (·.transpose) := by
    rw [toDense?, toDense?, toDense_transpose, columns, Nat.mul_comm,
      show a.transpose.nrows = a.ncols from rfl]
    cases checkRoom (a.nrows * a.ncols) <;> rfl
  rw [transpose?_eq]
  cases checkRoom (a.nrows + 1) with
  | error e => rfl
  | ok _ => exact dense

variable (m x : DenseMatrix α) (p : Pattern)

/-- Sparse arithmetic agrees with dense arithmetic, up to the room that either needs. A sparse matrix is
read back from its dense matrix; a dense matrix comes back from its nonzero entries and from all its entries,
and from a pattern with zeros outside it; entries and transposed matrices agree; and both products are the
matrix of sums of products, or refuse matrices that do not fit alike. -/
theorem dense_arithmetic_agrees :
    (a.toDense? >>= fun d => project d a.pattern) =
      (checkRoom (a.nrows * a.ncols)).map (fun _ => a) ∧
    (gatherNonzeros? m >>= toDense?) =
      (checkRoom (m.ncols + 1) >>= fun _ => (checkRoom (m.nrows * m.ncols)).map fun _ => m) ∧
    (copyDense? m >>= toDense?) =
      (checkRoom (m.ncols + 1) >>= fun _ => (checkRoom (m.nrows * m.ncols)).map fun _ => m) ∧
    (project m p >>= toDense?) =
      (m.checkShape p.shape >>= fun _ => (checkRoom (m.nrows * m.ncols)).map fun _ =>
        .ofFn m.nrows m.ncols fun i j => if i ∈ p.col j then m.entry i j else 0) ∧
    (∀ i < a.nrows, ∀ j < a.ncols, (a.toDense? >>= (·.get? i j)) =
      (checkRoom (a.nrows * a.ncols)).map fun _ => a.get i j) ∧
    (a.transpose? >>= toDense?) =
      (checkRoom (a.nrows + 1) >>= fun _ => a.toDense?.map (·.transpose)) ∧
    (a.toDense? >>= (·.matmul x)) = (checkRoom (a.nrows * a.ncols) >>= fun _ => a.matmul x) ∧
    a.matmul x = if x.nrows = a.ncols then
        (checkRoom (a.nrows * x.ncols)).map fun _ =>
          sumOfProducts a.nrows a.ncols x.ncols a.get x.entry
      else .error (.shapeMismatch [a.ncols, x.ncols] x.shape.toList) := by
  refine ⟨?_, toDense?_gatherNonzeros? m, toDense?_copyDense? m, toDense?_project m p,
    fun i hi j hj => ?_, a.toDense?_transpose?, ?_, ?_⟩
  · rw [toDense?_bind, project_toDense]
    rfl
  · have read : a.toDense.get? i j = .ok (a.get i j) := by
      rw [DenseMatrix.get?, a.toDense.getElem?_data hi hj, entry_toDense hi hj, get_eq]
    rw [toDense?_bind, read]
    rfl
  · rw [toDense?_bind, toDense_matmul]
  · rw [matmul_eq, funext₂ a.get_eq]

/-- Matrices without entries of which one side has `2 ^ 60` rows or columns, where only one of two sides has
room: a transposed sparse matrix, a dense factor, and the pattern of all entries that are not zero. -/
theorem dense_arithmetic_without_room :
    let bare : SparseMatrix Int := ⟨⟨1152921504606846976, #[], by simp⟩, #[], rfl⟩
    let thin : SparseMatrix Int := ⟨⟨1152921504606846976, #[[]], by simp [IsColumn]⟩, #[], rfl⟩
    let wide : DenseMatrix Int := ⟨0, 1152921504606846976, #[], rfl⟩
    (bare.transpose? >>= toDense?) ≠ bare.toDense?.map (·.transpose) ∧
    (thin.toDense? >>= (·.matmul ⟨1, 0, #[], rfl⟩)) ≠ thin.matmul ⟨1, 0, #[], rfl⟩ ∧
    (gatherNonzeros? wide >>= toDense?) ≠ .ok wide ∧ (copyDense? wide >>= toDense?) ≠ .ok wide := by
  intro bare thin wide
  have more : wordLimit ≤ 1152921504606846976 + 1 := by decide
  refine ⟨?_, ?_, ?_, ?_⟩
  · have refused : bare.transpose? = .error .sizeOverflow := by
      rw [transpose?_eq, show bare.nrows = 1152921504606846976 from rfl, checkRoom_of_le more]
      rfl
    rw [refused, toDense?_of_roomy (by decide)]
    nofun
  · obtain ⟨y, product⟩ : ∃ y, thin.matmul ⟨1, 0, #[], rfl⟩ = .ok y := ⟨_, rfl⟩
    rw [toDense?_of_crowded (by decide), product]
    nofun
  · rw [toDense?_gatherNonzeros?, show wide.ncols = 1152921504606846976 from rfl, checkRoom_of_le more]
    nofun
  · rw [toDense?_copyDense?, show wide.ncols = 1152921504606846976 from rfl, checkRoom_of_le more]
    nofun

end SparseMatrix

end Products

end Cotangent
