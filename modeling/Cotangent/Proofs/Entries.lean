import Mathlib
import Cotangent.Proofs.Blocks
import Cotangent.Proofs.Coefficients
import Cotangent.Proofs.InnerProduct
import Cotangent.Proofs.Positions

/-! Entries of results in exact arithmetic. What an operation on whole matrices does is told by the
entries of its result: a sum of products for products, dense or sparse, the entries of one operand or
its only entry for entrywise operations. -/
namespace Cotangent

section Ring

variable {α : Type} [RingScalar α]

theorem Scalar.sum_eq (xs : List α) : Scalar.sum xs = xs.sum := by
  have folded (x : α) : xs.foldl (· + ·) x = x + xs.sum := by
    induction xs generalizing x with
    | nil => simp
    | cons y xs ih => rw [List.foldl_cons, ih, List.sum_cons, add_assoc]
  rw [Scalar.sum, folded, neg_zero, zero_add]

namespace DenseMatrix

variable {a b m y : DenseMatrix α} {r c i j k : Nat}

/-- The entry that stands at a place when a one by one matrix fits every shape. -/
def broadcast (m : DenseMatrix α) (i j : Nat) : α :=
  if m.shape = (1, 1) then m.entry 0 0 else m.entry i j

theorem broadcast_of_lt (hi : i < m.nrows) (hj : j < m.ncols) : m.broadcast i j = m.entry i j := by
  unfold broadcast
  split
  · next one =>
    obtain ⟨rows, columns⟩ := Prod.mk.inj one
    obtain rfl : i = 0 := by omega
    obtain rfl : j = 0 := by omega
    rfl
  · rfl

theorem scalar?_eq_some {x : α} (read : m.scalar? = some x) :
    m.shape = (1, 1) ∧ m.entry 0 0 = x := by
  unfold scalar? isScalar at read
  split at read
  · next one =>
    simp only [Bool.and_eq_true, beq_iff_eq] at one
    exact ⟨Prod.ext one.1 one.2, entry_eq_of_getElem? (by simpa using read)⟩
  · cases read

theorem entry_zipMap {f : α → α → α} (zipped : a.zipMap f b = .ok y) (hi : i < y.nrows)
    (hj : j < y.ncols) : y.entry i j = f (a.broadcast i j) (b.broadcast i j) := by
  unfold zipMap at zipped
  split at zipped
  · next same =>
    cases zipped
    obtain ⟨rows, columns⟩ := Prod.mk.inj same
    rw [broadcast_of_lt (m := a) hi hj, broadcast_of_lt (m := b) (rows ▸ hi) (columns ▸ hj)]
    exact entry_of_zipWith same.symm rfl rfl hi hj
  · next other =>
    split at zipped
    · next x read =>
      cases zipped
      obtain ⟨one, entry⟩ := scalar?_eq_some read
      rw [broadcast, if_pos one, entry, broadcast_of_lt (m := b) hi hj]
      exact entry_map (f x) hi hj
    · next x _ read =>
      cases zipped
      obtain ⟨one, entry⟩ := scalar?_eq_some read
      rw [broadcast_of_lt (m := a) hi hj, broadcast, if_pos one, entry]
      exact entry_map (f · x) hi hj
    · cases zipped

theorem broadcast_of_shape {s : Shape} (fits : m.shape = s) (hi : i < s.1) (hj : j < s.2) :
    m.broadcast i j = m.entry i j := by
  subst fits
  exact broadcast_of_lt hi hj

theorem entry_zipMap_of_shape {f : α → α → α} {s : Shape} (zipped : a.zipMap f b = .ok y)
    (fits : y.shape = s) (hi : i < s.1) (hj : j < s.2) :
    y.entry i j = f (a.broadcast i j) (b.broadcast i j) := by
  subst fits
  exact entry_zipMap zipped hi hj

theorem accumulate_eq_ok (added : a.accumulate b = .ok y) :
    b.shape = a.shape ∧ y.shape = a.shape ∧ ∀ i < a.nrows, ∀ j < a.ncols,
      y.entry i j = a.entry i j + b.entry i j := by
  unfold accumulate at added
  split at added
  · next same =>
    cases added
    exact ⟨same, rfl, fun i hi j hj => entry_of_zipWith same rfl rfl hi hj⟩
  · cases added

/-- Terms that are left out are zero. -/
theorem foldl_add_nonzero (xs : List Nat) (f g : Nat → α) (x : α) :
    xs.foldl (fun acc p => if Scalar.isZero (g p) then acc else acc + f p * g p) x =
      x + (xs.map fun p => f p * g p).sum := by
  induction xs generalizing x with
  | nil => simp
  | cons p xs ih =>
    rw [List.foldl_cons, ih, List.map_cons, List.sum_cons, ← add_assoc]
    split
    · next zero => rw [isZero_iff.mp zero, mul_zero, add_zero]
    · rfl

theorem dot_eq (inner : Nat) (left right : Nat → α) :
    dot inner left right = ∑ p ∈ Finset.range inner, left p * right p :=
  (foldl_add_nonzero (List.range inner) left right 0).trans (zero_add _)

theorem matmul_eq_ok (product : a.matmul b = .ok y) :
    a.ncols = b.nrows ∧ y.shape = (a.nrows, b.ncols) ∧ ∀ i < a.nrows, ∀ j < b.ncols,
      y.entry i j = ∑ p ∈ Finset.range a.ncols, a.entry i p * b.entry p j := by
  unfold matmul at product
  split at product
  · next inner =>
    obtain ⟨_, -, rfl⟩ := Outcome.map_eq_ok.mp product
    exact ⟨inner, rfl, fun i hi j hj => (entry_ofFn hi hj _).trans (dot_eq _ _ _)⟩
  · cases product

theorem sum_eq (m : DenseMatrix α) :
    m.sum = ∑ j ∈ Finset.range m.ncols, ∑ i ∈ Finset.range m.nrows, m.entry i j := by
  have listed : m.data.toList = (List.range (m.nrows * m.ncols)).map m.vec := by
    refine List.ext_getElem (by simp [m.size_data]) fun k inside _ => ?_
    simp [vec, show k < m.data.size from inside]
  rw [sum, Scalar.sum_eq, listed]
  exact sum_range_mul m.vec m.nrows m.ncols

end DenseMatrix

namespace SparseMatrix

variable {a : SparseMatrix α} {i j : Nat}

/-- A sampled matrix has the entries of the rule at the positions of the pattern. -/
theorem entry_sample (p : Pattern) (f : Nat → Nat → α) (i j : Nat) :
    (sample p f).entry i j = if i ∈ p.col j then f i j else 0 := by
  unfold entry Pattern.position?
  cases found : (p.col j).idxOf? i with
  | none =>
    have outside : i ∉ p.col j := List.idxOf?_eq_none_iff.mp found
    simp [sample, found, outside]
  | some k =>
    obtain ⟨inside, here, -⟩ := List.idxOf?_eq_some_iff.mp found
    have member : i ∈ p.col j := here ▸ List.getElem_mem inside
    simp [sample, found, member, Pattern.getElem?_cells inside, Array.getD_eq_getD_getElem?, here]

theorem entry_of_not_mem (outside : i ∉ a.pattern.col j) :
    a.entry i j = 0 := by
  simp [entry, Pattern.position?, List.idxOf?_eq_none_iff.mpr outside]

theorem entry_transpose (a : SparseMatrix α) (i j : Nat) :
    a.transpose.entry i j = a.entry j i := by
  rw [transpose, entry_sample, ite_eq_left_iff, Pattern.mem_col_transpose]
  exact fun outside => (entry_of_not_mem outside).symm

theorem entry_toDense (hi : i < a.nrows) (hj : j < a.ncols) : a.toDense.entry i j = a.entry i j := by
  have nodup : ((a.col j).map (·.1)).Nodup := by
    rw [map_fst_col]
    exact (a.pattern.isColumn_col j).1.imp Nat.ne_of_lt
  rw [toDense, DenseMatrix.entry_ofColumnFn hi hj, ← coefficient_col]
  exact getD_foldl_set nodup (by simpa using hi) (by simp [Array.getD_eq_getD_getElem?, hi])

/-- A multiple of a column added to an array. -/
theorem getD_foldl_add (cells : List (Nat × α)) (x : α) {y : Array α} (inside : i < y.size) :
    (cells.foldl (fun y cell => y.modify cell.1 (· + cell.2 * x)) y).getD i 0 =
      y.getD i 0 + coefficient cells i * x := by
  have taken (y : Array α) (cell : Nat × α) : y.modify cell.1 (· + cell.2 * x) =
      y.modify cell.1 (· - cell.2 * -x) :=
    congrArg (y.modify cell.1) (funext fun v => by rw [mul_neg, sub_neg_eq_add])
  simp only [taken]
  rw [getD_foldl_modify cells (-x) inside, mul_neg, sub_neg_eq_add]

theorem getD_mulColumn (x : Nat → α) (hi : i < a.nrows) :
    (a.mulColumn x).getD i 0 = ∑ j ∈ Finset.range a.ncols, a.entry i j * x j := by
  suffices (a.mulColumn x).size = a.nrows ∧ (a.mulColumn x).getD i 0 =
      ((List.range a.ncols).map fun j => a.entry i j * x j).sum from this.2
  refine foldl_keeps (P := fun done (y : Array α) => y.size = a.nrows ∧
    y.getD i 0 = (done.map fun j => a.entry i j * x j).sum)
    ⟨by simp, by simp [Array.getD_eq_getD_getElem?, hi]⟩ ?_
  rintro done j rest y - ⟨size, kept⟩
  dsimp only
  rw [List.map_append, List.sum_append, List.map_singleton, List.sum_singleton, ← kept]
  split
  · next zero => exact ⟨size, by rw [isZero_iff.mp zero, mul_zero, add_zero]⟩
  · refine ⟨(size_foldl fun y cell => Array.size_modify).trans size, ?_⟩
    rw [← coefficient_col]
    exact getD_foldl_add (a.col j) (x j) (size.symm ▸ hi)

theorem matmul_eq_ok {x y : DenseMatrix α} (product : a.matmul x = .ok y) :
    x.nrows = a.ncols ∧ y.shape = (a.nrows, x.ncols) ∧ ∀ i < a.nrows, ∀ j < x.ncols,
      y.entry i j = ∑ p ∈ Finset.range a.ncols, a.entry i p * x.entry p j := by
  unfold matmul at product
  split at product
  · next inner =>
    obtain ⟨_, -, rfl⟩ := Outcome.map_eq_ok.mp product
    exact ⟨inner, rfl, fun i hi j hj =>
      (DenseMatrix.entry_ofColumnFn hi hj).trans (getD_mulColumn _ hi)⟩
  · cases product

end SparseMatrix

end Ring

end Cotangent
