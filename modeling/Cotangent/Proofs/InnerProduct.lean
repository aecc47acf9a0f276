import Mathlib.Algebra.BigOperators.Intervals
import Mathlib.Tactic.Ring
import Cotangent.Matrix.Arithmetic
import Cotangent.Proofs.ExactScalar

/-! The inner product of matrices, entry by entry, and of lists of matrices, one by one. A missing
contribution counts as zero. -/
namespace Cotangent

open Finset (range)

variable {α : Type} [RingScalar α]

namespace DenseMatrix

/-- The sum of the products of entries at one place. -/
def inner (a b : DenseMatrix α) : α := (List.zipWith (· * ·) a.data.toList b.data.toList).sum

variable {a x m y : DenseMatrix α}

theorem inner_comm (a b : DenseMatrix α) : a.inner b = b.inner a := by
  unfold inner
  rw [List.zipWith_comm]
  simp only [mul_comm]

theorem sum_zipWith_zero (count : Nat) (xs : List α) :
    (List.zipWith (· * ·) (List.replicate count 0) xs).sum = 0 := by
  induction count generalizing xs with
  | zero => simp
  | succ count ih =>
    cases xs with
    | nil => simp
    | cons x xs => simp [List.replicate_succ, ih]

@[simp] theorem inner_fill_zero_left (shape : Shape) (b : DenseMatrix α) :
    (fill shape 0).inner b = 0 := by
  simpa [inner, fill] using sum_zipWith_zero _ b.data.toList

@[simp] theorem inner_fill_zero_right (shape : Shape) (a : DenseMatrix α) :
    a.inner (fill shape 0) = 0 := by
  rw [inner_comm, inner_fill_zero_left]

theorem sum_zipWith_mul_add (as xs ms : List α) (length : ms.length = xs.length) :
    (List.zipWith (· * ·) as (List.zipWith (· + ·) xs ms)).sum =
      (List.zipWith (· * ·) as xs).sum + (List.zipWith (· * ·) as ms).sum := by
  induction as generalizing xs ms with
  | nil => simp
  | cons a as ih =>
    cases xs with
    | nil => simp_all
    | cons x xs =>
      cases ms with
      | nil => simp at length
      | cons m ms =>
        have rest := ih xs ms (by simpa using length)
        simp only [List.zipWith_cons_cons, List.sum_cons, rest]
        ring

/-- What is added to a matrix is added to its inner products. -/
theorem inner_accumulate (added : x.accumulate m = .ok y) : a.inner y = a.inner x + a.inner m := by
  unfold accumulate at added
  split at added
  · next same =>
    cases added
    have length : m.data.toList.length = x.data.toList.length := by
      simp only [shape, Prod.mk.injEq] at same
      simp [m.size_data, x.size_data, same.1, same.2]
    simpa [inner] using sum_zipWith_mul_add a.data.toList _ _ length
  · cases added

theorem sum_zipWith_mul (xs ys : List α) : (List.zipWith (· * ·) xs ys).sum =
    ∑ k ∈ range xs.length, xs.getD k 0 * ys.getD k 0 := by
  induction xs generalizing ys with
  | nil => simp
  | cons x xs ih =>
    rw [List.length_cons, Finset.sum_range_succ']
    cases ys with
    | nil => simp
    | cons y ys => simp [ih, add_comm]

/-- Element `k` of the data, column by column. -/
def vec (m : DenseMatrix α) (k : Nat) : α := m.data.getD k 0

theorem inner_eq_sum (a b : DenseMatrix α) :
    a.inner b = ∑ k ∈ range a.shape.elements, a.vec k * b.vec k := by
  simp only [inner, sum_zipWith_mul, Array.length_toList, a.size_data, vec, Array.getD_eq_getD_getElem?,
    List.getD_eq_getElem?_getD, Array.getElem?_toList]
  rfl

theorem sum_range_mul (f : Nat → α) (r c : Nat) :
    ∑ k ∈ range (r * c), f k = ∑ j ∈ range c, ∑ i ∈ range r, f (j * r + i) := by
  induction c with
  | zero => simp
  | succ c ih => rw [Nat.mul_succ, Finset.sum_range_add, ih, Finset.sum_range_succ, Nat.mul_comm r c]

/-- The products of entries, column by column. -/
theorem inner_eq_entries (a : DenseMatrix α) {b : DenseMatrix α} (rows : b.nrows = a.nrows) :
    a.inner b = ∑ j ∈ range a.ncols, ∑ i ∈ range a.nrows, a.entry i j * b.entry i j := by
  rw [inner_eq_sum]
  refine (sum_range_mul (fun k => a.vec k * b.vec k) a.nrows a.ncols).trans ?_
  simp only [vec, entry, rows]

/-- A one at one element and zeros elsewhere. -/
def unit (shape : Shape) (k : Nat) : DenseMatrix α :=
  ⟨shape.1, shape.2, (Array.replicate (shape.1 * shape.2) 0).setIfInBounds k 1, by simp⟩

theorem vec_unit (shape : Shape) {k : Nat} (inside : k < shape.elements) (j : Nat) :
    (unit shape k : DenseMatrix α).vec j = if j = k then 1 else 0 := by
  unfold vec unit
  by_cases same : j = k
  · subst same
    have inside : j < shape.1 * shape.2 := inside
    simp [inside]
  · simp only [Array.getD_eq_getD_getElem?, Array.getElem?_setIfInBounds_ne (Ne.symm same), if_neg same]
    by_cases within : j < shape.1 * shape.2 <;> simp [within]

/-- The inner product with such a matrix reads one element. -/
theorem inner_unit (m : DenseMatrix α) {k : Nat} (inside : k < m.shape.elements) :
    m.inner (unit m.shape k) = m.vec k := by
  rw [inner_eq_sum, Finset.sum_eq_single_of_mem k (Finset.mem_range.mpr inside)]
  · rw [vec_unit _ inside, if_pos rfl, mul_one]
  · intro j _ other
    rw [vec_unit _ inside, if_neg other, mul_zero]

end DenseMatrix

/-- The inner product of two lists of matrices. -/
def pairing (xs ys : List (DenseMatrix α)) : α := (List.zipWith DenseMatrix.inner xs ys).sum

theorem pairing_one (u w : DenseMatrix α) : pairing [u] [w] = u.inner w := by
  simp [pairing]

theorem pairing_two (u u' w w' : DenseMatrix α) :
    pairing [u, u'] [w, w'] = u.inner w + u'.inner w' := by
  simp [pairing]

theorem pairing_comm (xs ys : List (DenseMatrix α)) : pairing xs ys = pairing ys xs := by
  rw [pairing, List.zipWith_comm]
  simp only [DenseMatrix.inner_comm, pairing]

theorem pairing_map_range (F G : Nat → DenseMatrix α) (n : Nat) :
    pairing ((List.range n).map F) ((List.range n).map G) =
      ∑ k ∈ Finset.range n, (F k).inner (G k) := by
  induction n with
  | zero => rfl
  | succ n ih =>
    rw [Finset.sum_range_succ, ← ih]
    simp [pairing, List.range_succ, List.zipWith_append]

/-- All matrices of a list but one are zero. -/
def ZeroBut (i : Nat) (ms : List (DenseMatrix α)) : Prop :=
  ∀ (j : Nat) m, ms[j]? = some m → j ≠ i → m = .fill m.shape 0

theorem pairing_zero {xs ms : List (DenseMatrix α)} (zero : ∀ m ∈ ms, m = .fill m.shape 0) :
    pairing xs ms = 0 := by
  induction xs generalizing ms with
  | nil => rfl
  | cons x xs ih =>
    cases ms with
    | nil => rfl
    | cons m ms =>
      obtain ⟨first, others⟩ := List.forall_mem_cons.mp zero
      have rest := ih others
      rw [pairing] at rest ⊢
      rw [List.zipWith_cons_cons, List.sum_cons, rest, first, DenseMatrix.inner_fill_zero_right, add_zero]

/-- Matrices pair with such a list as with the one of its matrices that counts. -/
theorem pairing_of_zeroBut {i : Nat} {xs ms : List (DenseMatrix α)} {x m : DenseMatrix α}
    (zero : ZeroBut i ms) (at_xs : xs[i]? = some x) (at_ms : ms[i]? = some m) :
    pairing xs ms = x.inner m := by
  induction i generalizing xs ms with
  | zero =>
    obtain ⟨xs, rfl⟩ : ∃ rest, xs = x :: rest := by cases xs <;> simp_all
    obtain ⟨ms, rfl⟩ : ∃ rest, ms = m :: rest := by cases ms <;> simp_all
    have rest : pairing xs ms = 0 := by
      refine pairing_zero fun m' member => ?_
      obtain ⟨j, at_j⟩ := List.mem_iff_getElem?.mp member
      exact zero (j + 1) m' at_j (Nat.succ_ne_zero j)
    rw [pairing] at rest ⊢
    rw [List.zipWith_cons_cons, List.sum_cons, rest, add_zero]
  | succ i ih =>
    cases xs with
    | nil => cases at_xs
    | cons x' xs =>
      cases ms with
      | nil => cases at_ms
      | cons m' ms =>
        have rest := ih (fun j m at_j other => zero (j + 1) m at_j (by simpa using other)) at_xs at_ms
        have first := zero 0 m' rfl (Nat.succ_ne_zero i).symm
        rw [pairing] at rest ⊢
        rw [List.zipWith_cons_cons, List.sum_cons, rest, first, DenseMatrix.inner_fill_zero_right,
          zero_add]

/-- The inner product of a matrix with a contribution, which is zero if there is none. -/
def innerOption (x : DenseMatrix α) (contribution : Option (DenseMatrix α)) : α :=
  (contribution.map x.inner).getD 0

/-- The inner product of a list of matrices with contributions. -/
def pairingOptions (xs : List (DenseMatrix α)) (contributions : List (Option (DenseMatrix α))) :
    α :=
  (List.zipWith innerOption xs contributions).sum

end Cotangent
