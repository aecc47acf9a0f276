import Mathlib
import Cotangent.Factor.DenseLU
import Cotangent.Proofs.Entries
import Cotangent.Proofs.SparseExact

/-! Dense LU is exact in exact arithmetic. Both factors share one matrix. After every step the rows of
the matrix, in the order of the permutation so far, are those of the product of the finished parts of
the factors plus what is left to eliminate; after the last step nothing is left. -/
namespace Cotangent

open Matrix

/-! ## Triangular systems -/

namespace Triangular

section Order

variable {α : Type} [AddCommMonoid α] {n : Nat}

theorem sum_eq (f : Nat → α) (i : Fin n) : ∑ j : Fin n, f j =
    ((List.range i).map f).sum + f i + ((after n i).map f).sum := by
  calc ∑ j : Fin n, f j = ((List.range n).map f).sum := (Finset.sum_range f).symm
    _ = _ := by rw [range_split i, List.map_append, List.sum_append, List.map_cons, List.sum_cons,
      add_assoc]

/-- A sum of terms that are zero after an index. -/
theorem sum_before {f g : Nat → α} (i : Fin n) (same : ∀ j < (i : Nat), f j = g j)
    (zero : ∀ j > (i : Nat), f j = 0) :
    ∑ j : Fin n, f j = f i + ((List.range i).map g).sum := by
  have front : (List.range i).map f = (List.range i).map g :=
    List.map_congr_left fun j member => same j (List.mem_range.mp member)
  have back : ((after n i).map f).sum = 0 := by
    refine List.sum_eq_zero fun y member => ?_
    obtain ⟨j, here, rfl⟩ := List.mem_map.mp member
    exact zero j (mem_after.mp here).1
  rw [sum_eq f i, front, back, add_zero, add_comm]

/-- A sum of terms that are zero before an index. -/
theorem sum_after {f g : Nat → α} (i : Fin n) (same : ∀ j > (i : Nat), f j = g j)
    (zero : ∀ j < (i : Nat), f j = 0) :
    ∑ j : Fin n, f j = f i + ((after n i).map g).sum := by
  have back : (after n i).map f = (after n i).map g :=
    List.map_congr_left fun j member => same j (mem_after.mp member).1
  have front : ((List.range i).map f).sum = 0 := by
    refine List.sum_eq_zero fun y member => ?_
    obtain ⟨j, here, rfl⟩ := List.mem_map.mp member
    exact zero j (List.mem_range.mp here)
  rw [sum_eq f i, back, front, zero_add]

end Order

section Field

variable {α : Type} [FieldScalar α] {n : Nat} {l u : Nat → Nat → α} {b : Nat → α}

/-- What is below the diagonal, with a one on it. -/
def lowerEntry (l : Nat → Nat → α) (i j : Nat) : α :=
  if j < i then l i j else if j = i then 1 else 0

/-- What is on and above the diagonal. -/
def upperEntry (u : Nat → Nat → α) (i j : Nat) : α := if i ≤ j then u i j else 0

def unitLower (n : Nat) (l : Nat → Nat → α) : Matrix (Fin n) (Fin n) α :=
  .of fun i j => lowerEntry l i j

def upper (n : Nat) (u : Nat → Nat → α) : Matrix (Fin n) (Fin n) α :=
  .of fun i j => upperEntry u i j

theorem isLowerTriangular_unitLower : (unitLower n l).IsLowerTriangular := by
  intro i j above
  have less : (i : Nat) < j := above
  exact (if_neg less.not_gt).trans (if_neg less.ne')

theorem unitLower_self (i : Fin n) : unitLower n l i i = 1 := by simp [unitLower, lowerEntry]

theorem isUpperTriangular_upper : (upper n u).IsUpperTriangular := by
  intro i j below
  have less : (j : Nat) < i := below
  exact if_neg less.not_ge

theorem upper_self (i : Fin n) : upper n u i i = u i i := by simp [upper, upperEntry]

theorem unitLower_mulVec (x : Array α) (i : Fin n) : (unitLower n l *ᵥ entriesOf n x) i =
    x.getD i 0 + ((List.range i).map fun j => l i j * x.getD j 0).sum := by
  refine (sum_before (f := fun j => (if j < i then l i j else if j = i then 1 else 0) * x.getD j 0)
    i (fun j less => by rw [if_pos less]) fun j less => ?_).trans ?_
  · rw [if_neg less.not_gt, if_neg less.ne', zero_mul]
  · rw [if_neg (lt_irrefl _), if_pos rfl, one_mul]

theorem transpose_upper_mulVec (x : Array α) (i : Fin n) : ((upper n u)ᵀ *ᵥ entriesOf n x) i =
    u i i * x.getD i 0 + ((List.range i).map fun j => u j i * x.getD j 0).sum := by
  refine (sum_before (f := fun j => (if j ≤ i then u j i else 0) * x.getD j 0) i
    (fun j less => by rw [if_pos less.le]) fun j less => ?_).trans ?_
  · rw [if_neg less.not_ge, zero_mul]
  · rw [if_pos le_rfl]

theorem upper_mulVec (x : Array α) (i : Fin n) : (upper n u *ᵥ entriesOf n x) i =
    u i i * x.getD i 0 + ((after n i).map fun j => u i j * x.getD j 0).sum := by
  refine (sum_after (f := fun j => (if i ≤ j then u i j else 0) * x.getD j 0) i
    (fun j less => by rw [if_pos less.le]) fun j less => ?_).trans ?_
  · rw [if_neg less.not_ge, zero_mul]
  · rw [if_pos le_rfl]

theorem transpose_unitLower_mulVec (x : Array α) (i : Fin n) :
    ((unitLower n l)ᵀ *ᵥ entriesOf n x) i =
      x.getD i 0 + ((after n i).map fun j => l j i * x.getD j 0).sum := by
  refine (sum_after (f := fun j => (if i < j then l j i else if i = j then 1 else 0) * x.getD j 0)
    i (fun j less => by rw [if_pos less]) fun j less => ?_).trans ?_
  · rw [if_neg less.not_gt, if_neg less.ne', zero_mul]
  · rw [if_neg (lt_irrefl _), if_pos rfl, one_mul]

theorem sum_strictLower (l : Nat → Nat → α) (x : Nat → α) (i : Fin n) :
    ∑ j ∈ Finset.range n, (if j < (i : Nat) then l i j else 0) * x j =
      ((List.range i).map fun j => l i j * x j).sum := by
  rw [Finset.sum_range]
  refine (sum_before (f := fun j => (if j < i then l i j else 0) * x j) i
    (fun j less => by rw [if_pos less]) fun j less => by rw [if_neg less.not_gt, zero_mul]).trans ?_
  rw [if_neg (lt_irrefl _), zero_mul, zero_add]

theorem sum_strictUpper (u : Nat → Nat → α) (x : Nat → α) (i : Fin n) :
    ∑ j ∈ Finset.range n, (if (i : Nat) < j then u i j else 0) * x j =
      ((after n i).map fun j => u i j * x j).sum := by
  rw [Finset.sum_range]
  refine (sum_after (f := fun j => (if i < j then u i j else 0) * x j) i
    (fun j less => by rw [if_pos less]) fun j less => by rw [if_neg less.not_gt, zero_mul]).trans ?_
  rw [if_neg (lt_irrefl _), zero_mul, zero_add]

/-- Terms that are skipped are zero. -/
theorem foldl_sub_nonzero (xs : List Nat) (f y : Nat → α) (b : α) :
    xs.foldl (fun s j => if Scalar.isZero (y j) then s else s - f j * y j) b =
      b - (xs.map fun j => f j * y j).sum := by
  rw [← foldl_sub]
  refine congrArg (xs.foldl · b) (funext₂ fun s j => ?_)
  split
  next zero => rw [isZero_iff.mp zero, mul_zero, sub_zero]
  next => rfl

theorem mulVec_solveUnitLower (n : Nat) (l : Nat → Nat → α) (b : Nat → α) (i : Fin n) :
    (unitLower n l *ᵥ entriesOf n (solveUnitLower n l b)) i = b i := by
  obtain ⟨done, here, before⟩ := getD_ascending (fun i y => (List.range i).foldl
    (fun s j => if Scalar.isZero (y j) then s else s - l i j * y j) (b i)) i.isLt
  have known : ((List.range i).map fun j => l i j * done j) =
      (List.range i).map fun j => l i j * (solveUnitLower n l b).getD j 0 :=
    List.map_congr_left fun j member => by rw [before j (List.mem_range.mp member)]; rfl
  rw [foldl_sub_nonzero, known] at here
  rw [unitLower_mulVec, solveUnitLower, here]
  exact sub_add_cancel _ _

/-- The entries from the last to the first resolve the system of `U`, whatever the diagonal is. -/
theorem resolves_solveUpper (n : Nat) (u : Nat → Nat → α) (b : Nat → α) :
    Resolves n (fun i => u i i) (fun i j => if i < j then u i j else 0) b (solveUpper n u b) := by
  intro i inside
  obtain ⟨done, here, later⟩ := getD_descending (fun i x =>
    (after n i).reverse.foldl (fun s j => s - u i j * x j) (b i) / u i i) inside
  have known : ((after n i).map fun j => u i j * done j) =
      (after n i).map fun j => u i j * (solveUpper n u b).getD j 0 :=
    List.map_congr_left fun j member => by
      rw [later j (mem_after.mp member).2 (mem_after.mp member).1]
      rfl
  rw [foldl_sub, List.map_reverse, List.sum_reverse, known] at here
  rw [sum_strictUpper u _ ⟨i, inside⟩]
  exact here

theorem mulVec_solveUpper (u : Nat → Nat → α) (b : Nat → α) (nonzero : ∀ i < n, u i i ≠ 0)
    (i : Fin n) : (upper n u *ᵥ entriesOf n (solveUpper n u b)) i = b i := by
  rw [upper_mulVec, ← sum_strictUpper]
  exact ((resolves_solveUpper n u b).equation i.isLt (nonzero i i.isLt)).symm

/-- The entries from the first to the last resolve the system of `Uᵀ`. -/
theorem resolves_solveUpperTransposed (n : Nat) (u : Nat → Nat → α) (b : Nat → α) :
    Resolves n (fun i => u i i) (fun i j => if j < i then u j i else 0) b
      (solveUpperTransposed n u b) := by
  intro i inside
  obtain ⟨done, here, before⟩ := getD_ascending (fun i z =>
    (List.range i).foldl (fun s k => s - u k i * z k) (b i) / u i i) inside
  have known : ((List.range i).map fun j => u j i * done j) =
      (List.range i).map fun j => u j i * (solveUpperTransposed n u b).getD j 0 :=
    List.map_congr_left fun j member => by rw [before j (List.mem_range.mp member)]; rfl
  rw [foldl_sub, known] at here
  rw [sum_strictLower (fun i j => u j i) _ ⟨i, inside⟩]
  exact here

theorem mulVec_solveUpperTransposed (u : Nat → Nat → α) (b : Nat → α)
    (nonzero : ∀ i < n, u i i ≠ 0) (i : Fin n) :
    ((upper n u)ᵀ *ᵥ entriesOf n (solveUpperTransposed n u b)) i = b i := by
  rw [transpose_upper_mulVec, ← sum_strictLower fun i j => u j i]
  exact ((resolves_solveUpperTransposed n u b).equation i.isLt (nonzero i i.isLt)).symm

theorem mulVec_solveUnitLowerTransposed (n : Nat) (l : Nat → Nat → α) (b : Nat → α) (i : Fin n) :
    ((unitLower n l)ᵀ *ᵥ entriesOf n (solveUnitLowerTransposed n l b)) i = b i := by
  obtain ⟨done, here, later⟩ := getD_descending (fun i w =>
    (after n i).foldl (fun s k => s - l k i * w k) (b i)) i.isLt
  have known : ((after n i).map fun j => l j i * done j) =
      (after n i).map fun j => l j i * (solveUnitLowerTransposed n l b).getD j 0 :=
    List.map_congr_left fun j member => by
      rw [later j (mem_after.mp member).2 (mem_after.mp member).1]
      rfl
  rw [foldl_sub, known] at here
  rw [transpose_unitLower_mulVec, solveUnitLowerTransposed, here]
  exact sub_add_cancel _ _

end Field

end Triangular

/-! ## Pivots -/

namespace Factor

/-- No weight in the range is larger. -/
theorem le_firstMax {α : Type} [FieldScalar α] [LinearOrder α] [OrderedScalar α] (weight : Nat → α)
    {start stop i : Nat} (from_start : start ≤ i) (below : i < stop) :
    weight i ≤ (firstMax weight start stop).2 := by
  have largest : ∀ i, i = start ∨ i ∈ List.range' (start + 1) (stop - (start + 1)) →
      weight i ≤ (firstMax weight start stop).2 := by
    refine foldl_keeps (P := fun done (best : Nat × α) => ∀ i, i = start ∨ i ∈ done →
      weight i ≤ best.2) (by simp) ?_
    intro done x rest best _ kept i member
    dsimp only
    have both : best.2 ≤ (if Scalar.lt best.2 (weight x) then (x, weight x) else best).2 ∧
        weight x ≤ (if Scalar.lt best.2 (weight x) then (x, weight x) else best).2 := by
      split
      · next larger => exact ⟨((OrderedScalar.lt_iff _ _).mp larger).le, le_rfl⟩
      · next smaller => exact ⟨le_rfl, not_lt.mp (mt (OrderedScalar.lt_iff _ _).mpr smaller)⟩
    rw [List.mem_append, List.mem_singleton, ← or_assoc] at member
    rcases member with earlier | here
    · exact (kept i earlier).trans both.1
    · exact here ▸ both.2
  refine largest i ?_
  rw [List.mem_range'_1]
  omega

theorem Lists.mulVec_permute {α : Type} [FieldScalar α] {n : Nat} {perm : Array Nat}
    {π : Equiv.Perm (Fin n)} (lists : Lists perm π)
    (m : Matrix (Fin n) (Fin n) α) (y : Array α) :
    m *ᵥ entriesOf n (Factor.permute perm y) = m.submatrix id π *ᵥ entriesOf n y := by
  funext i
  refine (Equiv.sum_comp π fun j => m i j * entriesOf n (Factor.permute perm y) j).symm.trans ?_
  exact Finset.sum_congr rfl fun k _ => congrArg (m i (π k) * ·) (lists.permute y k)

end Factor

/-! ## The elimination -/

namespace DenseLU

open Triangular Factor

section Steps

variable {α : Type} [FieldScalar α] {n k p : Nat} {f t : DenseLU α} {π : Equiv.Perm (Fin n)}

/-- After `k` steps the rows of a matrix, in their new order, are those of the product of the
finished parts of the factors plus what is left. -/
structure Reduces (f : DenseLU α) (a : Nat → Nat → α) (k : Nat) (π : Equiv.Perm (Fin n)) :
    Prop where
  shape : f.packed.shape = (n, n)
  lists : Lists f.perm π
  product : ∀ i j : Fin n, a (π i) j =
    ∑ m ∈ Finset.range k, lowerEntry f.packed.entry i m * upperEntry f.packed.entry m j +
      if k ≤ i ∧ k ≤ j then f.packed.entry i j else 0
  pivots : ∀ m < k, f.packed.entry m m ≠ 0

/-- What step `k` does: row `p` comes to its place, the pivot divides its column, and multiples of its
row are taken off what is left. -/
structure Eliminates (f t : DenseLU α) (n k p : Nat) : Prop where
  from_k : k ≤ p
  below_n : p < n
  perm : t.perm = f.perm.swapIfInBounds k p
  shape : t.packed.shape = (n, n)
  pivot : f.packed.entry p k ≠ 0
  moved : ∀ i < n, ∀ j < n, i ≤ k ∨ j < k →
    t.packed.entry i j = f.packed.entry (exchange k p i) j
  multiplier : ∀ i < n, k < i →
    t.packed.entry i k = f.packed.entry (exchange k p i) k / f.packed.entry p k
  reduced : ∀ i < n, ∀ j < n, k < i → k < j → t.packed.entry i j =
    f.packed.entry (exchange k p i) j - t.packed.entry i k * f.packed.entry p j

namespace Eliminates

variable {i j m : Nat}

theorem exchange_of_lt (step : Eliminates f t n k p) (small : m < k) : exchange k p m = m := by
  rw [exchange, if_neg small.ne, if_neg (small.trans_le step.from_k).ne]

theorem le_exchange_iff (step : Eliminates f t n k p) : k ≤ exchange k p i ↔ k ≤ i := by
  have from_k := step.from_k
  unfold exchange
  split
  · omega
  · split <;> omega

/-- Finished rows stay. -/
theorem row (step : Eliminates f t n k p) (below : k < n) (small : m < k) (hj : j < n) :
    t.packed.entry m j = f.packed.entry m j := by
  rw [step.moved m (small.trans below) j hj (.inl small.le), step.exchange_of_lt small]

theorem pivotRow (step : Eliminates f t n k p) (below : k < n) (hj : j < n) :
    t.packed.entry k j = f.packed.entry p j := by
  rw [step.moved k below j hj (.inl le_rfl), exchange, if_pos rfl]

/-- Finished parts of the factors move with their rows. -/
theorem finished (step : Eliminates f t n k p) (below : k < n) (small : m < k) (hi : i < n)
    (hj : j < n) : lowerEntry t.packed.entry i m * upperEntry t.packed.entry m j =
      lowerEntry f.packed.entry (exchange k p i) m * upperEntry f.packed.entry m j := by
  have left : lowerEntry t.packed.entry i m = lowerEntry f.packed.entry (exchange k p i) m := by
    by_cases above : i < k
    · rw [step.exchange_of_lt above, lowerEntry, lowerEntry,
        step.row below above (small.trans below)]
    · have later := not_lt.mp above
      have later' : k ≤ exchange k p i := step.le_exchange_iff.mpr later
      rw [lowerEntry, if_pos (small.trans_le later), lowerEntry, if_pos (small.trans_le later'),
        step.moved i hi m (small.trans below) (.inr small)]
  rw [left, upperEntry, upperEntry, step.row below small hj]

/-- What was left is the new parts of the factors and what is left now. -/
theorem left_over (step : Eliminates f t n k p) (below : k < n) (hi : i < n) (hj : j < n) :
    (if k ≤ i ∧ k ≤ j then f.packed.entry (exchange k p i) j else 0) =
      lowerEntry t.packed.entry i k * upperEntry t.packed.entry k j +
        if k + 1 ≤ i ∧ k + 1 ≤ j then t.packed.entry i j else 0 := by
  unfold lowerEntry upperEntry
  rw [step.pivotRow below hj]
  rcases lt_trichotomy i k with above | rfl | under
  · rw [if_neg fun h => absurd h.1 above.not_ge, if_neg above.not_gt, if_neg above.ne', zero_mul,
      if_neg fun h => absurd h.1 (above.trans k.lt_succ_self).not_ge, add_zero]
  · rw [exchange, if_pos rfl, if_neg (lt_irrefl i), if_pos rfl, one_mul]
    simp only [le_refl, true_and, Nat.not_succ_le_self, false_and, if_false, add_zero]
  · rw [if_pos under]
    simp only [under.le, Nat.succ_le_of_lt under, true_and]
    rcases lt_trichotomy j k with before | rfl | later
    · rw [if_neg before.not_ge, if_neg before.not_ge, mul_zero,
        if_neg (before.trans k.lt_succ_self).not_ge, add_zero]
    · rw [if_pos le_rfl, if_pos le_rfl, if_neg (Nat.not_succ_le_self j), add_zero,
        step.multiplier i hi under, div_mul_cancel₀ _ step.pivot]
    · rw [if_pos later.le, if_pos later.le, if_pos (Nat.succ_le_of_lt later),
        step.reduced i hi j hj under later, add_sub_cancel]

end Eliminates

theorem Reduces.extend {a : Nat → Nat → α} (reduces : f.Reduces a k π) (below : k < n)
    (step : Eliminates f t n k p) :
    t.Reduces a (k + 1) (π * Equiv.swap ⟨k, below⟩ ⟨p, step.below_n⟩) := by
  refine ⟨step.shape, step.perm ▸ reduces.lists.swap ⟨k, below⟩ ⟨p, step.below_n⟩, fun i j => ?_,
    fun m small => ?_⟩
  · have known := reduces.product (Equiv.swap ⟨k, below⟩ ⟨p, step.below_n⟩ i) j
    simp only [swap_val, step.le_exchange_iff] at known
    rw [Equiv.Perm.mul_apply, known, Finset.sum_range_succ, add_assoc,
      step.left_over below i.isLt j.isLt]
    congr 1
    exact Finset.sum_congr rfl fun m member =>
      (step.finished below (Finset.mem_range.mp member) i.isLt j.isLt).symm
  · rcases Nat.lt_succ_iff_lt_or_eq.mp small with earlier | rfl
    · rw [step.row below earlier (earlier.trans below)]
      exact reduces.pivots m earlier
    · rw [step.pivotRow below below]
      exact step.pivot

/-! ## The factors -/

variable {m : SparseMatrix α}

/-- The rows of the matrix in their new order are those of the product of the factors. -/
theorem Reduces.permuted (reduces : f.Reduces m.entry n π) :
    Equiv.Perm.permMatrix α π * m.matrix n =
      unitLower n f.packed.entry * upper n f.packed.entry := by
  rw [PEquiv.toMatrix_toPEquiv_mul]
  ext i j
  have known := reduces.product i j
  rw [if_neg fun h => absurd h.1 i.isLt.not_ge, add_zero, Finset.sum_range] at known
  exact known

theorem Reduces.det_ne_zero (reduces : f.Reduces m.entry n π) : (m.matrix n).det ≠ 0 := by
  refine det_ne_zero_of_product (σ := π.symm) reduces.permuted isLowerTriangular_unitLower
    unitLower_self isUpperTriangular_upper fun i => ?_
  rw [upper_self]
  exact reduces.pivots i i.isLt

theorem Reduces.solves (reduces : f.Reduces m.entry n π) :
    Factor.Solves (m.matrix n) fun nrhs transposed rhs => f.solve nrhs transposed rhs := by
  have order : f.order = n := congrArg Prod.fst reduces.shape
  have product : Equiv.Perm.permMatrix α π.symm.symm * m.matrix n =
      unitLower n f.packed.entry * upper n f.packed.entry := reduces.permuted
  have solved := solves_eachColumn reduces.det_ne_zero
    (fun transposed => if transposed then f.solveColumnTransposed else f.solveColumn) ?_ ?_
  · intro size nrhs transposed rhs full
    dsimp only [solve]
    rw [order]
    exact solved size nrhs transposed rhs full
  · intro b _
    refine mulVec_of_product product (fun i => ?_) (funext fun i => ?_)
      (y := entriesOf n (solveUnitLower n f.packed.entry fun i => b.getD (f.perm.getD i 0) 0))
    · rw [mulVec_solveUnitLower, reduces.lists.value, Equiv.apply_symm_apply]
      rfl
    · simp only [Bool.false_eq_true, if_false, solveColumn, order]
      exact mulVec_solveUpper _ _ reduces.pivots i
  · intro b _
    have placed : entriesOf n (f.solveColumnTransposed b) = fun i =>
        entriesOf n (solveUnitLowerTransposed n f.packed.entry
          ((solveUpperTransposed n f.packed.entry (b.getD · 0)).getD · 0)) (π.symm i) := by
      funext i
      have there := reduces.lists.permute (solveUnitLowerTransposed n f.packed.entry
        ((solveUpperTransposed n f.packed.entry (b.getD · 0)).getD · 0)) (π.symm i)
      rw [Equiv.apply_symm_apply] at there
      simp only [solveColumnTransposed, order]
      exact there
    simp only [if_true]
    rw [placed]
    exact transpose_mulVec_of_product product
      (funext (mulVec_solveUpperTransposed _ _ reduces.pivots))
      (funext (mulVec_solveUnitLowerTransposed n _ _))

end Steps

end DenseLU

end Cotangent
