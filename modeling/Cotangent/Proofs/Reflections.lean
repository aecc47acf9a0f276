import Mathlib
import Cotangent.Factor.QR
import Cotangent.Proofs.DenseFactors

/-! QR is exact where square roots are. A step reflects the largest rest of a column onto its first
entry; a reflection is symmetric and its own inverse. So the product of the reflections is orthogonal
and takes the matrix, its columns in their new order, to an upper triangle, also when the matrix is
singular. Where the rank is full the triangle can be solved. -/
namespace Cotangent

open Matrix

namespace Reflector

variable {α : Type} [FieldScalar α] {n k : Nat} {r : Reflector α}

/-- The direction as a vector of all entries. -/
def vector (r : Reflector α) (n k : Nat) : Fin n → α :=
  fun i => if (i : Nat) < k then 0 else r.direction.getD (i - k) 0

/-- The reflection as a matrix. -/
def matrix (r : Reflector α) (n k : Nat) : Matrix (Fin n) (Fin n) α :=
  1 - r.beta • vecMulVec (r.vector n k) (r.vector n k)

/-- The direction has an entry for every index from `k` on, and its factor makes a reflection of it, or
nothing. -/
structure Reflects (r : Reflector α) (n k : Nat) : Prop where
  length : r.direction.length = n - k
  factor : r.beta = 0 ∨ r.beta * (r.vector n k ⬝ᵥ r.vector n k) = 1 + 1

theorem matrix_mulVec (r : Reflector α) (n k : Nat) (x : Fin n → α) :
    r.matrix n k *ᵥ x = x - (r.beta * (r.vector n k ⬝ᵥ x)) • r.vector n k := by
  rw [matrix, sub_mulVec, one_mulVec, smul_mulVec, vecMulVec_mulVec, op_smul_eq_smul, smul_smul]

theorem transpose_matrix (r : Reflector α) (n k : Nat) : (r.matrix n k)ᵀ = r.matrix n k := by
  rw [matrix, transpose_sub, transpose_one, transpose_smul, transpose_vecMulVec]

/-- A reflection is its own inverse. -/
theorem Reflects.mul_self (reflects : r.Reflects n k) : r.matrix n k * r.matrix n k = 1 := by
  have twice : r.beta • vecMulVec (r.vector n k) (r.vector n k) *
      r.beta • vecMulVec (r.vector n k) (r.vector n k) =
        r.beta • vecMulVec (r.vector n k) (r.vector n k) +
          r.beta • vecMulVec (r.vector n k) (r.vector n k) := by
    rw [smul_mul_smul_comm, vecMulVec_mul_vecMulVec, vecMulVec_smul, smul_smul, ← add_smul]
    congr 1
    rcases reflects.factor with none | two
    · rw [none, zero_mul, zero_mul, add_zero]
    · rw [mul_assoc, two, mul_add, mul_one]
  rw [matrix, sub_mul, mul_sub, mul_sub, one_mul, one_mul, mul_one, twice]
  abel

end Reflector

namespace QR

section Products

variable {α : Type} [FieldScalar α] {n k : Nat}

/-- A sum over the entries from an index on. -/
theorem inner_eq {r : Reflector α} (length : r.direction.length = n - k) (within : k ≤ n)
    (w : Nat → α) :
    inner r.direction ((List.range' k (n - k)).map w) = r.vector n k ⬝ᵥ fun i => w i := by
  have listed : r.direction.zipWith (· * ·) ((List.range' k (n - k)).map w) =
      (List.range (n - k)).map fun t => r.direction.getD t 0 * w (k + t) := by
    refine List.ext_getElem (by simp [length]) fun t inside _ => ?_
    have small : t < r.direction.length := by simpa [length] using inside
    simp [List.getElem_range', small]
  have front : ∑ i ∈ Finset.range k, (if i < k then 0 else r.direction.getD (i - k) 0) * w i = 0 :=
    Finset.sum_eq_zero fun i member => by rw [if_pos (Finset.mem_range.mp member), zero_mul]
  have back : ∑ t ∈ Finset.range (n - k),
      (if k + t < k then 0 else r.direction.getD (k + t - k) 0) * w (k + t) =
        ∑ t ∈ Finset.range (n - k), r.direction.getD t 0 * w (k + t) :=
    Finset.sum_congr rfl fun t _ => by
      rw [if_neg (Nat.le_add_right k t).not_gt, Nat.add_sub_cancel_left]
  calc inner r.direction ((List.range' k (n - k)).map w)
      = ∑ t ∈ Finset.range (n - k), r.direction.getD t 0 * w (k + t) := by
        rw [inner, Scalar.sum_eq, listed]
        rfl
    _ = ∑ i ∈ Finset.range n, (if i < k then 0 else r.direction.getD (i - k) 0) * w i := by
        rw [← Finset.sum_range_add_sum_Ico _ within, front, zero_add, Finset.sum_Ico_eq_sum_range,
          back]
    _ = r.vector n k ⬝ᵥ fun i => w i := Finset.sum_range _

/-- The product of the first reflections, the first of them on the right. -/
def rotation (rs : Array (Reflector α)) (n : Nat) : Nat → Matrix (Fin n) (Fin n) α
  | 0 => 1
  | k + 1 => (rs.getD k ⟨[], 0⟩).matrix n k * rotation rs n k

/-- Each of the first reflections is one. -/
def Reflect (rs : Array (Reflector α)) (n k : Nat) : Prop :=
  ∀ m < k, (rs.getD m ⟨[], 0⟩).Reflects n m

variable {rs : Array (Reflector α)} {f : QR α} {x : Array α}

theorem getD_push {m : Nat} (r : Reflector α) (small : m < rs.size) :
    (rs.push r).getD m ⟨[], 0⟩ = rs.getD m ⟨[], 0⟩ := by
  simp [Array.getD_eq_getD_getElem?, Array.getElem?_push, small.ne]

theorem getD_push_size (r : Reflector α) : (rs.push r).getD rs.size ⟨[], 0⟩ = r := by
  simp [Array.getD_eq_getD_getElem?]

theorem rotation_push (r : Reflector α) (small : k ≤ rs.size) :
    rotation (rs.push r) n k = rotation rs n k := by
  induction k with
  | zero => rfl
  | succ k ih => rw [rotation, getD_push r small, ih (Nat.le_of_succ_le small), rotation]

theorem transpose_rotation_mul (reflect : Reflect rs n k) :
    (rotation rs n k)ᵀ * rotation rs n k = 1 := by
  induction k with
  | zero => simp [rotation]
  | succ k ih =>
    have last := (reflect k k.lt_succ_self).mul_self
    rw [rotation, transpose_mul, Reflector.transpose_matrix, ← mul_assoc,
      mul_assoc _ _ (Reflector.matrix _ n k), last, mul_one]
    exact ih fun m small => reflect m (Nat.lt_succ_of_lt small)

/-- A reflection of a column. -/
theorem reflect_eq (size : x.size = n) (within : k ≤ n)
    (length : (f.reflectors.getD k ⟨[], 0⟩).direction.length = n - k) : (f.reflect x k).size = n ∧
      entriesOf n (f.reflect x k) =
        (f.reflectors.getD k ⟨[], 0⟩).matrix n k *ᵥ entriesOf n x := by
  have dropped : x.toList.drop k = (List.range' k (n - k)).map (x.getD · 0) := by
    refine List.ext_getElem (by simp [size]) fun t inside _ => ?_
    have small : k + t < x.size := by
      rw [List.length_drop, Array.length_toList] at inside
      omega
    simp [small]
  rw [Reflector.matrix_mulVec, reflect]
  generalize f.reflectors.getD k ⟨[], 0⟩ = r at length
  dsimp only
  split
  · next none =>
    refine ⟨size, ?_⟩
    rw [isZero_iff.mp none, zero_mul, zero_smul, sub_zero]
  · refine ⟨by simp [size], funext fun i => ?_⟩
    have here : (i : Nat) < x.size := size.symm ▸ i.isLt
    have known : x[(i : Nat)] = entriesOf n x i := by simp [entriesOf, here]
    have direction : r.direction.toArray.getD (i - k) 0 = r.direction.getD (i - k) 0 := by
      simp [Array.getD_eq_getD_getElem?]
    rw [dropped, inner_eq length within, Pi.sub_apply, Pi.smul_apply, smul_eq_mul,
      Reflector.vector, entriesOf, Array.getD_eq_getD_getElem?, Array.getElem?_mapIdx,
      Array.getElem?_eq_getElem here, Option.map_some, Option.getD_some, known, direction]
    split
    · rw [mul_zero, sub_zero]
    · rfl

/-- Before its first entry a direction sees nothing. -/
theorem vector_dotProduct_congr {r : Reflector α} {w w' : Fin n → α}
    (same : ∀ i : Fin n, k ≤ i → w i = w' i) : r.vector n k ⬝ᵥ w = r.vector n k ⬝ᵥ w' := by
  refine Finset.sum_congr rfl fun i _ => ?_
  by_cases before : (i : Nat) < k
  · rw [Reflector.vector, if_pos before, zero_mul, zero_mul]
  · rw [same i (not_lt.mp before)]

theorem inner_self {r : Reflector α} (length : r.direction.length = n - k) (within : k ≤ n) :
    inner r.direction r.direction = r.vector n k ⬝ᵥ r.vector n k := by
  have listed : r.direction = (List.range' k (n - k)).map fun i => r.direction.getD (i - k) 0 := by
    refine List.ext_getElem (by simp [length]) fun t inside _ => ?_
    simp [List.getElem_range', inside]
  have known := inner_eq length within fun i => r.direction.getD (i - k) 0
  rw [← listed] at known
  rw [known]
  exact vector_dotProduct_congr fun i later => (if_neg later.not_gt).symm

/-- The rest of a column as a direction. -/
theorem vector_rest {a : DenseMatrix α} (rows : a.nrows = n) (j : Nat) (beta : α) :
    (⟨rest a k j, beta⟩ : Reflector α).vector n k =
      fun i : Fin n => if (i : Nat) < k then 0 else a.entry i j := by
  funext i
  unfold Reflector.vector
  split
  · rfl
  · have small : (i : Nat) - k < n - k := by omega
    have there : k + ((i : Nat) - k) = i := by omega
    simp [rest, rows, small, there]

/-- All reflections of a column, the first one first. -/
theorem foldl_reflect (size : x.size = n) (within : k ≤ n)
    (length : ∀ m < k, (f.reflectors.getD m ⟨[], 0⟩).direction.length = n - m) :
    ((List.range k).foldl f.reflect x).size = n ∧
      entriesOf n ((List.range k).foldl f.reflect x) =
        rotation f.reflectors n k *ᵥ entriesOf n x := by
  induction k with
  | zero => exact ⟨size, (one_mulVec _).symm⟩
  | succ k ih =>
    obtain ⟨size', before⟩ := ih (Nat.le_of_succ_le within) fun m small =>
      length m (Nat.lt_succ_of_lt small)
    obtain ⟨size'', last⟩ := reflect_eq size' (Nat.le_of_succ_le within) (length k k.lt_succ_self)
    rw [List.range_succ, List.foldl_append, List.foldl_cons, List.foldl_nil]
    exact ⟨size'', by rw [last, before, rotation, mulVec_mulVec]⟩

/-- All reflections of a column, the last one first. -/
theorem foldl_reflect_reverse (size : x.size = n) (within : k ≤ n)
    (length : ∀ m < k, (f.reflectors.getD m ⟨[], 0⟩).direction.length = n - m) :
    entriesOf n ((List.range k).reverse.foldl f.reflect x) =
      (rotation f.reflectors n k)ᵀ *ᵥ entriesOf n x := by
  induction k generalizing x with
  | zero => simp [rotation]
  | succ k ih =>
    obtain ⟨size', first⟩ := reflect_eq size (Nat.le_of_succ_le within) (length k k.lt_succ_self)
    rw [List.range_succ, List.reverse_append, List.reverse_singleton, List.singleton_append,
      List.foldl_cons, ih size' (Nat.le_of_succ_le within) fun m small =>
        length m (Nat.lt_succ_of_lt small), first, mulVec_mulVec, rotation, transpose_mul,
      Reflector.transpose_matrix]

end Products

/-! ## One step -/

section Step

variable {α : Type} [FieldScalar α] [LinearOrder α] [RootScalar α] {n : Nat}

/-- The direction in which a vector is reflected onto its first entry, and the factor of it. -/
theorem householder {x v : Fin n → α} {k : Fin n} {c beta : α} (square : x ⬝ᵥ x = c * c)
    (direction : v = x - Pi.single k c)
    (factor : beta = if 0 < v ⬝ᵥ v then (1 + 1) / (v ⬝ᵥ v) else 0) :
    (beta = 0 ∨ beta * (v ⬝ᵥ v) = 1 + 1) ∧ (beta * (v ⬝ᵥ x)) • v = v := by
  have first : v ⬝ᵥ x = c * c - c * x k := by
    rw [direction, sub_dotProduct, square, single_dotProduct]
  have second : v ⬝ᵥ v = (1 + 1) * (v ⬝ᵥ x) := by
    rw [first, direction]
    simp only [sub_dotProduct, dotProduct_sub, square, single_dotProduct, dotProduct_single,
      Pi.single_eq_same, Pi.sub_apply]
    ring
  have two : (1 + 1 : α) ≠ 0 := by norm_num
  rcases eq_or_ne v 0 with zero | nonzero
  · have none : ¬ 0 < v ⬝ᵥ v := by simp [zero]
    rw [factor, if_neg none, zero]
    exact ⟨.inl rfl, smul_zero _⟩
  · have apart : v ⬝ᵥ v ≠ 0 := fun same => nonzero (dotProduct_self_eq_zero.mp same)
    have positive : 0 < v ⬝ᵥ v :=
      lt_of_le_of_ne (Finset.sum_nonneg fun i _ => mul_self_nonneg (v i)) apart.symm
    have whole : beta * (v ⬝ᵥ v) = 1 + 1 := by rw [factor, if_pos positive, div_mul_cancel₀ _ apart]
    refine ⟨.inr whole, ?_⟩
    have half : beta * (v ⬝ᵥ x) = 1 := by
      rw [second, mul_left_comm] at whole
      exact mul_left_cancel₀ two (whole.trans (mul_one _).symm)
    rw [half, one_smul]

variable {f : QR α} {k : Nat} {a : DenseMatrix α}

/-- The rest of column `j` as a vector of all entries. -/
def restVector (a : DenseMatrix α) (n k j : Nat) : Fin n → α :=
  fun i => if (i : Nat) < k then 0 else a.entry i j

omit [LinearOrder α] [RootScalar α] in
theorem inner_rest (rows : a.nrows = n) (within : k ≤ n) (j : Nat) :
    inner (rest a k j) (rest a k j) = restVector a n k j ⬝ᵥ restVector a n k j := by
  have length : (⟨rest a k j, 0⟩ : Reflector α).direction.length = n - k := by simp [rest, rows]
  have known := inner_self length within
  rwa [vector_rest rows] at known

omit [LinearOrder α] [RootScalar α] in
/-- The direction of a column is its rest with another first entry. -/
theorem vector_direction (rows : a.nrows = n) (below : k < n) (c beta : α) :
    (⟨((rest a k k).headD 0 - c) :: (rest a k k).tail, beta⟩ : Reflector α).vector n k =
      restVector a n k k - Pi.single ⟨k, below⟩ c := by
  have split : rest a k k = a.entry k k :: (List.range' (k + 1) (n - (k + 1))).map (a.entry · k) := by
    have first : n - k = (n - (k + 1)) + 1 := by omega
    rw [rest, rows, first, List.range'_succ, List.map_cons]
  funext i
  rw [split, Pi.sub_apply]
  unfold Reflector.vector restVector
  rcases lt_trichotomy (i : Nat) k with before | same | later
  · have other : i ≠ ⟨k, below⟩ := fun same => before.ne (congrArg Fin.val same)
    rw [if_pos before, if_pos before, Pi.single_eq_of_ne other, sub_zero]
  · obtain rfl : i = ⟨k, below⟩ := Fin.ext same
    simp
  · have other : i ≠ ⟨k, below⟩ := fun same => later.ne' (congrArg Fin.val same)
    have place : (i : Nat) - k = (i - (k + 1)) + 1 := by omega
    have small : (i : Nat) - (k + 1) < n - (k + 1) := by omega
    have there : k + 1 + ((i : Nat) - (k + 1)) = i := by omega
    rw [if_neg later.not_gt, if_neg later.not_gt, Pi.single_eq_of_ne other, sub_zero, place]
    simp [small, there]

/-- The reflection in the direction of a column takes its rest to its first entry. -/
theorem exists_image {c : α} (rows : a.nrows = n) (below : k < n)
    (square : restVector a n k k ⬝ᵥ restVector a n k k = c * c) {d : List α}
    (direction : d = ((rest a k k).headD 0 - c) :: (rest a k k).tail) {beta : α}
    (factor : beta = if Scalar.lt 0 (inner d d) then (1 + 1) / inner d d else 0) :
    (⟨d, beta⟩ : Reflector α).Reflects n k ∧ ∀ i : Fin n,
      ((⟨d, beta⟩ : Reflector α).matrix n k *ᵥ fun i => a.entry i k) i =
        if (i : Nat) < k then a.entry i k else if (i : Nat) = k then c else 0 := by
  have length : d.length = n - k := by
    rw [direction, List.length_cons, List.length_tail]
    simp only [rest, List.length_map, List.length_range', rows]
    omega
  have vector : (⟨d, beta⟩ : Reflector α).vector n k =
      restVector a n k k - Pi.single ⟨k, below⟩ c := direction ▸ vector_direction rows below c beta
  have norm : inner d d = (⟨d, beta⟩ : Reflector α).vector n k ⬝ᵥ
      (⟨d, beta⟩ : Reflector α).vector n k := inner_self (r := ⟨d, beta⟩) length below.le
  simp only [OrderedScalar.lt_iff, norm] at factor
  obtain ⟨reflects, image⟩ := householder square vector factor
  refine ⟨⟨length, reflects⟩, fun i => ?_⟩
  have seen : (⟨d, beta⟩ : Reflector α).vector n k ⬝ᵥ (fun i => a.entry i k) =
      (⟨d, beta⟩ : Reflector α).vector n k ⬝ᵥ restVector a n k k :=
    vector_dotProduct_congr fun i later => (if_neg later.not_gt).symm
  rw [Reflector.matrix_mulVec, seen, image, vector, Pi.sub_apply, Pi.sub_apply, restVector]
  rcases lt_trichotomy (i : Nat) k with before | same | later
  · have other : i ≠ ⟨k, below⟩ := fun same => before.ne (congrArg Fin.val same)
    rw [if_pos before, if_pos before, Pi.single_eq_of_ne other, sub_zero, sub_zero]
  · obtain rfl : i = ⟨k, below⟩ := Fin.ext same
    simp
  · have other : i ≠ ⟨k, below⟩ := fun same => later.ne' (congrArg Fin.val same)
    rw [if_neg later.not_gt, if_neg later.not_gt, if_neg later.ne', Pi.single_eq_of_ne other,
      sub_zero, sub_self]

omit [LinearOrder α] [RootScalar α] in
/-- An entry after the reflection. Columns that are finished are zero where it acts. -/
theorem reflected_entry {r : Reflector α} {c : α} (rows : a.nrows = n) (below : k < n)
    (length : r.direction.length = n - k)
    (finished : ∀ i < n, ∀ j < k, j < i → a.entry i j = 0)
    (image : ∀ i : Fin n, (r.matrix n k *ᵥ fun i => a.entry i k) i =
      if (i : Nat) < k then a.entry i k else if (i : Nat) = k then c else 0) (i j : Fin n) :
    (if (i : Nat) < k ∨ (j : Nat) < k then a.entry i j
      else if (j : Nat) = k then if (i : Nat) = k then c else 0
      else a.entry i j - (Array.ofFn fun j : Fin n =>
        if (j : Nat) < k then 0 else r.beta * inner r.direction (rest a k j)).getD j 0 *
          r.direction.toArray.getD (i - k) 0) = (r.matrix n k *ᵥ fun i => a.entry i j) i := by
  by_cases same : (j : Nat) = k
  · rw [same, image]
    by_cases before : (i : Nat) < k
    · simp [before]
    · simp [before]
  · have listed : rest a k j = (List.range' k (n - k)).map fun i => a.entry i j := by
      rw [rest, rows]
    have direction : r.direction.toArray.getD (i - k) 0 = r.direction.getD (i - k) 0 := by
      simp [Array.getD_eq_getD_getElem?]
    rw [Reflector.matrix_mulVec, Pi.sub_apply, Pi.smul_apply, smul_eq_mul]
    by_cases before : (i : Nat) < k
    · rw [if_pos (.inl before), Reflector.vector, if_pos before, mul_zero, sub_zero]
    · by_cases done : (j : Nat) < k
      · have nothing : r.vector n k ⬝ᵥ (fun i => a.entry i j) = r.vector n k ⬝ᵥ 0 :=
          vector_dotProduct_congr fun i later => finished i i.isLt j done (done.trans_le later)
        rw [if_pos (.inr done), nothing, dotProduct_zero, mul_zero, zero_mul, sub_zero]
      · have neither : ¬ ((i : Nat) < k ∨ (j : Nat) < k) := by simp [before, done]
        rw [if_neg neither, if_neg same, getD_ofFn j.isLt, if_neg done, listed,
          inner_eq length below.le, direction, Reflector.vector, if_neg before]

/-- What step `k` does: column `p`, whose rest is largest, comes to its place, and everything is
reflected. -/
structure Reduction (f t : QR α) (n k p : Nat) (r : Reflector α) : Prop where
  from_k : k ≤ p
  below_n : p < n
  largest : ∀ j, k ≤ j → j < n → restVector f.r n k j ⬝ᵥ restVector f.r n k j ≤
    restVector f.r n k p ⬝ᵥ restVector f.r n k p
  perm : t.perm = f.perm.swapIfInBounds k p
  shape : t.r.shape = (n, n)
  reflectors : t.reflectors = f.reflectors.push r
  reflects : r.Reflects n k
  entry : ∀ i j : Fin n, t.r.entry i j =
    (r.matrix n k *ᵥ fun i => f.r.entry i (Factor.exchange k p j)) i
  triangle : ∀ i < n, ∀ j < k + 1, j < i → t.r.entry i j = 0

/-- The first column with the longest rest. -/
def longest (f : QR α) (n k : Nat) : Nat :=
  (Factor.firstMax (fun j => inner (rest f.r k j) (rest f.r k j)) k n).1

theorem exists_reduction (order : f.order = n) (below : k < n)
    (triangle : ∀ i < n, ∀ j < k, j < i → f.r.entry i j = 0) :
    ∃ r, Reduction f (f.reduce k) n k (f.longest n k) r := by
  obtain ⟨from_k, below_n, chosen⟩ :=
    Factor.firstMax_mem (fun j => inner (rest f.r k j) (rest f.r k j)) below
  have largest (j : Nat) (later : k ≤ j) (hj : j < n) :=
    Factor.le_firstMax (fun j => inner (rest f.r k j) (rest f.r k j)) later hj
  unfold reduce longest
  dsimp only
  rw [order]
  generalize Factor.firstMax (fun j => inner (rest f.r k j) (rest f.r k j)) k n = best
    at from_k below_n chosen largest ⊢
  obtain ⟨p, weight⟩ := best
  dsimp only at from_k below_n chosen largest ⊢
  rw [chosen] at largest
  simp only [inner_rest order below.le] at chosen largest
  generalize moved : (DenseMatrix.ofFn n n fun i j => f.r.entry i (Factor.exchange k p j)) = a
  have rows : a.nrows = n := moved ▸ rfl
  have entry {i j : Nat} (hi : i < n) (hj : j < n) :
      a.entry i j = f.r.entry i (Factor.exchange k p j) := moved ▸ DenseMatrix.entry_ofFn hi hj _
  have there : Factor.exchange k p k = p := if_pos rfl
  have early {j : Nat} (done : j < k) : Factor.exchange k p j = j := by
    rw [Factor.exchange, if_neg done.ne, if_neg (done.trans_le from_k).ne]
  have finished : ∀ i < n, ∀ j < k, j < i → a.entry i j = 0 := by
    intro i hi j done less
    rw [entry hi (done.trans below), early done, triangle i hi j done less]
  have column (j : Fin n) : (fun i : Fin n => f.r.entry i (Factor.exchange k p j)) =
      fun i : Fin n => a.entry i j := funext fun i => (entry i.isLt j.isLt).symm
  have same : restVector f.r n k p = restVector a n k k := by
    funext i
    rw [restVector, restVector, entry i.isLt below, there]
  rw [same] at chosen
  have nonneg : 0 ≤ weight := chosen ▸ Finset.sum_nonneg fun i _ => mul_self_nonneg _
  have root := RootScalar.sqrt_mul_self weight nonneg
  split
  · next zero =>
    rw [isZero_iff.mp zero, zero_mul, chosen, eq_comm, dotProduct_self_eq_zero] at root
    refine ⟨⟨rest a k k, 0⟩, from_k, below_n, largest, rfl, moved ▸ rfl, rfl,
      ⟨by simp [rest, rows], .inl rfl⟩, fun i j => ?_, fun i hi j done less => ?_⟩
    · rw [column, Reflector.matrix_mulVec, zero_mul, zero_smul, sub_zero]
    · rcases Nat.lt_succ_iff_lt_or_eq.mp done with earlier | rfl
      · exact finished i hi j earlier less
      · exact (if_neg less.not_gt).symm.trans (congrFun root ⟨i, hi⟩)
  · generalize opposite : (if Scalar.le 0 ((rest a k k).headD 0) = true then -Scalar.sqrt weight
      else Scalar.sqrt weight) = c
    have square : restVector a n k k ⬝ᵥ restVector a n k k = c * c := by
      rw [← opposite, ← chosen]
      split
      · rw [neg_mul_neg, root]
      · exact root.symm
    generalize direction : ((rest a k k).headD 0 - c) :: (rest a k k).tail = d
    generalize factor : (if Scalar.lt 0 (inner d d) = true then (1 + 1) / inner d d else 0) = beta
    obtain ⟨reflects, image⟩ := exists_image rows below square direction.symm factor.symm
    have reflected (i j : Fin n) := reflected_entry rows below reflects.length finished image i j
    refine ⟨⟨d, beta⟩, from_k, below_n, largest, rfl, rfl, rfl, reflects, fun i j => ?_,
      fun i hi j done less => ?_⟩
    · rw [column, DenseMatrix.entry_ofFn i.isLt j.isLt]
      exact reflected i j
    · rw [DenseMatrix.entry_ofFn hi (less.trans hi)]
      rcases Nat.lt_succ_iff_lt_or_eq.mp done with earlier | rfl
      · rw [if_pos (.inr earlier), finished i hi j earlier less]
      · rw [if_neg (by omega), if_pos rfl, if_neg less.ne']

/-! ## The factors -/

/-- After `k` steps the reflections take a matrix, its columns in their new order, to a matrix with
`k` columns of an upper triangle. -/
structure Reduces (f : QR α) (a : Matrix (Fin n) (Fin n) α) (k : Nat) (π : Equiv.Perm (Fin n)) :
    Prop where
  shape : f.r.shape = (n, n)
  count : f.reflectors.size = k
  reflect : Reflect f.reflectors n k
  lists : Factor.Lists f.perm π
  product : rotation f.reflectors n k * a.submatrix id π = .of fun i j => f.r.entry i j
  triangle : ∀ i < n, ∀ j < k, j < i → f.r.entry i j = 0

variable {t : QR α} {p : Nat} {r : Reflector α} {m : Matrix (Fin n) (Fin n) α}
  {π : Equiv.Perm (Fin n)}

omit [RootScalar α] in
theorem Reduces.extend (reduces : f.Reduces m k π) (below : k < n)
    (step : Reduction f t n k p r) :
    t.Reduces m (k + 1) (π * Equiv.swap ⟨k, below⟩ ⟨p, step.below_n⟩) := by
  have size := reduces.count
  have last : t.reflectors.getD k ⟨[], 0⟩ = r := by
    rw [step.reflectors, ← size, getD_push_size]
  have lists := reduces.lists.swap ⟨k, below⟩ ⟨p, step.below_n⟩
  refine ⟨step.shape, by rw [step.reflectors, Array.size_push, size], fun i small => ?_,
    step.perm.symm ▸ lists, ?_, step.triangle⟩
  · rcases Nat.lt_succ_iff_lt_or_eq.mp small with earlier | rfl
    · rw [step.reflectors, getD_push r (size.symm ▸ earlier)]
      exact reduces.reflect i earlier
    · exact last ▸ step.reflects
  · have moved : rotation f.reflectors n k *
        m.submatrix id (π * Equiv.swap ⟨k, below⟩ ⟨p, step.below_n⟩ : Equiv.Perm (Fin n)) =
          (Matrix.of fun i j : Fin n => f.r.entry i j).submatrix id
            (Equiv.swap ⟨k, below⟩ ⟨p, step.below_n⟩) := by
      rw [← reduces.product]
      rfl
    rw [rotation, last, step.reflectors, rotation_push r size.ge, mul_assoc, moved]
    have column (j : Fin n) : (fun i : Fin n => f.r.entry i (Factor.exchange k p j)) =
        fun i => (Matrix.of fun i j : Fin n => f.r.entry i j).submatrix id
          (Equiv.swap ⟨k, below⟩ ⟨p, step.below_n⟩) i j := by
      funext i
      rw [Matrix.submatrix_apply, Matrix.of_apply, Factor.swap_val]
      rfl
    ext i j
    rw [Matrix.of_apply, step.entry, column]
    rfl

/-- Where the rank is full, no diagonal entry is zero. -/
theorem pivots_of_rank {options : Options α} (nonneg : 0 ≤ options.rankTolerance)
    (full : ¬ f.rank options < f.order) : ∀ i < f.order, f.r.entry i i ≠ 0 := by
  intro i inside
  unfold rank Factor.numericalRank at full
  dsimp only at full
  split at full
  · exact absurd (Nat.zero_lt_of_lt inside) full
  · rw [not_lt] at full
    have all := List.countP_eq_length.mp (Nat.le_antisymm List.countP_le_length
      (le_of_eq_of_le (by simp) full))
    have large := all (f.r.entry i i) (List.mem_map.mpr ⟨i, List.mem_range.mpr inside, rfl⟩)
    rw [OrderedScalar.lt_iff, OrderedScalar.abs_eq] at large
    exact abs_pos.mp ((mul_nonneg nonneg (maxAbs_nonneg _)).trans_lt large)

section Solves

open Triangular

omit [LinearOrder α] [RootScalar α]

theorem Reduces.upper (reduces : f.Reduces m n π) :
    rotation f.reflectors n n * m.submatrix id π = upper n f.r.entry := by
  rw [reduces.product]
  ext i j
  rw [Matrix.of_apply, Triangular.upper, Matrix.of_apply, upperEntry]
  split
  · rfl
  · next below => exact reduces.triangle i i.isLt j j.isLt (not_le.mp below)

theorem Reduces.det_ne_zero (reduces : f.Reduces m n π) (pivots : ∀ i < n, f.r.entry i i ≠ 0) :
    m.det ≠ 0 := by
  intro singular
  have both := congrArg Matrix.det reduces.upper
  rw [det_mul, det_permute', singular, mul_zero, mul_zero,
    det_of_isUpperTriangular isUpperTriangular_upper] at both
  refine Finset.prod_ne_zero_iff.mpr (fun i _ => ?_) both.symm
  rw [upper_self]
  exact pivots i i.isLt

/-- What is left of the permuted matrix is an orthogonal matrix times a triangle. -/
theorem Reduces.submatrix_eq (reduces : f.Reduces m n π) :
    m.submatrix id π = (rotation f.reflectors n n)ᵀ * Triangular.upper n f.r.entry := by
  rw [← reduces.upper, ← mul_assoc, transpose_rotation_mul reduces.reflect, one_mul]

theorem Reduces.solveColumn_correct (reduces : f.Reduces m n π)
    (pivots : ∀ i < n, f.r.entry i i ≠ 0) {b : Array α} (size : b.size = n) :
    m *ᵥ entriesOf n (f.solveColumn b) = entriesOf n b := by
  have order : f.order = n := congrArg Prod.fst reduces.shape
  obtain ⟨-, rotated⟩ := foldl_reflect size le_rfl fun m small => (reduces.reflect m small).length
  have solved : Triangular.upper n f.r.entry *ᵥ entriesOf n (solveUpper n f.r.entry
      (((List.range n).foldl f.reflect b).getD · 0)) =
        rotation f.reflectors n n *ᵥ entriesOf n b :=
    (funext (mulVec_solveUpper _ _ pivots)).trans rotated
  simp only [solveColumn, order]
  rw [reduces.lists.mulVec_permute, reduces.submatrix_eq, ← mulVec_mulVec, solved, mulVec_mulVec,
    transpose_rotation_mul reduces.reflect, one_mulVec]

theorem Reduces.solveColumnTransposed_correct (reduces : f.Reduces m n π)
    (pivots : ∀ i < n, f.r.entry i i ≠ 0) (b : Array α) :
    mᵀ *ᵥ entriesOf n (f.solveColumnTransposed b) = entriesOf n b := by
  have order : f.order = n := congrArg Prod.fst reduces.shape
  have orthogonal : rotation f.reflectors n n * (rotation f.reflectors n n)ᵀ = 1 :=
    mul_eq_one_comm.mp (transpose_rotation_mul reduces.reflect)
  have size : (solveUpperTransposed n f.r.entry fun i => b.getD (f.perm.getD i 0) 0).size = n :=
    size_ascending _ n
  simp only [solveColumnTransposed, order]
  rw [foldl_reflect_reverse size le_rfl fun m small => (reduces.reflect m small).length]
  funext j
  obtain ⟨k, rfl⟩ := π.surjective j
  have solved := mulVec_solveUpperTransposed f.r.entry (fun i => b.getD (f.perm.getD i 0) 0) pivots k
  rw [reduces.lists.value] at solved
  change ((m.submatrix id π)ᵀ *ᵥ _) k = _
  rw [reduces.submatrix_eq, transpose_mul, transpose_transpose, mulVec_mulVec, mul_assoc, orthogonal,
    mul_one]
  exact solved

/-- Where the rank is full, both systems of every column are solved. -/
theorem Reduces.solves (reduces : f.Reduces m n π) (pivots : ∀ i < n, f.r.entry i i ≠ 0)
    {options : Options α} (full : ¬ f.rank options < f.order) :
    Factor.Solves m fun nrhs transposed rhs => f.solve options nrhs transposed rhs := by
  have order : f.order = n := congrArg Prod.fst reduces.shape
  have solved := Factor.solves_eachColumn (reduces.det_ne_zero pivots)
    (fun transposed => if transposed then f.solveColumnTransposed else f.solveColumn)
    (fun b size => reduces.solveColumn_correct pivots size)
    fun b _ => reduces.solveColumnTransposed_correct pivots b
  intro size nrhs transposed rhs whole
  obtain ⟨x, found, columns⟩ := solved size nrhs transposed rhs whole
  refine ⟨x, ?_, columns⟩
  have answered : Factor.eachColumn f.order nrhs
      (if transposed then f.solveColumnTransposed else f.solveColumn) rhs = .ok x := order ▸ found
  dsimp only [solve]
  rw [answered, Outcome.ok_bind]
  exact if_neg full

end Solves

end Step

end QR

end Cotangent
