import Mathlib
import Cotangent.Proofs.RealScalar
import Cotangent.Proofs.Reflections
import Cotangent.Proofs.Stages
import Cotangent.Solver.BuiltIn

/-! QR shows the rank in exact arithmetic. A reflection keeps the length of what is left of a column,
and the longest one was taken, so a diagonal entry of the triangle is as large as everything to the
right of it and below: the diagonal decreases, and a row with a zero on the diagonal is zero. The entries
that are not zero count the rank, and only solving asks for all of them. -/
namespace Cotangent

open Matrix

/-- What a function refuses to replace is kept. -/
theorem Run.replace_error {σ ω : Type} {f : σ → Except Error σ} {x : σ} {e : Error}
    (refused : f x = .error e) (w : ω) : Run.replace f (x, w) = (.error e, (x, w)) := by
  rw [replace, refused]

/-! ## Lengths -/

section Lengths

variable {α : Type} [FieldScalar α] {n k m : Nat} {r : Reflector α}

/-- The entries of a vector from an index on, and zeros before. -/
def entriesFrom (m : Nat) (x : Fin n → α) : Fin n → α := fun i => if (i : Nat) < m then 0 else x i

/-- A reflection does not mix the entries before an index, which it keeps, with the others. -/
theorem Reflector.entriesFrom_mulVec (r : Reflector α) (earlier : m ≤ k) (x : Fin n → α) :
    entriesFrom m (r.matrix n k *ᵥ x) = r.matrix n k *ᵥ entriesFrom m x := by
  have seen : r.vector n k ⬝ᵥ x = r.vector n k ⬝ᵥ entriesFrom m x :=
    QR.vector_dotProduct_congr fun i later => (if_neg (earlier.trans later).not_gt).symm
  funext i
  rw [entriesFrom, matrix_mulVec, matrix_mulVec, seen, Pi.sub_apply, Pi.sub_apply, Pi.smul_apply,
    entriesFrom]
  split
  · next before =>
    rw [vector, if_pos (before.trans_le earlier), smul_zero, sub_zero]
  · rfl

theorem Reflector.mulVec_apply (r : Reflector α) (x : Fin n → α) {i : Fin n} (before : (i : Nat) < k) :
    (r.matrix n k *ᵥ x) i = x i := by
  rw [matrix_mulVec, Pi.sub_apply, Pi.smul_apply, vector, if_pos before, smul_zero, sub_zero]

theorem Reflector.Reflects.dotProduct_mulVec (reflects : r.Reflects n k) (x y : Fin n → α) :
    r.matrix n k *ᵥ x ⬝ᵥ r.matrix n k *ᵥ y = x ⬝ᵥ y := by
  rw [Matrix.dotProduct_mulVec, ← mulVec_transpose, r.transpose_matrix, mulVec_mulVec,
    reflects.mul_self, one_mulVec]

/-- A reflection keeps the products of the entries from an earlier index on. -/
theorem Reflector.Reflects.dotProduct_entriesFrom (reflects : r.Reflects n k) (earlier : m ≤ k)
    (x y : Fin n → α) : entriesFrom m (r.matrix n k *ᵥ x) ⬝ᵥ entriesFrom m (r.matrix n k *ᵥ y) =
      entriesFrom m x ⬝ᵥ entriesFrom m y := by
  rw [r.entriesFrom_mulVec earlier, r.entriesFrom_mulVec earlier, reflects.dotProduct_mulVec]

end Lengths

namespace QR

/-! ## One step -/

section Step

variable {α : Type} [FieldScalar α] [LinearOrder α] {f t : QR α} {n k p : Nat} {r : Reflector α}

/-- The diagonal entries of the first `k` columns are as long as what any later column has left. -/
def Dominates (f : QR α) (n k : Nat) : Prop :=
  ∀ m < k, ∀ j, m ≤ j → j < n →
    restVector f.r n m j ⬝ᵥ restVector f.r n m j ≤ f.r.entry m m * f.r.entry m m

omit [LinearOrder α] in
/-- What is left of a column is its first entry and what is left of it after the row. -/
theorem restVector_split {a : DenseMatrix α} (below : k < n) (j : Nat) : restVector a n k j =
    Pi.single ⟨k, below⟩ (a.entry k j) + restVector a n (k + 1) j := by
  funext i
  rw [Pi.add_apply, restVector, restVector]
  rcases lt_trichotomy (i : Nat) k with before | same | later
  · have other : i ≠ ⟨k, below⟩ := fun same => before.ne (congrArg Fin.val same)
    rw [if_pos before, if_pos (Nat.lt_succ_of_lt before), Pi.single_eq_of_ne other, add_zero]
  · obtain rfl : i = ⟨k, below⟩ := Fin.ext same
    rw [if_neg (lt_irrefl k), if_pos k.lt_succ_self, Pi.single_eq_same, add_zero]
  · have other : i ≠ ⟨k, below⟩ := fun same => later.ne' (congrArg Fin.val same)
    rw [if_neg later.not_gt, if_neg (Nat.succ_le_of_lt later).not_gt, Pi.single_eq_of_ne other,
      zero_add]

omit [LinearOrder α] in
/-- In a finished column only the diagonal entry is left. -/
theorem restVector_of_triangle {a : DenseMatrix α} (below : k < n)
    (triangle : ∀ i < n, k < i → a.entry i k = 0) :
    restVector a n k k = Pi.single ⟨k, below⟩ (a.entry k k) := by
  have nothing : restVector a n (k + 1) k = 0 := by
    funext i
    unfold restVector
    split
    · rfl
    · next under => exact triangle i i.isLt (not_lt.mp under)
  rw [restVector_split below, nothing, add_zero]

/-- A step keeps the products of what is left of columns. -/
theorem Reduction.dotProduct (step : Reduction f t n k p r) {m i j : Nat} (earlier : m ≤ k)
    (hi : i < n) (hj : j < n) : restVector t.r n m i ⬝ᵥ restVector t.r n m j =
      restVector f.r n m (Factor.exchange k p i) ⬝ᵥ restVector f.r n m (Factor.exchange k p j) := by
  have column {j : Nat} (hj : j < n) : restVector t.r n m j =
      entriesFrom m (r.matrix n k *ᵥ fun i : Fin n => f.r.entry i (Factor.exchange k p j)) := by
    funext i
    rw [restVector, entriesFrom, step.entry i ⟨j, hj⟩]
  rw [column hi, column hj, step.reflects.dotProduct_entriesFrom earlier]
  rfl

/-- The first row of what is left shows the products with the longest column. -/
theorem Reduction.product_row (step : Reduction f t n k p r) (below : k < n) {j : Nat} (hj : j < n) :
    t.r.entry k k * t.r.entry k j =
      restVector f.r n k p ⬝ᵥ restVector f.r n k (Factor.exchange k p j) := by
  have there : Factor.exchange k p k = p := if_pos rfl
  have here : restVector t.r n k j ⟨k, below⟩ = t.r.entry k j := if_neg (lt_irrefl k)
  have both := step.dotProduct le_rfl below hj
  rwa [there, restVector_of_triangle below fun i hi under => step.triangle i hi k k.lt_succ_self under,
    single_dotProduct, here] at both

theorem Reduction.diagonal (step : Reduction f t n k p r) {m : Nat} (earlier : m < k) (below : k < n) :
    t.r.entry m m = f.r.entry m m := by
  have from_k := step.from_k
  have inside : m < n := earlier.trans below
  have place : Factor.exchange k p m = m := by
    rw [Factor.exchange, if_neg earlier.ne, if_neg (earlier.trans_le from_k).ne]
  rw [step.entry ⟨m, inside⟩ ⟨m, inside⟩, r.mulVec_apply _ earlier, place]

/-- Columns that are left change places with columns that are left. -/
theorem Reduction.exchange_mem (step : Reduction f t n k p r) {m j : Nat} (later : m ≤ j)
    (reached : m ≤ k) (hj : j < n) : m ≤ Factor.exchange k p j ∧ Factor.exchange k p j < n := by
  have from_k := step.from_k
  have below_n := step.below_n
  unfold Factor.exchange
  split
  · omega
  · split <;> omega

/-- Finished diagonal entries stay, and the longest rest becomes the next one. -/
theorem Dominates.extend (dominates : f.Dominates n k) (below : k < n)
    (step : Reduction f t n k p r) : t.Dominates n (k + 1) := by
  intro m reached j later hj
  rcases Nat.lt_succ_iff_lt_or_eq.mp reached with earlier | rfl
  · obtain ⟨later', hj'⟩ := step.exchange_mem later earlier.le hj
    rw [step.dotProduct earlier.le hj hj, step.diagonal earlier below]
    exact dominates m earlier _ later' hj'
  · obtain ⟨later', hj'⟩ := step.exchange_mem later le_rfl hj
    have there : Factor.exchange m p m = p := if_pos rfl
    calc restVector t.r n m j ⬝ᵥ restVector t.r n m j
        = restVector f.r n m (Factor.exchange m p j) ⬝ᵥ
            restVector f.r n m (Factor.exchange m p j) := step.dotProduct le_rfl hj hj
      _ ≤ restVector f.r n m p ⬝ᵥ restVector f.r n m p := step.largest _ later' hj'
      _ = t.r.entry m m * t.r.entry m m := by rw [step.product_row below below, there]

end Step

/-! ## All steps -/

section Rank

open Triangular

variable {α : Type} [FieldScalar α] [LinearOrder α] {f : QR α} {n : Nat}
  {m : Matrix (Fin n) (Fin n) α} {π : Equiv.Perm (Fin n)}

/-- Where there is room, values of a square pattern have factors, and their diagonal dominates. -/
theorem factorize_reduces [RootScalar α] (options : Options α) {a : SparseMatrix α}
    (roomy : a.pattern.Roomy) (rows : a.nrows = n) (columns : a.ncols = n) :
    ∃ f, factorize options a = .ok f ∧
      ∃ π : Equiv.Perm (Fin n), f.Reduces (a.matrix n) n π ∧ f.Dominates n n := by
  have steps (k : Nat) (within : k ≤ n) : ∃ π : Equiv.Perm (Fin n),
      ((List.range k).foldl reduce ⟨a.toDense, #[], Array.range a.nrows⟩).Reduces
        (a.matrix n) k π ∧
      ((List.range k).foldl reduce ⟨a.toDense, #[], Array.range a.nrows⟩).Dominates n k := by
    induction k with
    | zero =>
      refine ⟨1, ⟨Prod.ext rows columns, rfl, fun i none => by omega,
        rows ▸ Factor.lists_range n, ?_, fun i _ j none => by omega⟩, fun i none => by omega⟩
      ext i j
      rw [rotation, one_mul]
      exact (SparseMatrix.entry_toDense (rows ▸ i.isLt) (columns ▸ j.isLt)).symm
    | succ k ih =>
      obtain ⟨π, reduces, dominates⟩ := ih (Nat.le_of_succ_le within)
      obtain ⟨r, step⟩ :=
        exists_reduction (congrArg Prod.fst reduces.shape) within reduces.triangle
      rw [List.range_succ, List.foldl_append]
      exact ⟨_, reduces.extend within step, dominates.extend within step⟩
  refine ⟨_, factorize_of_roomy roomy, ?_⟩
  rw [rows]
  exact rows ▸ steps n le_rfl

/-- A diagonal entry is as large as everything to the right of it and below. -/
theorem Dominates.entry_le [IsStrictOrderedRing α] (dominates : f.Dominates n n) {k i j : Nat}
    (under : k ≤ i) (right : k ≤ j) (hi : i < n) (hj : j < n) :
    |f.r.entry i j| ≤ |f.r.entry k k| := by
  refine abs_le_iff_mul_self_le.mpr (le_trans ?_ (dominates k (right.trans_lt hj) j right hj))
  have here : restVector f.r n k j ⟨i, hi⟩ = f.r.entry i j := if_neg under.not_gt
  rw [← here]
  exact Finset.single_le_sum (f := fun i => restVector f.r n k j i * restVector f.r n k j i)
    (fun i _ => mul_self_nonneg _) (Finset.mem_univ _)

/-- The rows with a zero on the diagonal are zero, the others make the rank. -/
theorem Dominates.rank_upper [IsStrictOrderedRing α] (dominates : f.Dominates n n) :
    (upper n f.r.entry).rank = (Finset.univ.filter fun i : Fin n => f.r.entry i i ≠ 0).card := by
  let lead (i : Fin n) : WithTop (Fin n) := if f.r.entry i i = 0 then ⊤ else i
  have none {i : Fin n} : lead i = ⊤ ↔ f.r.entry i i = 0 := by simp [lead]
  have place {i : Fin n} (nonzero : f.r.entry i i ≠ 0) : lead i = i := if_neg nonzero
  have later {i j : Fin n} (under : i ≤ j) (zero : f.r.entry i i = 0) : f.r.entry j j = 0 := by
    have bound := dominates.entry_le under under j.isLt j.isLt
    rwa [zero, abs_zero, abs_nonpos_iff] at bound
  have pivoted : (upper n f.r.entry).IsPivotedBy lead := by
    refine isPivotedBy_iff.mpr ⟨fun i j under => ?_, fun i some j some' less => ?_, fun i =>
      ⟨fun j before => ?_, fun j here => ?_⟩⟩
    · by_cases zero : f.r.entry j j = 0
      · exact none.mpr zero ▸ le_top
      · rw [place zero, place fun zero' => zero (later under zero')]
        exact WithTop.coe_le_coe.mpr under
    · rw [place (mt none.mpr some), place (mt none.mpr some')]
      exact WithTop.coe_lt_coe.mpr less
    · by_cases above : i ≤ j
      · have zero : f.r.entry i i = 0 := by
          by_contra nonzero
          rw [place nonzero] at before
          exact (WithTop.coe_lt_coe.mp before).not_ge above
        have bound := dominates.entry_le le_rfl above i.isLt j.isLt
        rw [zero, abs_zero, abs_nonpos_iff] at bound
        exact (if_pos above).trans bound
      · exact isUpperTriangular_upper (not_le.mp above)
    · by_cases zero : f.r.entry i i = 0
      · exact absurd ((none.mpr zero).symm.trans here) WithTop.top_ne_coe
      · obtain rfl := WithTop.coe_injective ((place zero).symm.trans here)
        rwa [upper_self]
  rw [pivoted.rank_eq]
  exact congrArg Finset.card (Finset.filter_congr fun i _ => not_congr none)

omit [LinearOrder α] in
/-- Reflections and a new order of the columns keep the rank. -/
theorem Reduces.rank_eq (reduces : f.Reduces m n π) :
    (Triangular.upper n f.r.entry).rank = m.rank := by
  have invertible : IsUnit (rotation f.reflectors n n).det :=
    Matrix.isUnit_det_of_left_inverse (transpose_rotation_mul reduces.reflect)
  rw [← reduces.upper, rank_mul_eq_right_of_isUnit_det _ _ invertible]
  exact rank_submatrix m (Equiv.refl _) π

/-- With tolerance zero, the entries that are not zero are counted. -/
theorem numericalRank_zero [OrderedScalar α] (diagonal : List α) :
    Factor.numericalRank 0 diagonal = diagonal.countP fun d => d ≠ 0 := by
  unfold Factor.numericalRank
  dsimp only
  split
  · next zero =>
    rw [isZero_iff] at zero
    refine (List.countP_eq_zero.mpr fun d member => ?_).symm
    have bound := abs_le_maxAbs member
    rw [zero, abs_nonpos_iff] at bound
    simp [bound]
  · simp only [zero_mul, OrderedScalar.abs_eq]
    refine List.countP_congr fun d _ => ?_
    rw [OrderedScalar.lt_iff, abs_pos, decide_eq_true_iff]

omit [LinearOrder α] in
theorem rank_le_order (options : Options α) (f : QR α) : f.rank options ≤ f.order := by
  unfold rank Factor.numericalRank
  dsimp only
  split
  · exact Nat.zero_le _
  · exact List.countP_le_length.trans_eq (by simp)

/-- With tolerance zero the rank that is shown is the rank of the matrix. -/
theorem Reduces.rank_zero [OrderedScalar α] {options : Options α} (reduces : f.Reduces m n π)
    (dominates : f.Dominates n n) (zero : options.rankTolerance = 0) : f.rank options = m.rank := by
  have order : f.order = n := congrArg Prod.fst reduces.shape
  have listed : (List.range n).map (fun k => f.r.entry k k) =
      (List.finRange n).map fun k : Fin n => f.r.entry k k := by
    rw [← List.map_coe_finRange_eq_range, List.map_map]
    rfl
  rw [← reduces.rank_eq, dominates.rank_upper, rank, zero, numericalRank_zero, order, listed,
    List.countP_map, List.countP_eq_length_filter]
  rfl

end Rank

/-! ## The backend -/

section Backend

variable {α : Type} [FieldScalar α] [LinearOrder α] {f : QR α} {n : Nat}
  {m : Matrix (Fin n) (Fin n) α} {π : Equiv.Perm (Fin n)}

/-- The product of all reflections, the first of them on the left. -/
def orthogonal (f : QR α) (n : Nat) : Matrix (Fin n) (Fin n) α :=
  ((List.range n).map fun k => (f.reflectors.getD k ⟨[], 0⟩).matrix n k).prod

/-- The factors of a matrix whose columns stand in a new order: an orthogonal product of one reflection
for every column, and an upper triangle with a diagonal that decreases in magnitude. -/
structure Factorizes (f : QR α) (m : Matrix (Fin n) (Fin n) α) (π : Equiv.Perm (Fin n)) : Prop where
  lists : Factor.Lists f.perm π
  shape : f.r.shape = (n, n)
  count : f.reflectors.size = n
  reflect : Reflect f.reflectors n n
  isOrthogonal : (f.orthogonal n)ᵀ * f.orthogonal n = 1
  product : m.submatrix id π = f.orthogonal n * .of fun i j => f.r.entry i j
  triangle : ∀ i < n, ∀ j < i, f.r.entry i j = 0
  decreasing : ∀ i j, i ≤ j → j < n → |f.r.entry j j| ≤ |f.r.entry i i|

omit [LinearOrder α] in
theorem orthogonal_eq (f : QR α) (n : Nat) : f.orthogonal n = (rotation f.reflectors n n)ᵀ := by
  have first (k : Nat) : ((List.range k).map fun k =>
      (f.reflectors.getD k ⟨[], 0⟩).matrix n k).prod = (rotation f.reflectors n k)ᵀ := by
    induction k with
    | zero => exact transpose_one.symm
    | succ k ih =>
      rw [List.range_succ, List.map_append, List.prod_append, ih, List.map_singleton,
        List.prod_singleton, rotation, transpose_mul, Reflector.transpose_matrix]
  exact first n

theorem Reduces.factorizes [IsStrictOrderedRing α] (reduces : f.Reduces m n π)
    (dominates : f.Dominates n n) : f.Factorizes m π where
  lists := reduces.lists
  shape := reduces.shape
  count := reduces.count
  reflect := reduces.reflect
  isOrthogonal := by
    rw [orthogonal_eq, transpose_transpose]
    exact mul_eq_one_comm.mp (transpose_rotation_mul reduces.reflect)
  product := by
    rw [orthogonal_eq, ← reduces.product, ← mul_assoc, transpose_rotation_mul reduces.reflect,
      one_mul]
  triangle i hi j less := reduces.triangle i hi j (less.trans hi) less
  decreasing _ _ later hj := dominates.entry_le later later hj hj

omit [LinearOrder α] in
/-- Where the rank is not full, a right-hand side of the right size is refused. -/
theorem solve_deficient {options : Options α} (deficient : f.rank options < f.order) {k nrhs : Nat}
    (whole : k = f.order * nrhs) (transposed : Bool) (rhs : Vector α k) :
    f.solve options nrhs transposed rhs =
      .error (.factorization .solve (.rankDeficient (f.rank options) f.order)) := by
  unfold solve Factor.eachColumn
  rw [if_pos whole, Outcome.ok_bind]
  exact if_pos deficient

/-- QR is exact and shows the rank in an ordered field with square roots. After an accepted analysis,
all values are accepted and have factors, as long as there is room for a dense matrix on the pattern.
With tolerance zero the rank that is shown is the rank of the matrix. With any other tolerance it is
at most the order: where it is the order, the solver finds the only solution of both systems for every
column of a right-hand side, and where it is less, solving fails and leaves the right-hand side as it
was. -/
theorem pivoted_numeric_exact [RootScalar α] {a : SparseMatrix α} {s t t' : Staged α (QR α)}
    {outcome : Except Error Unit} (analysed : Staged.symbolic a.pattern s = (.ok (), t))
    (ran : Staged.numeric factorize a.pattern a.values t = (outcome, t')) :
    a.ncols = a.nrows ∧
    (¬ a.pattern.Roomy → outcome = .error .sizeOverflow) ∧
    (a.pattern.Roomy → outcome = .ok () ∧
      (∃ f, t'.factors = some f ∧ ∃ π, f.Factorizes (a.matrix a.nrows) π) ∧
      (s.options.rankTolerance = 0 → (BuiltIn.qr t').rank = .ok (a.matrix a.nrows).rank) ∧
      (0 ≤ s.options.rankTolerance → ∃ r ≤ a.nrows, (BuiltIn.qr t').rank = .ok r ∧
        (r = a.nrows → Factor.Solves (a.matrix a.nrows) fun nrhs transposed rhs =>
          (BuiltIn.qr t').solve nrhs transposed rhs) ∧
        (r < a.nrows → ∀ (ω : Type) (w : ω) (k nrhs : Nat) (transposed : Bool) (rhs : Vector α k),
          k = a.nrows * nrhs → Backend.solve (BuiltIn.qr t') nrhs transposed (rhs, w) =
            (.error (.factorization .solve (.rankDeficient r a.nrows)), (rhs, w))))) := by
  obtain ⟨square, succeeds, reached⟩ := Staged.outcome_numeric analysed ran
  refine ⟨square, fun crowded => ?_, fun roomy => ?_⟩
  · exact Staged.outcome_of_refused analysed ran (factorize_of_crowded crowded)
  obtain ⟨f, done, π, reduces, dominates⟩ :=
    factorize_reduces s.options roomy (rfl : a.nrows = a.nrows) square
  obtain rfl := reached a f rfl rfl done
  have order : f.order = a.nrows := congrArg Prod.fst reduces.shape
  refine ⟨succeeds.mpr ⟨a, rfl, rfl, f, done⟩, ⟨f, rfl, π, reduces.factorizes dominates⟩,
    fun zero => congrArg Except.ok (reduces.rank_zero dominates zero), fun nonneg =>
    ⟨f.rank s.options, order ▸ f.rank_le_order s.options, rfl, fun full => ?_, fun deficient => ?_⟩⟩
  · have all : ¬ f.rank s.options < f.order := (full.trans order.symm).not_lt
    exact reduces.solves (order ▸ pivots_of_rank nonneg all) all
  · intro ω w k nrhs transposed rhs whole
    rw [← order] at deficient whole
    have refused : (BuiltIn.qr ⟨s.options, some a.nrows, some f⟩).solve nrhs transposed rhs =
        .error (.factorization .solve (.rankDeficient (f.rank s.options) a.nrows)) :=
      order ▸ solve_deficient deficient whole transposed rhs
    exact Run.replace_error refused w

/-- The matrix `[[1, 3], [2, 4]]`, whose second column is longer, has rank two, and the system with
right-hand side `(7, 10)` has the solution `(1, 2)`. -/
theorem pivoted_numeric_exact_two :
    let s : Staged ℝ (QR ℝ) := .new ⟨0, 0⟩
    let t := (Staged.symbolic (.dense 2 2) s).2
    let t' := (Staged.numeric factorize (.dense 2 2) #[1, 2, 3, 4] t).2
    Staged.symbolic (.dense 2 2) s = (.ok (), t) ∧ (BuiltIn.qr t').rank = .ok 2 ∧
      ∃ x, (BuiltIn.qr t').solve 1 false #v[7, 10] = .ok x ∧
        columnOf 2 0 x.toArray = ![1, 2] := by
  intro s t t'
  have analysed : Staged.symbolic (.dense 2 2) s = (.ok (), t) := Staged.symbolic_dense_two s
  let a : SparseMatrix ℝ := ⟨.dense 2 2, #[1, 2, 3, 4], rfl⟩
  have ran : Staged.numeric factorize a.pattern a.values t =
      ((Staged.numeric factorize a.pattern a.values t).1, t') := rfl
  have roomy : a.pattern.Roomy := by decide
  obtain ⟨-, -, exact_rank, solving⟩ := (pivoted_numeric_exact (a := a) analysed ran).2.2 roomy
  have matrix : a.matrix 2 = !![1, 3; 2, 4] := by
    ext i j
    fin_cases i <;> fin_cases j <;> rfl
  have invertible : (a.matrix 2).det ≠ 0 := by
    rw [matrix, det_fin_two_of]
    norm_num
  have shown : (BuiltIn.qr t').rank = .ok 2 :=
    (exact_rank rfl).trans (congrArg Except.ok (rank_of_det_ne_zero invertible))
  obtain ⟨r, -, shown', full, -⟩ := solving le_rfl
  obtain rfl : 2 = r := Except.ok.inj (shown.symm.trans shown')
  have solves : Factor.Solves (a.matrix 2) fun nrhs transposed rhs =>
    (BuiltIn.qr t').solve nrhs transposed rhs := full rfl
  obtain ⟨x, solved, unique⟩ := solves 2 1 false #v[7, 10] rfl
  refine ⟨analysed, shown, x, solved, ((unique 0 Nat.one_pos ![1, 2]).mp ?_).symm⟩
  change (a.matrix 2).mulVec ![1, 2] = columnOf 2 0 #[7, 10]
  rw [matrix]
  ext i
  fin_cases i <;> norm_num [columnOf, mulVec, dotProduct]

end Backend

end QR

end Cotangent
