import Mathlib
import Cotangent.Proofs.Entries
import Cotangent.Proofs.MaximumMatching
import Cotangent.Proofs.SparseFactors
import Cotangent.Proofs.Stages
import Cotangent.Solver.BuiltIn

/-! The structural rank is the largest rank on a pattern. A minor that is not zero has a term that is not
zero, and its factors stand on as many independent positions as the minor has rows; conversely the ones
at the pairs of a matching make a matrix whose columns are independent. So an analysis refuses exactly
those square patterns on which every matrix is singular, whatever the field. -/
namespace Cotangent

open Matrix

universe u

/-! ## Minors -/

section Minors

variable {K : Type u} [Field K] {m n k : Nat}

theorem exists_independent_rows (a : Matrix (Fin m) (Fin n) K) (rank : a.rank = k) :
    ∃ r : Fin k → Fin m, LinearIndependent K (a.submatrix r id).row := by
  rw [rank_eq_finrank_span_row] at rank
  subst rank
  obtain ⟨row, member, -, independent⟩ := Submodule.exists_fun_fin_finrank_span_eq K (Set.range a.row)
  choose r place using member
  refine ⟨r, ?_⟩
  rwa [show (a.submatrix r id).row = row from funext place]

/-- A matrix has a minor of the order of its rank that is not zero. -/
theorem exists_minor (a : Matrix (Fin m) (Fin n) K) :
    ∃ (r : Fin a.rank → Fin m) (c : Fin a.rank → Fin n), (a.submatrix r c).det ≠ 0 := by
  obtain ⟨c, columns⟩ := exists_independent_rows aᵀ (rank_transpose a)
  have thin : (aᵀ.submatrix c id)ᵀ.rank = a.rank := by
    rw [rank_transpose, columns.rank_matrix, Fintype.card_fin]
  obtain ⟨r, rows⟩ := exists_independent_rows _ thin
  exact ⟨r, c, ((isUnit_iff_isUnit_det _).mp (linearIndependent_rows_iff_isUnit.mp rows)).ne_zero⟩

/-- A determinant that is not zero has a term that is not zero. -/
theorem exists_term {a : Matrix (Fin n) (Fin n) K} (nonzero : a.det ≠ 0) :
    ∃ σ : Equiv.Perm (Fin n), ∀ i, a (σ i) i ≠ 0 := by
  rw [det_apply] at nonzero
  obtain ⟨σ, -, term⟩ := Finset.exists_ne_zero_of_sum_ne_zero nonzero
  refine ⟨σ, fun i => ?_⟩
  have product : ∏ i, a (σ i) i ≠ 0 := fun zero => term (by rw [zero, smul_zero])
  exact Finset.prod_ne_zero_iff.mp product i (Finset.mem_univ i)

theorem det_ne_zero_of_rank {a : Matrix (Fin n) (Fin n) K} (full : n ≤ a.rank) : a.det ≠ 0 := by
  have rank : a.rank = n := le_antisymm a.rank_le_width full
  have independent : LinearIndependent K a.row := by
    rw [linearIndependent_iff_card_eq_finrank_span, Fintype.card_fin, Set.finrank,
      ← rank_eq_finrank_span_row, rank]
  exact ((isUnit_iff_isUnit_det _).mp (linearIndependent_rows_iff_isUnit.mp independent)).ne_zero

end Minors

/-! ## The rank on a pattern -/

section Rank

variable {K : Type u} [Field K] {p : Pattern} {m n : Nat} {a : Matrix (Fin m) (Fin n) K}

/-- The entries of a matrix that are not zero lie in the pattern. -/
def Pattern.Supports (p : Pattern) (a : Matrix (Fin m) (Fin n) K) : Prop :=
  ∀ i j, a i j ≠ 0 → (i : Nat) ∈ p.col j

/-- Rows and columns that are named once each make a matching. -/
theorem exists_matching_of_injective {k : Nat} {r c : Fin k → Nat} (edge : ∀ i, r i ∈ p.col (c i))
    (rows : Function.Injective r) (columns : Function.Injective c) :
    ∃ pairs, IsMatching p.col pairs ∧ pairs.card = k := by
  have injective : Function.Injective fun i => (r i, c i) :=
    fun i j same => rows (Prod.mk.inj same).1
  refine ⟨Finset.univ.image fun i => (r i, c i), ⟨?_, ?_, ?_⟩, ?_⟩
  · intro pair member
    obtain ⟨i, -, rfl⟩ := Finset.mem_image.mp member
    exact edge i
  · rintro _ member _ member' same
    obtain ⟨i, -, rfl⟩ := Finset.mem_image.mp member
    obtain ⟨j, -, rfl⟩ := Finset.mem_image.mp member'
    rw [rows same]
  · rintro _ member _ member' same
    obtain ⟨i, -, rfl⟩ := Finset.mem_image.mp member
    obtain ⟨j, -, rfl⟩ := Finset.mem_image.mp member'
    rw [columns same]
  · rw [Finset.card_image_of_injective _ injective, Finset.card_univ, Fintype.card_fin]

/-- On a pattern there is a matching as large as the rank of a matrix. -/
theorem Pattern.Supports.exists_matching (supports : p.Supports a) :
    ∃ pairs, IsMatching p.col pairs ∧ pairs.card = a.rank := by
  obtain ⟨r, c, minor⟩ := exists_minor a
  obtain ⟨σ, term⟩ := exists_term minor
  -- a row or a column that is named twice makes the minor zero
  have rows : Function.Injective fun i => (r (σ i) : Nat) := by
    intro i j same
    by_contra other
    exact minor (det_zero_of_row_eq (σ.injective.ne other)
      (funext fun k => congrArg (a · (c k)) (Fin.ext same)))
  have columns : Function.Injective fun i => (c i : Nat) := by
    intro i j same
    by_contra other
    exact minor (det_zero_of_column_eq other fun k => congrArg (a (r k)) (Fin.ext same))
  exact exists_matching_of_injective (fun i => supports _ _ (term i)) rows columns

/-- No matrix on a pattern has a larger rank. -/
theorem Pattern.Supports.rank_le (supports : p.Supports a) : a.rank ≤ p.structuralRank := by
  obtain ⟨pairs, independent, card⟩ := supports.exists_matching
  obtain ⟨valid, reached, closed⟩ := Matching.ofPattern_closed p
  refine card ▸ valid.card_le_size closed (fun j outside => ?_) independent
  exact List.eq_nil_iff_forall_not_mem.mpr fun i edge =>
    absurd (lt_ncols_of_mem_col edge) (Nat.not_lt.mpr outside)

/-- Ones at the pairs of a matching, zeros elsewhere. -/
def Matching.ones (K : Type u) [Field K] (pairs : Matching) (m n : Nat) : Matrix (Fin m) (Fin n) K :=
  .of fun i j => if pairs.row? j = some (i : Nat) then 1 else 0

/-- Columns of a matching are orthogonal. -/
theorem Matching.Valid.transpose_ones_mul {pairs : Matching} (valid : pairs.Valid p.col m n)
    (bound : ∀ j, ∀ i ∈ p.col j, i < m) : (pairs.ones K m n)ᵀ * pairs.ones K m n =
      diagonal fun j : Fin n => if (pairs.row? j).isSome then 1 else 0 := by
  ext j j'
  rw [mul_apply, diagonal_apply]
  simp only [transpose_apply, ones, of_apply]
  cases matched : pairs.row? j with
  | none => simp
  | some i =>
    have inside := bound j i (valid.edge j i matched)
    rw [Finset.sum_eq_single (⟨i, inside⟩ : Fin m)]
    · by_cases same : j = j'
      · simp [← same, matched]
      · have apart : pairs.row? j' ≠ some i := fun there => same (Fin.ext (Option.some.inj
          (((valid.inverse j i).mp matched).symm.trans ((valid.inverse j' i).mp there))))
        simp [same, apart]
    · intro i' _ other
      have apart : i ≠ (i' : Nat) := fun same => other (Fin.ext same.symm)
      simp [apart]
    · simp

theorem Matching.Valid.size_eq {pairs : Matching} (valid : pairs.Valid p.col m n) :
    pairs.size = (Finset.univ.filter fun j : Fin n => (pairs.row? j).isSome).card := by
  have columns : pairs.columns =
      (Finset.univ.filter fun j : Fin n => (pairs.row? j).isSome).map Fin.valEmbedding := by
    ext j
    rw [Matching.columns, valid.size_rowOf]
    simp only [Finset.mem_filter, Finset.mem_range, Finset.mem_map, Finset.mem_univ, true_and]
    constructor
    · rintro ⟨inside, matched⟩
      exact ⟨⟨j, inside⟩, matched, rfl⟩
    · rintro ⟨j, matched, rfl⟩
      exact ⟨j.isLt, matched⟩
  rw [size_eq_card, columns, Finset.card_map]

/-- The rank of a matching is at least its number of pairs. -/
theorem Matching.Valid.size_le_rank {pairs : Matching} (valid : pairs.Valid p.col m n)
    (bound : ∀ j, ∀ i ∈ p.col j, i < m) : pairs.size ≤ (pairs.ones K m n).rank := by
  classical
  calc pairs.size
      = Fintype.card {j : Fin n // (if (pairs.row? j).isSome then (1 : K) else 0) ≠ 0} := by
        rw [valid.size_eq, Fintype.card_subtype]
        simp [Option.isSome_iff_ne_none]
    _ = ((pairs.ones K m n)ᵀ * pairs.ones K m n).rank := by
        rw [valid.transpose_ones_mul bound, rank_diagonal]
    _ ≤ (pairs.ones K m n).rank := rank_mul_le_right _ _

/-- The structural rank is the largest rank that matrices on the pattern have, over any field. -/
theorem Pattern.isGreatest_rank (p : Pattern) (K : Type u) [Field K] {m n : Nat} (rows : p.nrows = m)
    (columns : p.ncols = n) :
    IsGreatest {r | ∃ a : Matrix (Fin m) (Fin n) K, p.Supports a ∧ a.rank = r} p.structuralRank := by
  subst rows columns
  obtain ⟨valid, -⟩ := Matching.ofPattern_closed p
  have supports : p.Supports ((Matching.ofPattern p).ones K p.nrows p.ncols) := by
    intro i j some
    refine valid.edge j i ?_
    by_contra apart
    exact some (if_neg apart)
  refine ⟨⟨_, supports, le_antisymm supports.rank_le ?_⟩, ?_⟩
  · exact valid.size_le_rank fun _ _ => lt_nrows_of_mem_col
  · rintro _ ⟨a, supports, rfl⟩
    exact supports.rank_le

/-- An array of values is a matrix on the pattern, and every matrix on it is one. -/
theorem SparseMatrix.supports_iff {α : Type} [FieldScalar α] {p : Pattern} {n : Nat}
    (columns : p.ncols = n) {a : Matrix (Fin n) (Fin n) α} :
    p.Supports a ↔ ∃ s : SparseMatrix α, s.pattern = p ∧ s.matrix n = a := by
  constructor
  · intro supports
    refine ⟨.sample p fun i j => if h : i < n ∧ j < n then a ⟨i, h.1⟩ ⟨j, h.2⟩ else 0, rfl, ?_⟩
    ext i j
    refine (entry_sample p _ i j).trans ?_
    split
    · exact dif_pos ⟨i.isLt, j.isLt⟩
    · next outside => exact (not_not.mp (mt (supports i j) outside)).symm
  · rintro ⟨s, rfl, rfl⟩ i j some
    by_contra outside
    exact some (entry_of_not_mem outside)

/-- A matrix on a square pattern can be invertible if and only if the structural rank is full. -/
theorem Pattern.order_le_structuralRank {p : Pattern} (K : Type u) [Field K] {n : Nat}
    (rows : p.nrows = n) (columns : p.ncols = n) :
    n ≤ p.structuralRank ↔ ∃ a : Matrix (Fin n) (Fin n) K, p.Supports a ∧ a.det ≠ 0 := by
  constructor
  · intro full
    obtain ⟨a, supports, rank⟩ := (p.isGreatest_rank K rows columns).1
    exact ⟨a, supports, det_ne_zero_of_rank (rank ▸ full)⟩
  · rintro ⟨a, supports, invertible⟩
    rw [← Fintype.card_fin n, ← rank_of_det_ne_zero invertible]
    exact supports.rank_le

end Rank

/-! ## The analysis -/

/-- An analysis of a square pattern only asks for its structural rank, if there is room to find it. -/
theorem BuiltIn.outcome_symbolic {α : Type} [Scalar α] {b : BuiltIn α} {p : Pattern}
    (general : b.name ∈ ["lu", "sparse_lu", "qr"]) (square : p.ncols = p.nrows) :
    (symbolic p b).1 = (do
      checkRoom (2 * p.nrows)
      if p.structuralRank < p.nrows then
        .error (.factorization .symbolic (.structurallySingular p.structuralRank p.nrows))
      else .ok ()) := by
  cases b with
  | denseLU s => exact Staged.outcome_symbolic square
  | sparseLU s => exact Staged.outcome_symbolic square
  | qr s => exact Staged.outcome_symbolic square
  | cholesky s => simp [name] at general

/-- On a square pattern the analysis of LU, dense or sparse, and of QR succeeds if and only if some
rational values make an invertible matrix, as long as there is room for a matching of its rows, which
take two words each. Within this room the only way to fail is a structural rank below the order, and
then every matrix on the pattern is singular, over any field. The structural rank is the largest rank of
matrices on the pattern, over any field. -/
theorem BuiltIn.symbolic_decides_singularity {p : Pattern} (square : p.ncols = p.nrows) :
    (∀ {α : Type} [Scalar α] (b : BuiltIn α), b.name ∈ ["lu", "sparse_lu", "qr"] →
      ((symbolic p b).1 = .ok () ↔
        2 * p.nrows < wordLimit ∧
          ∃ a : SparseMatrix ℚ, a.pattern = p ∧ (a.matrix p.nrows).det ≠ 0) ∧
      ∀ e, (symbolic p b).1 = .error e →
        e = .sizeOverflow ∧ wordLimit ≤ 2 * p.nrows ∨
        e = .factorization .symbolic (.structurallySingular p.structuralRank p.nrows) ∧
        ∀ (K : Type u) [Field K] (a : Matrix (Fin p.nrows) (Fin p.nrows) K),
          p.Supports a → a.det = 0) ∧
    ∀ (K : Type u) [Field K], IsGreatest
      {r | ∃ a : Matrix (Fin p.nrows) (Fin p.nrows) K, p.Supports a ∧ a.rank = r}
      p.structuralRank := by
  refine ⟨fun b general => ?_, fun K _ => p.isGreatest_rank K rfl square⟩
  rw [outcome_symbolic general square]
  by_cases room : 2 * p.nrows < wordLimit
  · rw [checkRoom_of_lt room, Outcome.ok_bind]
    by_cases deficient : p.structuralRank < p.nrows
    · rw [if_pos deficient]
      refine ⟨⟨nofun, ?_⟩, fun e failed =>
        .inr ⟨(Except.error.inj failed).symm, fun K _ a supports => ?_⟩⟩
      · rintro ⟨-, a, pattern, invertible⟩
        have supports := (SparseMatrix.supports_iff square).mpr ⟨a, pattern, rfl⟩
        have full := (p.order_le_structuralRank ℚ rfl square).mpr ⟨_, supports, invertible⟩
        exact absurd deficient full.not_gt
      · by_contra invertible
        have full := (p.order_le_structuralRank K rfl square).mpr ⟨a, supports, invertible⟩
        exact absurd deficient full.not_gt
    · rw [if_neg deficient]
      refine ⟨⟨fun _ => ⟨room, ?_⟩, fun _ => rfl⟩, fun e => nofun⟩
      obtain ⟨a, supports, invertible⟩ :=
        (p.order_le_structuralRank ℚ rfl square).mp (not_lt.mp deficient)
      obtain ⟨s, pattern, rfl⟩ := (SparseMatrix.supports_iff square).mp supports
      exact ⟨s, pattern, invertible⟩
  · have crowded := Nat.not_lt.mp room
    rw [checkRoom_of_le crowded, Outcome.error_bind]
    refine ⟨⟨nofun, fun possible => absurd possible.1 room⟩, fun e failed => ?_⟩
    exact .inl ⟨(Except.error.inj failed).symm, crowded⟩

/-- The pattern of the upper left positions of a matrix of order three is refused: every real matrix
on it is singular. -/
theorem BuiltIn.symbolic_decides_singularity_corner :
    let p := Pattern.ofTest 3 3 fun i j => i < 2 && j < 2
    let b : BuiltIn ℚ := .sparseLU (.new ⟨0, 0⟩)
    (symbolic p b).1 = .error (.factorization .symbolic (.structurallySingular 2 3)) ∧
      ∀ a : Matrix (Fin 3) (Fin 3) ℝ, p.Supports a → a.det = 0 := by
  intro p b
  have refused : (symbolic p b).1 =
      .error (.factorization .symbolic (.structurallySingular 2 3)) := by decide +kernel
  obtain ⟨decides, -⟩ := symbolic_decides_singularity (p := p) rfl
  rcases (decides b (by decide)).2 _ refused with ⟨overflow, -⟩ | ⟨-, singular⟩
  · cases overflow
  · exact ⟨refused, singular ℝ⟩

end Cotangent
