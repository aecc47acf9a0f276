import Mathlib
import Cotangent.Proofs.Entries
import Cotangent.Proofs.SparseExact
import Cotangent.Solver.BuiltIn

/-! Values that are all multiplied by one number. Every threshold of a factorization is relative to the
largest value, and every comparison is one of magnitudes, so multiplying by a number other than zero
decides nothing anew: the largest entries stand in the same places and the same entries count for the
rank. What a failure reports is the same but for the magnitude that it prints. -/
namespace Cotangent

open Matrix

variable {α β γ : Type}

/-! ### Failures -/

/-- The error without the magnitude that it reports. -/
def Error.unmeasured : Error → Error
  | .factorization stage (.zeroPivot k _) => .factorization stage (.zeroPivot k "")
  | .factorization stage (.notPositiveDefinite k _) =>
    .factorization stage (.notPositiveDefinite k "")
  | e => e

namespace Outcome

/-- Both computations succeed with related results, or both fail alike, but for a magnitude. -/
inductive Parallel (R : β → γ → Prop) : Except Error β → Except Error γ → Prop
  | ok {x : β} {y : γ} (related : R x y) : Parallel R (.ok x) (.ok y)
  | error {e e' : Error} (alike : e.unmeasured = e'.unmeasured) : Parallel R (.error e) (.error e')

theorem Parallel.imp {R S : β → γ → Prop} {x : Except Error β} {y : Except Error γ}
    (parallel : Parallel R x y) (weaker : ∀ x y, R x y → S x y) : Parallel S x y := by
  cases parallel with
  | ok related => exact .ok (weaker _ _ related)
  | error alike => exact .error alike

/-- What is known of the results alone is known of related results. -/
theorem Parallel.and_results {R : β → γ → Prop} {x : Except Error β} {y : Except Error γ}
    {P : β → Prop} {Q : γ → Prop} (parallel : Parallel R x y) (first : ∀ b, x = .ok b → P b)
    (second : ∀ b, y = .ok b → Q b) : Parallel (fun b b' => R b b' ∧ P b ∧ Q b') x y := by
  cases parallel with
  | ok related => exact .ok ⟨related, first _ rfl, second _ rfl⟩
  | error alike => exact .error alike

/-- Two loops whose turns stay parallel. -/
theorem Parallel.foldlM_range {R : Nat → β → γ → Prop} {f : β → Nat → Except Error β}
    {g : γ → Nat → Except Error γ} {x : β} {y : γ} {n : Nat} (start : R 0 x y)
    (turn : ∀ k < n, ∀ x y, R k x y → Parallel (R (k + 1)) (f x k) (g y k)) :
    Parallel (R n) ((List.range n).foldlM f x) ((List.range n).foldlM g y) := by
  induction n with
  | zero => exact .ok start
  | succ n ih =>
    rw [List.range_succ, List.foldlM_append, List.foldlM_append]
    have before := ih fun k inside => turn k (inside.trans n.lt_succ_self)
    generalize (List.range n).foldlM f x = first, (List.range n).foldlM g y = second at before
    cases before with
    | ok related =>
      simp only [List.foldlM_cons, List.foldlM_nil, ok_bind, bind_pure]
      exact turn n n.lt_succ_self _ _ related
    | error alike => exact .error alike

end Outcome

/-! ### Comparisons -/

section Compare

variable [FieldScalar α] [LinearOrder α] [OrderedScalar α] {c γ : α}

theorem lt_scaled (positive : 0 < γ) (x y : α) : Scalar.lt (γ * x) (γ * y) = Scalar.lt x y := by
  rw [Bool.eq_iff_iff, OrderedScalar.lt_iff, OrderedScalar.lt_iff, mul_lt_mul_iff_right₀ positive]

theorem le_scaled (positive : 0 < γ) (x y : α) : Scalar.le (γ * x) (γ * y) = Scalar.le x y := by
  rw [Bool.eq_iff_iff, OrderedScalar.le_iff, OrderedScalar.le_iff, mul_le_mul_iff_right₀ positive]

omit [LinearOrder α] [OrderedScalar α] in
theorem isZero_scaled (nonzero : c ≠ 0) (x : α) : Scalar.isZero (c * x) = Scalar.isZero x := by
  rw [Bool.eq_iff_iff, isZero_iff, isZero_iff, mul_eq_zero_iff_left nonzero]

theorem abs_scaled (x : α) : Scalar.abs (c * x) = |c| * Scalar.abs x := by
  rw [OrderedScalar.abs_eq, OrderedScalar.abs_eq, abs_mul]

theorem max_scaled (positive : 0 < γ) (x y : α) :
    Scalar.max (γ * x) (γ * y) = γ * Scalar.max x y := by
  rw [Scalar.max, Scalar.max, lt_scaled positive]
  split <;> rfl

/-- Magnitudes that are all scaled have a scaled maximum. -/
theorem maxAbs_scaled (positive : 0 < γ) {xs : List β} {f g : β → α}
    (scaled : ∀ x ∈ xs, |g x| = γ * |f x|) :
    Scalar.maxAbs (xs.map g) = γ * Scalar.maxAbs (xs.map f) := by
  unfold Scalar.maxAbs
  rw [List.foldl_map, List.foldl_map]
  refine foldl_relates (R := fun _ m m' => m = γ * m') xs (mul_zero γ).symm ?_
  rintro done x rest m m' split rfl
  rw [OrderedScalar.abs_eq, OrderedScalar.abs_eq, scaled x (by simp [split]), max_scaled positive]

/-- Scaled weights have their first maximum at the same index. -/
theorem Factor.firstMax_scaled (positive : 0 < γ) {weight weight' : Nat → α} {start stop : Nat}
    (some : start < stop) (scaled : ∀ i, start ≤ i → i < stop → weight' i = γ * weight i) :
    firstMax weight' start stop =
      ((firstMax weight start stop).1, γ * (firstMax weight start stop).2) := by
  refine foldl_relates (R := fun _ (best' best : Nat × α) => best' = (best.1, γ * best.2)) _
    (by rw [scaled start le_rfl some]) ?_
  rintro done i rest _ best split rfl
  have member : i ∈ List.range' (start + 1) (stop - (start + 1)) := by simp [split]
  rw [List.mem_range'_1] at member
  dsimp only
  rw [scaled i (by omega) (by omega), lt_scaled positive]
  split <;> rfl

/-- Scaled entries count alike for the rank. -/
theorem Factor.numericalRank_scaled (positive : 0 < γ) {xs : List β} {f g : β → α}
    (scaled : ∀ x ∈ xs, |g x| = γ * |f x|) (tolerance : α) :
    numericalRank tolerance (xs.map g) = numericalRank tolerance (xs.map f) := by
  unfold numericalRank
  simp only [maxAbs_scaled positive scaled, isZero_scaled positive.ne', List.countP_map]
  congr 1
  refine List.countP_congr fun x member => ?_
  simp only [Function.comp_apply, OrderedScalar.abs_eq, scaled x member, mul_left_comm tolerance γ,
    lt_scaled positive]

end Compare

/-! ### Arrays and cells -/

section Arrays

variable [FieldScalar α] {c : α} (xs : Array α)

/-- The values of cells multiplied. -/
def scaleCells [Mul β] (c : β) (cells : List (Nat × β)) : List (Nat × β) :=
  cells.map fun cell => (cell.1, c * cell.2)

theorem fst_scaleCells (c : α) (cells : List (Nat × α)) :
    (scaleCells c cells).map (·.1) = cells.map (·.1) := by
  simp [scaleCells]

theorem getD_map_mul (c : α) (k : Nat) : (xs.map (c * ·)).getD k 0 = c * xs.getD k 0 := by
  simp only [Array.getD_eq_getD_getElem?, Array.getElem?_map]
  cases xs[k]? <;> simp

theorem map_mul_setIfInBounds (c x : α) (k : Nat) :
    (xs.map (c * ·)).setIfInBounds k (c * x) = (xs.setIfInBounds k x).map (c * ·) :=
  Array.map_setIfInBounds.symm

theorem map_mul_clear (c : α) (k : Nat) :
    (xs.map (c * ·)).setIfInBounds k 0 = (xs.setIfInBounds k 0).map (c * ·) := by
  rw [← map_mul_setIfInBounds, mul_zero]

/-- A change that commutes with the multiplication. -/
theorem map_mul_modify (k : Nat) {f g : α → α} (commutes : ∀ x, g (c * x) = c * f x) :
    (xs.map (c * ·)).modify k g = (xs.modify k f).map (c * ·) := by
  refine Array.ext (by simp) fun i inside _ => ?_
  simp only [Array.getElem_modify, Array.getElem_map]
  split
  · exact commutes _
  · rfl

end Arrays

/-! ### Matrices -/

namespace SparseMatrix

/-- All values multiplied by a number. -/
def scaled [Mul α] (c : α) (a : SparseMatrix α) : SparseMatrix α :=
  ⟨a.pattern, a.values.map (c * ·), by simp [a.size_values]⟩

variable [FieldScalar α] (c : α) (a : SparseMatrix α)

theorem entry_scaled (i j : Nat) : (a.scaled c).entry i j = c * a.entry i j := by
  unfold entry
  simp only [scaled]
  split
  · exact getD_map_mul a.values c _
  · exact (mul_zero c).symm

theorem col_scaled (j : Nat) : (a.scaled c).col j = scaleCells c (a.col j) := by
  simp only [col, scaled, scaleCells, List.map_map, getD_map_mul]
  rfl

theorem entry_toDense_scaled {i j : Nat} (hi : i < a.nrows) (hj : j < a.ncols) :
    (a.scaled c).toDense.entry i j = c * a.toDense.entry i j := by
  have given : (a.scaled c).toDense.entry i j = (a.scaled c).entry i j := entry_toDense hi hj
  rw [given, entry_toDense hi hj, a.entry_scaled]

theorem matrix_scaled (n : Nat) : (a.scaled c).matrix n = c • a.matrix n := by
  ext i j
  exact a.entry_scaled c i j

/-- The tolerance grows with the values. -/
theorem pivotTolerance_scaled [LinearOrder α] [OrderedScalar α] {c : α} (nonzero : c ≠ 0)
    (threshold : α) : Factor.pivotTolerance threshold (a.scaled c).values =
      |c| * Factor.pivotTolerance threshold a.values := by
  have largest := maxAbs_scaled (abs_pos.mpr nonzero) (f := id) (g := (c * ·))
    fun x (_ : x ∈ a.values.toList) => abs_mul c x
  rw [List.map_id] at largest
  rw [Factor.pivotTolerance, scaled, Array.toList_map, largest, Factor.pivotTolerance,
    mul_left_comm]

end SparseMatrix

/-! ### Solutions -/

section Solutions

variable [FieldScalar α] {n : Nat} {a : Matrix (Fin n) (Fin n) α} {c : α}
  {solve solve' : {m : Nat} → Nat → Bool → Vector α m → Except Error (Vector α m)}

/-- Rules that solve the systems of a matrix and of its multiple give proportional solutions. -/
theorem Factor.Solves.scaled (solves : Solves a solve) (solves' : Solves (c • a) solve')
    (nonzero : c ≠ 0) {m nrhs : Nat} (whole : m = n * nrhs) (transposed : Bool) (rhs : Vector α m) :
    solve' nrhs transposed rhs = (solve nrhs transposed rhs).map fun x => x.map (· / c) := by
  obtain ⟨x, solved, columns⟩ := solves m nrhs transposed rhs whole
  obtain ⟨x', solved', columns'⟩ := solves' m nrhs transposed rhs whole
  dsimp only at solved solved'
  rw [solved, solved']
  refine congrArg Except.ok (Vector.ext fun k inside => ?_)
  obtain ⟨place, row, column⟩ := DenseMatrix.place_eq (whole ▸ inside : k < n * nrhs)
  have given := (columns' (k / n) column _).mpr rfl
  have multiple : (if transposed then (c • a)ᵀ else c • a) = c • if transposed then aᵀ else a := by
    cases transposed
    · rfl
    · exact transpose_smul c a
  rw [multiple, smul_mulVec, ← mulVec_smul] at given
  have here := congrFun ((columns (k / n) column _).mp given) ⟨k % n, row⟩
  have read (v : Vector α m) : columnOf n (k / n) v.toArray ⟨k % n, row⟩ = v[k] := by
    simp [columnOf, place, Array.getD_eq_getD_getElem?, inside]
  rw [Pi.smul_apply, smul_eq_mul, read, read] at here
  rw [Vector.getElem_map, ← here, mul_div_cancel_left₀ _ nonzero]

/-- So they do for all right-hand sides, if they refuse the same. -/
theorem Factor.Solves.scaled_of_refused (solves : Solves a solve) (solves' : Solves (c • a) solve')
    (nonzero : c ≠ 0)
    (refused : ∀ {m : Nat} (nrhs : Nat) (transposed : Bool) (rhs : Vector α m), m ≠ n * nrhs →
      ∃ e, solve nrhs transposed rhs = .error e ∧ solve' nrhs transposed rhs = .error e)
    {m : Nat} (nrhs : Nat) (transposed : Bool) (rhs : Vector α m) :
    solve' nrhs transposed rhs = (solve nrhs transposed rhs).map fun x => x.map (· / c) := by
  by_cases whole : m = n * nrhs
  · exact solves.scaled solves' nonzero whole transposed rhs
  · obtain ⟨e, first, second⟩ := refused nrhs transposed rhs whole
    rw [first, second]
    rfl

theorem Factor.eachColumn_refused {m nrhs : Nat} (other : m ≠ n * nrhs) (rule : Array α → Array α)
    (rhs : Vector α m) : eachColumn n nrhs rule rhs =
      .error (sizeFault (n * nrhs) (.shapeMismatch [n, nrhs] [m])) :=
  if_neg other

end Solutions

/-! ### Backends -/

/-- The order in which the pivots of a backend were chosen. Cholesky chooses none. -/
def BuiltIn.pivotOrder : BuiltIn α → Option (Array Nat)
  | denseLU s => s.factors.map (·.perm)
  | sparseLU s => s.factors.map (·.step)
  | qr s => s.factors.map (·.perm)
  | cholesky _ => none

/-- Two backends with factors of a matrix and of `c` times that matrix. -/
structure BuiltIn.Rescaled [Scalar α] (c : α) (b b' : BuiltIn α) : Prop where
  pivotOrder : b'.pivotOrder = b.pivotOrder
  rank : b'.rank = b.rank
  solve : ∀ {m : Nat} (nrhs : Nat) (transposed : Bool) (rhs : Vector α m),
    b'.solve nrhs transposed rhs = (b.solve nrhs transposed rhs).map fun x => x.map (· / c)

/-- What becomes of values and of `c` times these values: both are accepted and give factors of which
one is a multiple of the other, or both are rejected alike, but for a magnitude. -/
def BuiltIn.Proportional [Scalar α] (c : α) (x y : Except Error Unit × BuiltIn α) : Prop :=
  (x.1 = .ok () ∧ y.1 = .ok () ∧ Rescaled c x.2 y.2) ∨
    ∃ e e', x.1 = .error e ∧ y.1 = .error e' ∧ e.unmeasured = e'.unmeasured

section Staged

variable [FieldScalar α] {φ : Type} {factorize : Options α → SparseMatrix α → Except Error φ}
  {wrap : Staged α φ → BuiltIn α} {c : α} {p : Pattern} {s : Staged α φ}

/-- For a backend that only keeps its factors, the factorization decides. -/
theorem BuiltIn.proportional_of_parallel (accepted : (Staged.symbolic p s).1 = .ok ())
    (parallel : ∀ a : SparseMatrix α, a.ncols = a.nrows → Outcome.Parallel
      (fun f f' => Rescaled c (wrap ⟨s.options, some a.nrows, some f⟩)
        (wrap ⟨s.options, some a.nrows, some f'⟩))
      (factorize s.options a) (factorize s.options (a.scaled c))) (values : Array α) :
    Proportional c (step wrap (Staged.numeric factorize p values) (Staged.symbolic p s).2)
      (step wrap (Staged.numeric factorize p (values.map (c * ·))) (Staged.symbolic p s).2) := by
  have square := (Staged.symbolic_eq_ok.mp accepted).1
  rw [Staged.state_symbolic accepted]
  by_cases size : values.size = p.nnz
  · let a : SparseMatrix α := ⟨p, values, size⟩
    have run := Staged.numeric_eq factorize (a := a) (s := ⟨s.options, some p.nrows, none⟩) rfl square
    have run' := Staged.numeric_eq factorize (a := a.scaled c)
      (s := ⟨s.options, some p.nrows, none⟩) rfl square
    have both := parallel a square
    change Proportional c (step wrap (Staged.numeric factorize a.pattern a.values) _)
      (step wrap (Staged.numeric factorize (a.scaled c).pattern (a.scaled c).values) _)
    unfold step
    rw [run, run']
    generalize factorize s.options a = x, factorize s.options (a.scaled c) = y at both
    cases both with
    | ok related => exact .inl ⟨rfl, rfl, related⟩
    | error alike => exact .inr ⟨_, _, rfl, rfl, alike⟩
  · have same : (values.map (c * ·)).size = values.size := Array.size_map
    unfold step
    rw [Staged.numeric_of_size_ne factorize rfl square size,
      Staged.numeric_of_size_ne factorize rfl square (same.symm ▸ size), same]
    exact .inr ⟨_, _, rfl, rfl, rfl⟩

end Staged

end Cotangent
