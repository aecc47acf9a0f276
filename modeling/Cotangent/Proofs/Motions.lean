import Mathlib
import Cotangent.Expression.Linear
import Cotangent.Proofs.EntryRules
import Cotangent.Proofs.RealScalar
import Cotangent.Proofs.Shapes

/-! Matrices in motion over the real numbers. A motion is a curve of matrices of one shape and its
velocity at time zero, entry by entry a derivative. A primitive differentiates when it takes motions
of its operands to a motion of its result, and the velocity of the result is what its forward rule
answers for the velocities of the operands. -/
namespace Cotangent

open Filter Topology

/-! ### Shapes that broadcast -/

namespace DenseMatrix

variable {α : Type} [RingScalar α] {a b y : DenseMatrix α}

theorem broadcastShape_of_zipMap {f : α → α → α} (zipped : a.zipMap f b = .ok y) :
    BinaryKind.broadcastShape a.shape b.shape = .ok y.shape := by
  rw [broadcastShape_eq_ok]
  unfold zipMap at zipped
  split at zipped
  · next same =>
    cases zipped
    exact ⟨.inl rfl, .inl rfl, .inl same.symm⟩
  · split at zipped
    · next read =>
      cases zipped
      exact ⟨.inr rfl, .inr (scalar?_eq_some read).1, .inl rfl⟩
    · next read =>
      cases zipped
      exact ⟨.inl rfl, .inl rfl, .inr (scalar?_eq_some read).1⟩
    · cases zipped

theorem exists_entry_of_broadcast {s : Shape} (fits : a.shape = s ∨ a.shape = (1, 1)) {i j : Nat}
    (hi : i < s.1) (hj : j < s.2) :
    ∃ i' < a.nrows, ∃ j' < a.ncols, a.entry i' j' = a.broadcast i j := by
  by_cases one : a.shape = (1, 1)
  · obtain ⟨rows, columns⟩ := Prod.mk.inj one
    exact ⟨0, by omega, 0, by omega, (if_pos one).symm⟩
  · obtain rfl := fits.resolve_right one
    exact ⟨i, hi, j, hj, (if_neg one).symm⟩

end DenseMatrix

/-! ### Motions -/

/-- A curve of matrices of one shape and its velocity at time zero. -/
structure Motion where
  path : ℝ → DenseMatrix ℝ
  velocity : DenseMatrix ℝ
  shape_path : ∀ t, (path t).shape = velocity.shape
  hasDerivAt : ∀ i < velocity.nrows, ∀ j < velocity.ncols,
    HasDerivAt (fun t => (path t).entry i j) (velocity.entry i j) 0

namespace Motion

/-- The matrix at time zero. -/
def value (m : Motion) : DenseMatrix ℝ := m.path 0

theorem shape_value (m : Motion) : m.value.shape = m.velocity.shape := m.shape_path 0

theorem nrows_path (m : Motion) (t : ℝ) : (m.path t).nrows = m.velocity.nrows :=
  congrArg Prod.fst (m.shape_path t)

theorem ncols_path (m : Motion) (t : ℝ) : (m.path t).ncols = m.velocity.ncols :=
  congrArg Prod.snd (m.shape_path t)

/-- The derivative of what stands at a place when a one by one matrix fits every shape. -/
theorem hasDerivAt_broadcast (m : Motion) {s : Shape}
    (fits : m.velocity.shape = s ∨ m.velocity.shape = (1, 1)) {i j : Nat} (hi : i < s.1)
    (hj : j < s.2) :
    HasDerivAt (fun t => (m.path t).broadcast i j) (m.velocity.broadcast i j) 0 := by
  unfold DenseMatrix.broadcast
  simp only [m.shape_path]
  by_cases one : m.velocity.shape = (1, 1)
  · simp only [if_pos one]
    obtain ⟨rows, columns⟩ := Prod.mk.inj one
    exact m.hasDerivAt 0 (by omega) 0 (by omega)
  · simp only [if_neg one]
    obtain rfl := fits.resolve_right one
    exact m.hasDerivAt i hi j hj

/-- Entrywise arithmetic on two motions. -/
theorem exists_zipMap (a b : Motion) (f : ℝ → ℝ → ℝ) {s : Shape}
    (fits : BinaryKind.broadcastShape a.velocity.shape b.velocity.shape = .ok s)
    {dy : DenseMatrix ℝ} (shape : dy.shape = s)
    (derivative : ∀ i < s.1, ∀ j < s.2, HasDerivAt
      (fun t => f ((a.path t).broadcast i j) ((b.path t).broadcast i j)) (dy.entry i j) 0) :
    ∃ m : Motion, m.velocity = dy ∧ ∀ t, (a.path t).zipMap f (b.path t) = .ok (m.path t) := by
  have each (t : ℝ) := DenseMatrix.exists_zipMap f (a := a.path t) (b := b.path t)
    (by rw [a.shape_path, b.shape_path, fits])
  choose path zipped shapes using each
  subst shape
  refine ⟨⟨path, dy, shapes, fun i hi j hj => ?_⟩, rfl, zipped⟩
  have entries : (fun t => (path t).entry i j) =
      fun t => f ((a.path t).broadcast i j) ((b.path t).broadcast i j) := by
    funext t
    obtain ⟨rows, columns⟩ := Prod.mk.inj (shapes t)
    exact DenseMatrix.entry_zipMap (zipped t) (rows ▸ hi) (columns ▸ hj)
  rw [entries]
  exact derivative i hi j hj

end Motion

/-- A primitive takes motions of its operands, where it is regular, to a motion of its result with the
velocity that its forward rule answers. -/
def Primitive.Differentiates (p : Primitive ℝ) (regular : List (DenseMatrix ℝ) → Prop) : Prop :=
  ∀ (ms : List Motion) (y dy : DenseMatrix ℝ), p.evaluate (ms.map (·.value)) = .ok y →
    p.forward (ms.map (·.value)) y (ms.map (·.velocity)) = .ok dy → regular (ms.map (·.value)) →
    ∃ m : Motion, m.velocity = dy ∧ ∀ t, p.evaluate (ms.map (·.path t)) = .ok (m.path t)

/-! ### Functions of one operand -/

namespace UnaryKind

/-- Where the function has its derivative: logarithms and roots want positive numbers. -/
def Regular : UnaryKind → ℝ → Prop
  | log, x => 0 < x
  | sqrt, x => 0 < x
  | _, _ => True

theorem hasDerivAt (k : UnaryKind) {f : ℝ → ℝ} {f' t : ℝ} (moving : HasDerivAt f f' t)
    (regular : k.Regular (f t)) :
    HasDerivAt (fun t => k.apply (f t)) (k.derivative (f t) (k.apply (f t)) * f') t := by
  cases k with
  | neg => exact moving.neg.congr_deriv (neg_one_mul f').symm
  | sin => exact moving.sin
  | cos => exact moving.cos
  | exp => exact moving.exp
  | log =>
    refine (moving.log regular.ne').congr_deriv ?_
    change f' / f t = 1 / f t * f'
    ring
  | sqrt =>
    refine (moving.sqrt regular.ne').congr_deriv ?_
    change f' / (2 * √(f t)) = 1 / (1 + 1) / √(f t) * f'
    rw [one_add_one_eq_two]
    ring

/-- Where an operand has entries at which the function has its derivative. -/
def RegularOperands (k : UnaryKind) (xs : List (DenseMatrix ℝ)) : Prop :=
  ∀ x ∈ xs, ∀ i < x.nrows, ∀ j < x.ncols, k.Regular (x.entry i j)

theorem differentiates (k : UnaryKind) :
    (k.primitive : Primitive ℝ).Differentiates k.RegularOperands := by
  intro ms y dy evaluated forwarded regular
  obtain ⟨_, arity, evaluated⟩ := Outcome.bind_eq_ok.mp evaluated
  rw [checkArity_eq_ok, List.length_map] at arity
  obtain ⟨x, rfl⟩ := eq_one_of_length arity
  cases evaluated
  have chained : k.chain [x.value] (x.value.map k.apply) (.ok x.velocity) = .ok dy := forwarded
  have result : (x.value.map k.apply).shape = x.value.shape := rfl
  obtain ⟨shape, entries⟩ := k.entry_chain result x.shape_value.symm chained
  have whole : dy.shape = x.velocity.shape := shape.trans x.shape_value
  obtain ⟨rows, columns⟩ := Prod.mk.inj whole
  refine ⟨⟨fun t => (x.path t).map k.apply, dy, fun t => (x.shape_path t).trans whole.symm,
    fun i hi j hj => ?_⟩, rfl, fun t => rfl⟩
  rw [rows] at hi
  rw [columns] at hj
  have mapped (t : ℝ) : ((x.path t).map k.apply).entry i j = k.apply ((x.path t).entry i j) :=
    DenseMatrix.entry_map k.apply (x.nrows_path t ▸ hi) (x.ncols_path t ▸ hj)
  simp only [mapped]
  have hi' : i < x.value.nrows := x.nrows_path 0 ▸ hi
  have hj' : j < x.value.ncols := x.ncols_path 0 ▸ hj
  rw [entries i hi' j hj', DenseMatrix.entry_map k.apply hi' hj']
  exact k.hasDerivAt (x.hasDerivAt i hi j hj) (regular x.value List.mem_cons_self i hi' j hj')

end UnaryKind

/-! ### Functions of two operands -/

namespace BinaryKind

/-- Where the function has its derivative: quotients want divisors that are not zero. -/
def Regular : BinaryKind → ℝ → Prop
  | div, b => b ≠ 0
  | _, _ => True

theorem hasDerivAt (k : BinaryKind) {f g : ℝ → ℝ} {f' g' t : ℝ} (left : HasDerivAt f f' t)
    (right : HasDerivAt g g' t) (regular : k.Regular (g t)) :
    HasDerivAt (fun t => k.apply (f t) (g t))
      (k.pushEntry (f t) (g t) (k.apply (f t) (g t)) f' g') t := by
  cases k with
  | add => exact left.add right
  | sub => exact left.sub right
  | mul => exact left.mul right
  | div =>
    have nonzero : g t ≠ 0 := regular
    refine (left.div right nonzero).congr_deriv ?_
    change (f' * g t - f t * g') / g t ^ 2 = (f' - f t / g t * g') / g t
    field_simp

/-- Where the second operand has entries that may divide. -/
def RegularOperands (k : BinaryKind) (xs : List (DenseMatrix ℝ)) : Prop :=
  ∀ b, xs[1]? = some b → ∀ i < b.nrows, ∀ j < b.ncols, k.Regular (b.entry i j)

theorem differentiates (k : BinaryKind) :
    (k.primitive : Primitive ℝ).Differentiates k.RegularOperands := by
  intro ms y dy evaluated forwarded regular
  obtain ⟨_, arity, evaluated⟩ := Outcome.bind_eq_ok.mp evaluated
  rw [checkArity_eq_ok, List.length_map] at arity
  obtain ⟨a, b, rfl⟩ := eq_two_of_length arity
  have zipped : a.value.zipMap k.apply b.value = .ok y := evaluated
  have pushed : k.push a.value b.value y a.velocity b.velocity = .ok dy := forwarded
  have fits := DenseMatrix.broadcastShape_of_zipMap zipped
  obtain ⟨shape, entries⟩ := k.entry_push fits rfl a.shape_value.symm b.shape_value.symm pushed
  rw [a.shape_value, b.shape_value] at fits
  obtain ⟨-, first, second⟩ := DenseMatrix.broadcastShape_eq_ok.mp fits
  obtain ⟨m, velocity, evaluates⟩ := a.exists_zipMap b k.apply fits shape fun i hi j hj => by
    rw [entries i hi j hj, DenseMatrix.entry_zipMap zipped hi hj]
    refine k.hasDerivAt (a.hasDerivAt_broadcast (first.imp id id) hi hj)
      (b.hasDerivAt_broadcast second hi hj) ?_
    obtain ⟨i', hi', j', hj', here⟩ :=
      DenseMatrix.exists_entry_of_broadcast (b.shape_value ▸ second) hi hj
    exact here ▸ regular b.value rfl i' hi' j' hj'
  exact ⟨m, velocity, evaluates⟩

end BinaryKind

/-! ### Linear operations -/

namespace Primitive

theorem matmul_differentiates : (matmul : Primitive ℝ).Differentiates fun _ => True := by
  intro ms y dy evaluated forwarded _
  obtain ⟨_, arity, evaluated⟩ := Outcome.bind_eq_ok.mp evaluated
  rw [checkArity_eq_ok, List.length_map] at arity
  obtain ⟨a, b, rfl⟩ := eq_two_of_length arity
  have product : a.value.matmul b.value = .ok y := evaluated
  have pushed : (a.velocity.matmul b.value >>= fun left =>
      a.value.matmul b.velocity >>= fun right => left.accumulate right) = .ok dy := forwarded
  obtain ⟨left, hl, pushed⟩ := Outcome.bind_eq_ok.mp pushed
  obtain ⟨right, hr, added⟩ := Outcome.bind_eq_ok.mp pushed
  obtain ⟨inner, shape, -⟩ := DenseMatrix.matmul_eq_ok product
  obtain ⟨inner₁, shape₁, entries₁⟩ := DenseMatrix.matmul_eq_ok hl
  obtain ⟨inner₂, shape₂, entries₂⟩ := DenseMatrix.matmul_eq_ok hr
  have each (t : ℝ) := DenseMatrix.exists_matmul_of_shapes product
    ((a.shape_path t).trans (a.shape_path 0).symm) ((b.shape_path t).trans (b.shape_path 0).symm)
  choose path products shapes using each
  obtain ⟨-, whole, entries⟩ := DenseMatrix.accumulate_eq_ok added
  obtain ⟨rows, columns⟩ := Prod.mk.inj shape₁
  have fits : dy.shape = (a.velocity.nrows, b.value.ncols) := whole.trans shape₁
  obtain ⟨rows', columns'⟩ := Prod.mk.inj fits
  have same : b.value.ncols = b.velocity.ncols := b.ncols_path 0
  have inner' : a.velocity.ncols = b.velocity.nrows := inner₁.trans (b.nrows_path 0)
  refine ⟨⟨path, dy, fun t => ?_, fun i hi j hj => ?_⟩, rfl, products⟩
  · rw [shapes, shape, fits, ← a.nrows_path 0]
    rfl
  · rw [rows'] at hi
    rw [columns'] at hj
    have entry (t : ℝ) : (path t).entry i j = ∑ p ∈ Finset.range a.velocity.ncols,
        (a.path t).entry i p * (b.path t).entry p j := by
      rw [← a.ncols_path t]
      exact (DenseMatrix.matmul_eq_ok (products t)).2.2 i (a.nrows_path t ▸ hi) j
        ((b.ncols_path t).symm ▸ same ▸ hj)
    have moved : dy.entry i j = ∑ p ∈ Finset.range a.velocity.ncols,
        (a.velocity.entry i p * b.value.entry p j + a.value.entry i p * b.velocity.entry p j) := by
      rw [Finset.sum_add_distrib, entries i (rows ▸ hi) j (columns ▸ hj), entries₁ i hi j hj,
        entries₂ i (a.nrows_path 0 ▸ hi) j (same ▸ hj), ← a.ncols_path 0]
      rfl
    simp only [entry]
    rw [moved]
    refine HasDerivAt.fun_sum fun p within => ?_
    have hp := Finset.mem_range.mp within
    exact (a.hasDerivAt i hi p hp).mul (b.hasDerivAt p (inner' ▸ hp) j (same ▸ hj))

theorem transpose_differentiates : (transpose : Primitive ℝ).Differentiates fun _ => True := by
  intro ms y dy evaluated forwarded _
  obtain ⟨_, arity, -⟩ := Outcome.bind_eq_ok.mp evaluated
  rw [checkArity_eq_ok, List.length_map] at arity
  obtain ⟨x, rfl⟩ := eq_one_of_length arity
  have pushed : x.velocity.transpose = dy := Except.ok.inj forwarded
  subst pushed
  refine ⟨⟨fun t => (x.path t).transpose, x.velocity.transpose, fun t => ?_,
    fun i hi j hj => ?_⟩, rfl, fun t => rfl⟩
  · exact DenseMatrix.shape_transpose (x.shape_path t)
  · have exchanged (t : ℝ) : (x.path t).transpose.entry i j = (x.path t).entry j i :=
      DenseMatrix.entry_transpose (x.path t) ((x.ncols_path t).symm ▸ hi)
        ((x.nrows_path t).symm ▸ hj)
    have exchanged' : x.velocity.transpose.entry i j = x.velocity.entry j i :=
      DenseMatrix.entry_transpose x.velocity hi hj
    simp only [exchanged]
    exact exchanged' ▸ x.hasDerivAt j hj i hi

theorem sum_differentiates : (sum : Primitive ℝ).Differentiates fun _ => True := by
  intro ms y dy evaluated forwarded _
  obtain ⟨_, arity, -⟩ := Outcome.bind_eq_ok.mp evaluated
  rw [checkArity_eq_ok, List.length_map] at arity
  obtain ⟨x, rfl⟩ := eq_one_of_length arity
  have pushed : DenseMatrix.scalar x.velocity.sum = dy := Except.ok.inj forwarded
  subst pushed
  refine ⟨⟨fun t => .scalar (x.path t).sum, _, fun t => rfl, fun i hi j hj => ?_⟩, rfl, fun t => rfl⟩
  obtain rfl : i = 0 := Nat.lt_one_iff.mp hi
  obtain rfl : j = 0 := Nat.lt_one_iff.mp hj
  change HasDerivAt (fun t => (x.path t).sum) x.velocity.sum 0
  simp only [DenseMatrix.sum_eq, x.nrows_path, x.ncols_path]
  refine HasDerivAt.fun_sum fun j within' => HasDerivAt.fun_sum fun i within => ?_
  exact x.hasDerivAt i (Finset.mem_range.mp within) j (Finset.mem_range.mp within')

end Primitive

end Cotangent
