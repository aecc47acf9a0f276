import Mathlib
import Cotangent.Proofs.ExactScalar

/-! The real numbers as scalars: the ordered field with exact roots in which statements about
derivatives and about square roots are read. -/
namespace Cotangent

/-- The real numbers. They are not written as text. -/
noncomputable instance : FieldScalar ℝ where
  toField := inferInstance
  decEq := inferInstance
  numEq x y := decide (x = y)
  lt x y := decide (x < y)
  le x y := decide (x ≤ y)
  abs x := |x|
  sqrt := Real.sqrt
  sin := Real.sin
  cos := Real.cos
  exp := Real.exp
  log := Real.log
  positional _ := ""
  scientific _ := ""
  numEq_iff := by simp

instance : RootScalar ℝ where
  lt_iff _ _ := decide_eq_true_iff
  le_iff _ _ := decide_eq_true_iff
  abs_eq _ := rfl
  sqrt_nonneg x _ := Real.sqrt_nonneg x
  sqrt_mul_self _ := Real.mul_self_sqrt

end Cotangent
