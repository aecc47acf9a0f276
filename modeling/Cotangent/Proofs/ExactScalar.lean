import Mathlib.Algebra.Ring.Int.Defs
import Mathlib.Algebra.Order.Group.Unbundled.Int
import Mathlib.Algebra.Order.Field.Rat
import Mathlib.Algebra.Order.Field.Basic
import Cotangent.Scalar

/-! Numbers that obey laws. The definitions of the library ask for operations only; a theorem that
needs exact arithmetic asks for a commutative ring whose operations are those of the scalars, or for
a field, or for an ordered field whose comparisons are those of the scalars. -/
namespace Cotangent

/-- Scalars whose operations are those of a commutative ring and whose equality is equality. The
functions that a ring does not have, division among them, stay without laws. -/
class RingScalar (α : Type) extends Scalar α, CommRing α where
  /-- Numeric equality is equality. -/
  numEq_iff : ∀ x y : α, numEq x y = true ↔ x = y

/-- Scalars whose numeric equality holds between identical values only. -/
class ExactEq (α : Type) [Scalar α] : Prop where
  eq_of_numEq : ∀ x y : α, Scalar.numEq x y = true → x = y

instance {α : Type} [RingScalar α] : ExactEq α where
  eq_of_numEq x y := (RingScalar.numEq_iff x y).mp

/-- The integers. Functions without integer values are the identity. -/
instance : RingScalar Int where
  toCommRing := inferInstance
  decEq := inferInstance
  div := (· / ·)
  numEq x y := x == y
  lt x y := x < y
  le x y := x ≤ y
  abs x := x.natAbs
  sqrt := id
  sin := id
  cos := id
  exp := id
  log := id
  positional := toString
  scientific := toString
  numEq_iff := by simp

/-- Scalars whose operations are those of a field. -/
class FieldScalar (α : Type) extends RingScalar α, Field α

/-- Scalars of a field whose order is the one that comparisons and magnitudes see. -/
class OrderedScalar (α : Type) [FieldScalar α] [LinearOrder α] : Prop extends
    IsStrictOrderedRing α where
  lt_iff : ∀ x y : α, Scalar.lt x y = true ↔ x < y
  le_iff : ∀ x y : α, Scalar.le x y = true ↔ x ≤ y
  abs_eq : ∀ x : α, Scalar.abs x = |x|

/-- Scalars of an ordered field with its square roots. -/
class RootScalar (α : Type) [FieldScalar α] [LinearOrder α] : Prop extends OrderedScalar α where
  sqrt_nonneg : ∀ x : α, 0 ≤ x → 0 ≤ Scalar.sqrt x
  sqrt_mul_self : ∀ x : α, 0 ≤ x → Scalar.sqrt x * Scalar.sqrt x = x

/-- The rational numbers. Functions without rational values are the identity. -/
instance : FieldScalar Rat where
  toField := inferInstance
  decEq := inferInstance
  numEq x y := x == y
  lt x y := x < y
  le x y := x ≤ y
  abs x := |x|
  sqrt := id
  sin := id
  cos := id
  exp := id
  log := id
  positional := toString
  scientific := toString
  numEq_iff := by simp

instance : OrderedScalar Rat where
  lt_iff x y := by simp [Scalar.lt]
  le_iff x y := by simp [Scalar.le]
  abs_eq _ := rfl

section Ring

variable {α : Type} [RingScalar α]

theorem isZero_iff {x : α} : Scalar.isZero x = true ↔ x = 0 := RingScalar.numEq_iff x 0

end Ring

end Cotangent
