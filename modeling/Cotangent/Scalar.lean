/-!
The numbers that matrices hold. `Scalar` lists what the library asks of them: the four operations,
comparisons, the elementary functions, and two ways of writing a number. It states no law, so one
definition serves machine numbers, where addition does not even associate, and exact fields alike.
Sums and maxima fix an order of operations, from left to right.
-/

namespace Cotangent

/-- Numbers with the operations that matrices, factorizations and derivatives use. -/
class Scalar (α : Type) extends
    Zero α, One α, Add α, Sub α, Mul α, Div α, Neg α, NatCast α where
  /-- Identity of representations, which may be finer than numeric equality. -/
  decEq : DecidableEq α
  /-- Numeric equality. -/
  numEq : α → α → Bool
  lt : α → α → Bool
  le : α → α → Bool
  abs : α → α
  sqrt : α → α
  sin : α → α
  cos : α → α
  exp : α → α
  log : α → α
  /-- The number written without an exponent. -/
  positional : α → String
  /-- The number written with an exponent. -/
  scientific : α → String

namespace Scalar

variable {α : Type} [Scalar α]

instance (priority := low) instDecidableEq : DecidableEq α := Scalar.decEq

/-- Numerically equal to zero. -/
def isZero (x : α) : Bool := numEq x 0

/-- The sum of a list from left to right. It starts from minus zero, the neutral element of
addition also where zero has a sign. -/
def sum (xs : List α) : α := xs.foldl (· + ·) (-0)

/-- The larger of the two, and the first if they are not comparable. -/
def max (x y : α) : α := if lt x y then y else x

/-- The largest magnitude in a list, zero if there is none. -/
def maxAbs (xs : List α) : α := xs.foldl (fun m x => max m (abs x)) 0

/-- Entrywise numeric equality of two lists. -/
def listEq : List α → List α → Bool
  | [], [] => true
  | x :: xs, y :: ys => numEq x y && listEq xs ys
  | _, _ => false

end Scalar

end Cotangent
