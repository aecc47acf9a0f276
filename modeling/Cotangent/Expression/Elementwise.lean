import Cotangent.Expression.Operation

/-!
Operations entry by entry: six functions of one operand and four of two. A one by one operand of the
latter stands for a matrix of the other's shape, and its adjoint contribution is summed up.
-/

namespace Cotangent

variable {α : Type} [Scalar α]

/-- A function of one number. -/
inductive UnaryKind where
  | neg
  | sin
  | cos
  | exp
  | log
  | sqrt
  deriving DecidableEq, Repr

namespace UnaryKind

/-- The name of the operation (`Unary.name`). -/
def name : UnaryKind → String
  | neg => "neg"
  | sin => "sin"
  | cos => "cos"
  | exp => "exp"
  | log => "log"
  | sqrt => "sqrt"

/-- The function itself (`Unary.evaluate`). -/
def apply : UnaryKind → α → α
  | neg => fun x => -x
  | sin => Scalar.sin
  | cos => Scalar.cos
  | exp => Scalar.exp
  | log => Scalar.log
  | sqrt => Scalar.sqrt

/-- The derivative at `x`, where the function has the value `y` (`Unary.derivative`). -/
def derivative : UnaryKind → (x y : α) → α
  | neg, _, _ => -1
  | sin, x, _ => Scalar.cos x
  | cos, x, _ => -Scalar.sin x
  | exp, _, y => y
  | log, x, _ => 1 / x
  | sqrt, _, y => 1 / (1 + 1) / y

/-- The derivative times a sensitivity, entry by entry (`Unary.local_jacobian`). -/
def chain (k : UnaryKind) (operands : List (DenseMatrix α)) (output : DenseMatrix α)
    (seed : Except Error (DenseMatrix α)) : Except Error (DenseMatrix α) := do
  let x ← elementAt operands 0
  let slope ← x.zipMap k.derivative output
  slope.zipMap (· * ·) (← seed)

/-- The operation of one operand (`Unary`). -/
def primitive (k : UnaryKind) : Primitive α where
  name := k.name
  arity := 1
  outputShape shapes := do
    checkArity k.name 1 shapes.length
    elementAt shapes 0
  evaluate operands := do
    checkArity k.name 1 operands.length
    return (← elementAt operands 0).map k.apply
  forward operands output seeds := do
    checkArity k.name 1 seeds.length
    k.chain operands output (elementAt seeds 0)
  adjoint operands output seed := do
    return [some (← k.chain operands output (.ok seed))]

end UnaryKind

/-- A function of two numbers. -/
inductive BinaryKind where
  | add
  | sub
  | mul
  | div
  deriving DecidableEq, Repr

namespace BinaryKind

/-- The name of the operation (`Binary.name`). -/
def name : BinaryKind → String
  | add => "add"
  | sub => "sub"
  | mul => "mul"
  | div => "div"

/-- The function itself (`Binary.evaluate`). -/
def apply : BinaryKind → α → α → α
  | add => (· + ·)
  | sub => (· - ·)
  | mul => (· * ·)
  | div => (· / ·)

/-- The shape of the result: that of the operands, or of the one that is not one by one
(`broadcast_shape`). -/
def broadcastShape (a b : Shape) : Except Error Shape :=
  if a = b ∨ b = (1, 1) then .ok a
  else if a = (1, 1) then .ok b
  else .error (.shapeMismatch a.toList b.toList)

/-- The sensitivity of the result: the product rule for products, and for a quotient `y = a / b`
the difference of the sensitivity of `a` and `y` times that of `b`, over `b` (`Binary.forward`). -/
def push (k : BinaryKind) (a b output da db : DenseMatrix α) : Except Error (DenseMatrix α) :=
  match k with
  | add | sub => da.zipMap k.apply db
  | mul => do
    let left ← da.zipMap (· * ·) b
    let right ← a.zipMap (· * ·) db
    left.zipMap (· + ·) right
  | div => do
    let ydb ← output.zipMap (· * ·) db
    let numerator ← da.zipMap (· - ·) ydb
    numerator.zipMap (· / ·) b

/-- The contributions to both operands before they are reduced to the operands' shapes
(`Binary.adjoint`). -/
def pull (k : BinaryKind) (a b output seed : DenseMatrix α) :
    Except Error (DenseMatrix α × DenseMatrix α) :=
  match k with
  | add => .ok (seed, seed)
  | sub => .ok (seed, seed.scaled (-1))
  | mul => do
    let ga ← seed.zipMap (· * ·) b
    let gb ← seed.zipMap (· * ·) a
    return (ga, gb)
  | div => do
    let ga ← seed.zipMap (· / ·) b
    let gb ← ga.zipMap (fun g y => -g * y) output
    return (ga, gb)

/-- The operation of two operands (`Binary`). -/
def primitive (k : BinaryKind) : Primitive α where
  name := k.name
  arity := 2
  outputShape shapes := do
    checkArity k.name 2 shapes.length
    broadcastShape (← elementAt shapes 0) (← elementAt shapes 1)
  evaluate operands := do
    checkArity k.name 2 operands.length
    (← elementAt operands 0).zipMap k.apply (← elementAt operands 1)
  forward operands output seeds := do
    checkArity k.name 2 seeds.length
    k.push (← elementAt operands 0) (← elementAt operands 1) output
      (← elementAt seeds 0) (← elementAt seeds 1)
  adjoint operands output seed := do
    checkArity k.name 2 operands.length
    let a ← elementAt operands 0
    let b ← elementAt operands 1
    let (ga, gb) ← k.pull a b output seed
    return [some (ga.reduceTo a.shape), some (gb.reduceTo b.shape)]

end BinaryKind

end Cotangent
