import Cotangent.Expression.Operation

/-!
Linear operations on whole matrices: the product, the transpose and the sum of all entries.
-/

namespace Cotangent.Primitive

variable {α : Type} [Scalar α]

/-- The product of two matrices (`MatMul`). -/
def matmul : Primitive α where
  name := "matmul"
  arity := 2
  outputShape shapes := do
    checkArity "matmul" 2 shapes.length
    let a ← elementAt shapes 0
    let b ← elementAt shapes 1
    if a.2 = b.1 then .ok (a.1, b.2) else .error (.shapeMismatch [a.2, b.2] b.toList)
  evaluate operands := do
    checkArity "matmul" 2 operands.length
    (← elementAt operands 0).matmul (← elementAt operands 1)
  forward operands _ seeds := do
    checkArity "matmul" 2 seeds.length
    let b ← elementAt operands 1
    let a ← elementAt operands 0
    let left ← (← elementAt seeds 0).matmul b
    left.accumulate (← a.matmul (← elementAt seeds 1))
  adjoint operands _ seed := do
    let b ← elementAt operands 1
    let a ← elementAt operands 0
    let abar ← seed.matmul b.transpose
    let bbar ← a.transpose.matmul seed
    return [some abar, some bbar]

/-- Rows become columns (`Transpose`). -/
def transpose : Primitive α where
  name := "transpose"
  arity := 1
  outputShape shapes := do
    checkArity "transpose" 1 shapes.length
    let a ← elementAt shapes 0
    return (a.2, a.1)
  evaluate operands := do
    checkArity "transpose" 1 operands.length
    return (← elementAt operands 0).transpose
  forward _ _ seeds := do
    checkArity "transpose" 1 seeds.length
    return (← elementAt seeds 0).transpose
  adjoint _ _ seed := return [some seed.transpose]

/-- The sum of all entries, as a one by one matrix (`Sum`). -/
def sum : Primitive α where
  name := "sum"
  arity := 1
  outputShape shapes := do
    checkArity "sum" 1 shapes.length
    return (1, 1)
  evaluate operands := do
    checkArity "sum" 1 operands.length
    return .scalar (← elementAt operands 0).sum
  forward _ _ seeds := do
    checkArity "sum" 1 seeds.length
    return .scalar (← elementAt seeds 0).sum
  adjoint operands _ seed := do
    match seed.scalar? with
    | none => .error (.shapeMismatch [1, 1] seed.shape.toList)
    | some g => return [some (.fill (← elementAt operands 0).shape g)]

end Cotangent.Primitive
