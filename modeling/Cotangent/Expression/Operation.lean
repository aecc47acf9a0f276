import Cotangent.Matrix.Arithmetic

/-!
Operations: what a node of an expression graph can compute. An operation tells the shape of its
result, its value, and both derivatives of its value: forward, from sensitivities of the operands to
one of the result, and adjoint, from a sensitivity of the result to contributions for the operands.
Its calls may fail and may use a state. A `Primitive` is an operation without state.
-/

namespace Cotangent

/-- An operation on matrices over `α` with a state `σ`. -/
structure Operation (α σ : Type) where
  name : String
  arity : Nat
  /-- The shape of the result for operands of these shapes. -/
  outputShape : List Shape → Except Error Shape
  /-- The result. -/
  evaluate : (operands : List (DenseMatrix α)) → Run σ (DenseMatrix α)
  /-- The sensitivity of the result along sensitivities of the operands. -/
  forward : (operands : List (DenseMatrix α)) → (output : DenseMatrix α) →
    (seeds : List (DenseMatrix α)) → Run σ (DenseMatrix α)
  /-- The contribution to every operand of a sensitivity of the result, none for no contribution. -/
  adjoint : (operands : List (DenseMatrix α)) → (output seed : DenseMatrix α) →
    Run σ (List (Option (DenseMatrix α)))
  /-- Forward sensitivities along several directions. -/
  forwardBatch : (operands : List (DenseMatrix α)) → (output : DenseMatrix α) →
    (seeds : List (List (DenseMatrix α))) → Run σ (List (DenseMatrix α)) :=
      fun operands output seeds => seeds.mapM (forward operands output)
  /-- Adjoint contributions along several directions. -/
  adjointBatch : (operands : List (DenseMatrix α)) → (output : DenseMatrix α) →
    (seeds : List (DenseMatrix α)) → Run σ (List (List (Option (DenseMatrix α)))) :=
      fun operands output seeds => seeds.mapM (adjoint operands output)

/-- An operation whose calls depend on nothing but their arguments. -/
structure Primitive (α : Type) where
  name : String
  arity : Nat
  outputShape : List Shape → Except Error Shape
  evaluate : (operands : List (DenseMatrix α)) → Except Error (DenseMatrix α)
  forward : (operands : List (DenseMatrix α)) → (output : DenseMatrix α) →
    (seeds : List (DenseMatrix α)) → Except Error (DenseMatrix α)
  adjoint : (operands : List (DenseMatrix α)) → (output seed : DenseMatrix α) →
    Except Error (List (Option (DenseMatrix α)))

/-- A primitive next to any state. -/
def Primitive.operation {α σ : Type} (p : Primitive α) : Operation α σ where
  name := p.name
  arity := p.arity
  outputShape := p.outputShape
  evaluate operands := .ofExcept (p.evaluate operands)
  forward operands output seeds := .ofExcept (p.forward operands output seeds)
  adjoint operands output seed := .ofExcept (p.adjoint operands output seed)

/-- Refuses a number of operands other than the arity (`check_arity`). -/
def checkArity (operation : String) (expected got : Nat) : Except Error Unit :=
  if expected = got then .ok () else .error (.graph (.arity operation expected got))

end Cotangent
