import Cotangent.Program.Basic

/-!
The matrix of partial derivatives of one output by one input, elements numbered column by column on
both sides. One forward direction for every element of the input, or one adjoint direction for every
element of the output, whichever is less.
-/

namespace Cotangent.Program

variable {α σ : Type} [Scalar α]

/-- Zeros of the given shapes, but for a one at one element of one of them (`unit_seeds`). -/
def unitSeeds (count slot element : Nat) (shape? : Nat → Option Shape) : List (DenseMatrix α) :=
  (List.range count).map fun s =>
    let zero : DenseMatrix α := DenseMatrix.fill ((shape? s).getD (0, 0)) 0
    if s = slot then
      ⟨zero.nrows, zero.ncols, zero.data.setIfInBounds element 1, by simp [zero.size_data]⟩
    else zero

/-- The element of a sensitivity in some direction. -/
def element (s : Sensitivities α) (direction slot k : Nat) : α :=
  (((s.sensitivities[direction]?).bind (·[slot]?)).map (·.data.getD k 0)).getD 0

/-- The partial derivatives of an output by an input, if there is room for the matrix
(`Function.jacobian`). -/
def jacobian (input output : Nat) (inputs : List (DenseMatrix α)) :
    Run (Program α σ × σ) (DenseMatrix α) := do
  let f ← current
  let some inShape := f.plan.inputShape? input
    | throw (.invalidArgument (.inputIndex input f.inputCount))
  let some outShape := f.plan.outputShape? output
    | throw (.invalidArgument (.outputIndex output f.outputCount))
  let nin := inShape.elements
  let nout := outShape.elements
  Run.ofExcept (checkRoom (nout * nin))
  if nin ≤ nout then
    let s ← forward inputs
      ((List.range nin).map fun j => unitSeeds f.inputCount input j f.plan.inputShape?)
    return .ofFn nout nin fun k j => element s j output k
  else
    let s ← adjoint inputs
      ((List.range nout).map fun k => unitSeeds f.outputCount output k f.plan.outputShape?)
    return .ofFn nout nin fun k j => element s k input j

end Cotangent.Program
