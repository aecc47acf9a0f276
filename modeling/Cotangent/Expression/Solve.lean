import Cotangent.Expression.Operation
import Cotangent.Solver.Handle

/-!
The solution of a linear system as an operation: `x = A⁻¹ b`, or `x = A⁻ᵀ b` when transposed. The
operand `A` is read through a fixed pattern; its other entries are ignored and receive no
sensitivity. An operation keeps its solver and the values it factorized last in a cell of a `Store`
and factorizes again only when the values of `A` change.

The forward sensitivity solves `A ẋ = ḃ − Ȧ x`. The adjoint one solves `Aᵀ b̄ = x̄` and has
`Ā = −b̄ xᵀ`, read through the pattern. All directions of a batch share one solve.
-/

namespace Cotangent

/-- A solver and the values that its factors belong to (`SolveState`). -/
structure SolveCell (α β : Type) where
  solver : Solver α β
  /-- The values of the last factorization, if it succeeded. -/
  factored : Option (Array α)

/-- The cells of all solve operations, and the world that their backends share. -/
structure Store (α β ω : Type) where
  cells : Array (SolveCell α β)
  world : ω

/-- A solve operation. -/
structure Solve where
  /-- The number of its cell. -/
  cell : Nat
  /-- The pattern through which `A` is read. -/
  pattern : Pattern
  /-- The transposed system is solved. -/
  transposed : Bool
  deriving DecidableEq

variable {α β ω : Type} [Scalar α]

namespace SolveCell

variable [Backend α ω β]

/-- Factors of a matrix, unless the factors there are belong to numerically equal values. -/
def factorize (a : SparseMatrix α) : Run (SolveCell α β × ω) Unit := fun (c, w) =>
  if c.factored.any fun v => Scalar.listEq v.toList a.values.toList then (.ok (), (c, w))
  else
    let (outcome, (solver, w)) :=
      (Solver.onPrimary (Slot.numericFactorize a) : Run (Solver α β × ω) Unit) (c.solver, w)
    match outcome with
    | .ok () => (.ok (), (⟨solver, some a.values⟩, w))
    | .error e => (.error e, (⟨solver, none⟩, w))

/-- The solution of a system or of the transposed system with the factors there are. -/
def solution (rhs : DenseMatrix α) (transposed : Bool) :
    Run (SolveCell α β × ω) (DenseMatrix α) := fun (c, w) =>
  let (outcome, (x, w)) := c.solver.primary.solve transposed (rhs, w)
  (outcome.map fun () => x, (c, w))

end SolveCell

/-- A computation on one cell. -/
def Store.onCell {γ : Type} (k : Nat) (act : Run (SolveCell α β × ω) γ) :
    Run (Store α β ω) γ := fun s =>
  match s.cells[k]? with
  | none => (.error .outOfRange, s)
  | some c =>
    let (outcome, (c, w)) := act (c, s.world)
    (outcome, ⟨s.cells.setIfInBounds k c, w⟩)

namespace Solve

/-- A new solve operation with a cell of its own (`Solve.new`). -/
def create (catalogue : Catalogue α β) (plugin : String) (pattern : Pattern) (transposed : Bool)
    (s : Store α β ω) : Except Error (Solve × Store α β ω) :=
  if pattern.isSquare then
    (Solver.create catalogue "solve" plugin pattern .default).map fun solver =>
      (⟨s.cells.size, pattern, transposed⟩, { s with cells := s.cells.push ⟨solver, none⟩ })
  else .error (.shapeMismatch [pattern.nrows, pattern.nrows] pattern.shape.toList)

/-- The kind of backend that solves the systems (`Solve.plugin_name`). -/
def plugin (op : Solve) (s : Store α β ω) : String :=
  (s.cells[op.cell]?.map (·.solver.plugin)).getD ""

/-- The operation in node descriptions (`fmt` of `Solve`). -/
def text (op : Solve) : String :=
  "Solve \x7b shape: " ++ listText op.pattern.shape.toList
    ++ s!", nnz: {op.pattern.nnz}, transpose: {op.transposed} " ++ "\x7d"

/-- The shape of the result: that of `b` (`Solve.output_shape`). -/
def outputShape (op : Solve) (shapes : List Shape) : Except Error Shape := do
  checkArity "solve" 2 shapes.length
  let n := op.pattern.nrows
  let a ← elementAt shapes 0
  let b ← elementAt shapes 1
  if a ≠ (n, n) then .error (.shapeMismatch [n, n] a.toList)
  else if b.1 ≠ n then .error (.shapeMismatch [n, b.2] b.toList)
  else .ok b

/-- The product of a sensitivity of `A` with `x`, transposed as the system is (`Solve.seed_times`). -/
def seedTimes (op : Solve) (adot x : DenseMatrix α) : Except Error (DenseMatrix α) := do
  let a ← SparseMatrix.project adot op.pattern
  (if op.transposed then a.transpose else a).matmul x

/-- The entries of a matrix taken off those of another at the same place of the data. -/
def takeOff (r m : DenseMatrix α) : DenseMatrix α :=
  ⟨r.nrows, r.ncols, r.data.mapIdx fun k v =>
    match m.data[k]? with
    | some x => v - x
    | none => v, by simp [r.size_data]⟩

/-- The right-hand side of one forward direction. -/
def direction (op : Solve) (output : DenseMatrix α) (seeds : List (DenseMatrix α)) :
    Except Error (DenseMatrix α) := do
  checkArity "solve" 2 seeds.length
  let bdot ← elementAt seeds 1
  let product ← op.seedTimes (← elementAt seeds 0) output
  return takeOff bdot product

/-- The sensitivity of `A` from that of `b`, read through the pattern (`Solve.a_bar`). -/
def matrixSensitivity (op : Solve) (x bbar : DenseMatrix α) : Except Error (DenseMatrix α) := do
  let outer ← if op.transposed then x.matmul bbar.transpose else bbar.matmul x.transpose
  return (← SparseMatrix.project (outer.scaled (-1)) op.pattern).toDense

/-- Blocks of equally many columns side by side. -/
def split (x : DenseMatrix α) (width count : Nat) : Except Error (List (DenseMatrix α)) :=
  (List.range count).mapM fun d => x.colBlock (d * width) width

variable [Backend α ω β]

/-- The solution of the system of `a`, or of the opposite one, factorized if need be
(`Solve.solve_with`). -/
def solveWith (op : Solve) (a rhs : DenseMatrix α) (opposite : Bool) :
    Run (Store α β ω) (DenseMatrix α) := do
  let a ← Run.ofExcept (SparseMatrix.project a op.pattern)
  Store.onCell op.cell do
    SolveCell.factorize a
    SolveCell.solution rhs (op.transposed != opposite)

/-- The solution itself (`Solve.evaluate`). -/
def evaluate (op : Solve) (operands : List (DenseMatrix α)) :
    Run (Store α β ω) (DenseMatrix α) := do
  Run.ofExcept (checkArity "solve" 2 operands.length)
  let a ← Run.ofExcept (elementAt operands 0)
  let b ← Run.ofExcept (elementAt operands 1)
  op.solveWith a b false

/-- Forward sensitivities from one solve for all directions (`Solve.forward_batch`). -/
def forwardBatch (op : Solve) (operands : List (DenseMatrix α)) (output : DenseMatrix α)
    (seeds : List (List (DenseMatrix α))) : Run (Store α β ω) (List (DenseMatrix α)) := do
  Run.ofExcept (checkArity "solve" 2 operands.length)
  if seeds.isEmpty then return []
  let blocks ← Run.ofExcept (seeds.mapM (op.direction output))
  let rhs ← Run.ofExcept (DenseMatrix.hcat blocks)
  let x ← op.solveWith (← Run.ofExcept (elementAt operands 0)) rhs false
  Run.ofExcept (split x output.ncols seeds.length)

/-- Adjoint contributions from one solve for all directions (`Solve.adjoint_batch`). -/
def adjointBatch (op : Solve) (operands : List (DenseMatrix α)) (output : DenseMatrix α)
    (seeds : List (DenseMatrix α)) :
    Run (Store α β ω) (List (List (Option (DenseMatrix α)))) := do
  Run.ofExcept (checkArity "solve" 2 operands.length)
  if seeds.isEmpty then return []
  let rhs ← Run.ofExcept (DenseMatrix.hcat seeds)
  let x ← op.solveWith (← Run.ofExcept (elementAt operands 0)) rhs true
  Run.ofExcept ((List.range seeds.length).mapM fun d => do
    let bbar ← x.colBlock (d * output.ncols) output.ncols
    let abar ← op.matrixSensitivity output bbar
    return [some abar, some bbar])

/-- The last result of a batch. -/
def last {γ : Type} (what : String) (results : List γ) : Except Error γ :=
  match results.getLast? with
  | some x => .ok x
  | none => .error (.internal ("solve: empty " ++ what ++ " batch"))

/-- The operation that a node of a graph holds. -/
def operation (op : Solve) : Operation α (Store α β ω) where
  name := "solve"
  arity := 2
  outputShape := op.outputShape
  evaluate := op.evaluate
  forward operands output seeds := do
    Run.ofExcept (last "forward" (← op.forwardBatch operands output [seeds]))
  adjoint operands output seed := do
    Run.ofExcept (last "adjoint" (← op.adjointBatch operands output [seed]))
  forwardBatch := op.forwardBatch
  adjointBatch := op.adjointBatch

end Solve

end Cotangent
