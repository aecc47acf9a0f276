import Cotangent.Expression.Graph

/-!
Requests to an expression graph, run on the graph and on what its operations share, which both change
as a request goes on. A request that applies an operation counts the operands first, then reads their
shapes, then asks the operation for the shape of the result, and appends a node last. The solution of
a linear system makes its solver before that. A handle keeps the position of its node in 32 bits.
-/

namespace Cotangent

/-- The first position that a handle does not hold. -/
def handleLimit : Nat := 4294967296

/-- What a graph is asked for. -/
inductive NodeRequest (α σ : Type) where
  | symbol (name : String) (shape : Shape)
  | constant (value : DenseMatrix α)
  | scalar (x : α)
  | apply (op : Operation α σ) (children : List NodeId)
  | unary (kind : UnaryKind) (a : NodeId)
  | binary (kind : BinaryKind) (a b : NodeId)
  | matmul (a b : NodeId)
  | transpose (a : NodeId)
  | sum (a : NodeId)
  /-- The solution of a linear system with a dense matrix. -/
  | solve (a b : NodeId) (plugin : String) (transposed : Bool)
  /-- The solution of a linear system whose matrix is read through a pattern. -/
  | solveSparse (a b : NodeId) (plugin : String) (pattern : Pattern) (transposed : Bool)

/-- A new solve operation (`Solve.new`). -/
def Solve.make {α β ω : Type} [Scalar α] (catalogue : Catalogue α β) (plugin : String)
    (pattern : Pattern) (transposed : Bool) : Run (Store α β ω) Solve := fun s =>
  match Solve.create catalogue plugin pattern transposed s with
  | .ok (op, s) => (.ok op, s)
  | .error e => (.error e, s)

namespace NodeRequest

variable {α σ τ : Type}

/-- A node appended (`Graph.push`). -/
def append (n : Node α σ) : Run (Graph α σ × τ) NodeId := fun (g, s) =>
  (.ok ⟨g.size % handleLimit⟩, (⟨g.nodes.push n⟩, s))

/-- A matrix appended, with the shape it has (`Graph.constant`). -/
def fixed (value : DenseMatrix α) : Run (Graph α σ × τ) NodeId :=
  append ⟨.constant value, [], value.shape⟩

/-- The shape of a node of the graph as it is now (`Graph.shape`). -/
def shapeOf (id : NodeId) : Run (Graph α σ × τ) Shape := fun (g, s) => (g.shape id, (g, s))

/-- An operation applied to nodes (`Graph.apply_shared`). -/
def applied (op : Operation α σ) (children : List NodeId) : Run (Graph α σ × τ) NodeId := do
  Run.ofExcept (checkArity op.name op.arity children.length)
  let shapes ← children.mapM shapeOf
  append ⟨.apply op, children, ← Run.ofExcept (op.outputShape shapes)⟩

variable {β ω : Type} [Scalar α] [Backend α ω β]

/-- The solution of a linear system, by a solver of its own (`Graph.solve_sparse`). -/
def solved (catalogue : Catalogue α β) (a b : NodeId) (plugin : String) (pattern : Pattern)
    (transposed : Bool) : Run (Graph α (Store α β ω) × Store α β ω) NodeId := do
  let op ← Run.onSecond (Solve.make catalogue plugin pattern transposed)
  applied op.operation [a, b]

/-- The handle of the node that was asked for. -/
def run (catalogue : Catalogue α β) :
    NodeRequest α (Store α β ω) → Run (Graph α (Store α β ω) × Store α β ω) NodeId
  | symbol name shape => append ⟨.symbol name, [], shape⟩
  | constant value => fixed value
  | scalar x => fixed (.scalar x)
  | apply op children => applied op children
  | unary kind a => applied kind.primitive.operation [a]
  | binary kind a b => applied kind.primitive.operation [a, b]
  | matmul a b => applied Primitive.matmul.operation [a, b]
  | transpose a => applied Primitive.transpose.operation [a]
  | sum a => applied Primitive.sum.operation [a]
  | solve a b plugin transposed => do
    let (n, m) ← shapeOf a
    solved catalogue a b plugin (← Run.ofExcept (Pattern.dense? n m)) transposed
  | solveSparse a b plugin pattern transposed => solved catalogue a b plugin pattern transposed

end NodeRequest

end Cotangent
