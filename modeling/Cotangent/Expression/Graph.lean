import Cotangent.Expression.Elementwise
import Cotangent.Expression.Linear
import Cotangent.Expression.Solve

/-!
Expression graphs: a growing list of nodes, each a symbol, a constant or an operation applied to
earlier nodes. A node is known by its position and never changes. A builder either appends exactly
one node and answers its position, or fails and leaves the graph as it was.
-/

namespace Cotangent

/-- What a node computes. -/
inductive NodeKind (α σ : Type) where
  /-- A free variable. -/
  | symbol (name : String)
  | constant (value : DenseMatrix α)
  | apply (op : Operation α σ)

namespace NodeKind

variable {α σ : Type}

/-- The node is a symbol (`Node.is_symbol`). -/
def isSymbol : NodeKind α σ → Bool
  | symbol _ => true
  | _ => false

/-- A short description (`NodeKind.label`). -/
def label : NodeKind α σ → String
  | symbol name => name
  | constant _ => "const"
  | apply op => op.name

/-- A long description (`fmt` of `NodeKind`). -/
def text [Scalar α] : NodeKind α σ → String
  | symbol name => "Symbol \x7b name: " ++ Text.quoted name ++ " \x7d"
  | constant value => "Constant(" ++ value.text ++ ")"
  | apply op => "Apply(" ++ Text.quoted op.name ++ ")"

end NodeKind

/-- A node of an expression graph. -/
structure Node (α σ : Type) where
  kind : NodeKind α σ
  children : List NodeId
  shape : Shape

/-- The handle as it is shown to users (`fmt` of `NodeId`). -/
def NodeId.display (id : NodeId) : String := s!"%{id.index}"

/-- An expression graph. -/
structure Graph (α σ : Type) where
  /-- The nodes in order of their making. -/
  nodes : Array (Node α σ)

namespace Graph

variable {α σ : Type}

/-- The graph without nodes (`Graph.new`). -/
def empty : Graph α σ := ⟨#[]⟩

/-- The number of nodes (`Graph.len`). -/
def size (g : Graph α σ) : Nat := g.nodes.size

/-- The handles of all nodes (`Graph.ids`). -/
def ids (g : Graph α σ) : List NodeId := (List.range g.size).map NodeId.mk

/-- The node of a handle, if there is one. -/
def node? (g : Graph α σ) (id : NodeId) : Option (Node α σ) := g.nodes[id.index]?

/-- The node of a handle that has to exist (`Graph.node`). -/
def node (g : Graph α σ) (id : NodeId) : Except Error (Node α σ) :=
  match g.node? id with
  | some n => .ok n
  | none => .error (.graph (.unknownNode id))

/-- The operands of a node (`Graph.children`). -/
def children (g : Graph α σ) (id : NodeId) : Except Error (List NodeId) :=
  (g.node id).map (·.children)

/-- The shape of a node's value (`Graph.shape`). -/
def shape (g : Graph α σ) (id : NodeId) : Except Error Shape := (g.node id).map (·.shape)

/-- A node appended, and its handle (`Graph.push`). -/
def push (g : Graph α σ) (n : Node α σ) : NodeId × Graph α σ := (⟨g.size⟩, ⟨g.nodes.push n⟩)

theorem size_push (g : Graph α σ) (n : Node α σ) : (g.push n).2.size = g.size + 1 := by
  simp [push, size]

/-- The handle that a builder answers is that of the new node. -/
theorem node?_push_self (g : Graph α σ) (n : Node α σ) :
    (g.push n).2.node? (g.push n).1 = some n := by
  simp [push, node?, size]

/-- A builder leaves the earlier nodes as they are. -/
theorem node?_push_of_lt (g : Graph α σ) (n : Node α σ) {id : NodeId} (h : id.index < g.size) :
    (g.push n).2.node? id = g.node? id := by
  simp only [push, node?, size] at h ⊢
  rw [Array.getElem?_push_lt h, Array.getElem?_eq_getElem h]

/-- A named unknown appended (`Graph.symbol`). -/
def symbol (g : Graph α σ) (name : String) (shape : Shape) : NodeId × Graph α σ :=
  g.push ⟨.symbol name, [], shape⟩

/-- A matrix appended (`Graph.constant`). -/
def constant (g : Graph α σ) (value : DenseMatrix α) : NodeId × Graph α σ :=
  g.push ⟨.constant value, [], value.shape⟩

/-- A one by one matrix appended (`Graph.scalar`). -/
def scalar (g : Graph α σ) (x : α) : NodeId × Graph α σ := g.constant (.scalar x)

/-- An operation applied to nodes (`Graph.apply_shared`). -/
def apply (g : Graph α σ) (op : Operation α σ) (children : List NodeId) :
    Except Error (NodeId × Graph α σ) := do
  checkArity op.name op.arity children.length
  let shapes ← children.mapM g.shape
  return g.push ⟨.apply op, children, ← op.outputShape shapes⟩

variable [Scalar α]

/-- A function of two operands, entry by entry. -/
def binary (g : Graph α σ) (k : BinaryKind) (a b : NodeId) : Except Error (NodeId × Graph α σ) :=
  g.apply k.primitive.operation [a, b]

/-- A function of one operand, entry by entry. -/
def unary (g : Graph α σ) (k : UnaryKind) (a : NodeId) : Except Error (NodeId × Graph α σ) :=
  g.apply k.primitive.operation [a]

def add (g : Graph α σ) (a b : NodeId) : Except Error (NodeId × Graph α σ) := g.binary .add a b

def sub (g : Graph α σ) (a b : NodeId) : Except Error (NodeId × Graph α σ) := g.binary .sub a b

def mul (g : Graph α σ) (a b : NodeId) : Except Error (NodeId × Graph α σ) := g.binary .mul a b

def div (g : Graph α σ) (a b : NodeId) : Except Error (NodeId × Graph α σ) := g.binary .div a b

def matmul (g : Graph α σ) (a b : NodeId) : Except Error (NodeId × Graph α σ) :=
  g.apply Primitive.matmul.operation [a, b]

def transpose (g : Graph α σ) (a : NodeId) : Except Error (NodeId × Graph α σ) :=
  g.apply Primitive.transpose.operation [a]

def sum (g : Graph α σ) (a : NodeId) : Except Error (NodeId × Graph α σ) :=
  g.apply Primitive.sum.operation [a]

section Solve

variable {β ω : Type} [Backend α ω β]

/-- The solution of a linear system whose matrix is read through a pattern (`Graph.solve_sparse`). -/
def solveSparse (catalogue : Catalogue α β) (g : Graph α (Store α β ω)) (s : Store α β ω)
    (a b : NodeId) (plugin : String) (pattern : Pattern) (transposed : Bool) :
    Except Error (NodeId × Graph α (Store α β ω) × Store α β ω) := do
  let (op, s) ← Solve.create catalogue plugin pattern transposed s
  let (id, g) ← g.apply op.operation [a, b]
  return (id, g, s)

/-- The solution of a linear system with a dense matrix (`Graph.solve`). -/
def solve (catalogue : Catalogue α β) (g : Graph α (Store α β ω)) (s : Store α β ω)
    (a b : NodeId) (plugin : String) (transposed : Bool) :
    Except Error (NodeId × Graph α (Store α β ω) × Store α β ω) := do
  let (n, m) ← g.shape a
  solveSparse catalogue g s a b plugin (← Pattern.dense? n m) transposed

end Solve

end Graph

end Cotangent
