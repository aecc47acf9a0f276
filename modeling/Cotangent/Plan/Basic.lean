import Cotangent.Expression.Graph

/-!
Execution plans: the nodes that some outputs need, in an order in which every operand stands before
the nodes that use it. The declared inputs come first, in their order. A plan is fixed; the numbers
of a sweep live in `Slots`, one cell for every entry, with a value and one sensitivity of each kind
for every direction asked for so far.
-/

namespace Cotangent

/-- One node of a plan (`RuntimeElement`). -/
structure Entry (α σ : Type) where
  node : NodeId
  /-- What it computes. -/
  kind : NodeKind α σ
  /-- The shape of its value. -/
  shape : Shape
  /-- The positions of its operands in the plan. -/
  children : List Nat

/-- The nodes that some outputs need, operands first (`ExecutionPlan`). -/
structure Plan (α σ : Type) where
  /-- The graph that the nodes belong to. -/
  graph : Graph α σ
  /-- The nodes in order. -/
  entries : Array (Entry α σ)
  /-- The position of every node of the graph that is in the plan. -/
  position : Array (Option Nat)
  /-- The positions of the declared inputs. -/
  inputs : List Nat
  /-- The positions of the declared outputs. -/
  outputs : List Nat

namespace Plan

variable {α σ : Type}

/-- The number of entries (`ExecutionPlan.len`). -/
def size (p : Plan α σ) : Nat := p.entries.size

/-- The position of a node, if it is in the plan (`ExecutionPlan.find`). -/
def find? (p : Plan α σ) (id : NodeId) : Option Nat := (p.position[id.index]?).join

/-- The shape of the value at a position. -/
def shapeAt? (p : Plan α σ) (k : Nat) : Option Shape := (p.entries[k]?).map (·.shape)

/-- The shape of input `i`, if there is one (`Function.input_shape`). -/
def inputShape? (p : Plan α σ) (i : Nat) : Option Shape := p.inputs[i]?.bind p.shapeAt?

/-- The shape of output `o`, if there is one (`Function.output_shape`). -/
def outputShape? (p : Plan α σ) (o : Nat) : Option Shape := p.outputs[o]?.bind p.shapeAt?

end Plan

/-- The numbers of one entry. -/
structure Cell (α : Type) where
  value : DenseMatrix α
  /-- The forward sensitivity for every direction. -/
  forward : Array (DenseMatrix α)
  /-- The adjoint sensitivity for every direction. -/
  adjoint : Array (DenseMatrix α)
  deriving DecidableEq

/-- The numbers of all entries. -/
abbrev Slots (α : Type) := Array (Cell α)

namespace Slots

variable {α : Type}

/-- The value at a position (`RuntimeElement.value`). -/
def value (s : Slots α) (k : Nat) : DenseMatrix α := (s[k]?.map (·.value)).getD .empty

/-- The forward sensitivity at a position (`RuntimeElement.forward_sensitivity`). -/
def forward (s : Slots α) (d k : Nat) : DenseMatrix α :=
  (s[k]?.bind (·.forward[d]?)).getD .empty

/-- The adjoint sensitivity at a position (`RuntimeElement.adjoint_seed`). -/
def adjoint (s : Slots α) (d k : Nat) : DenseMatrix α :=
  (s[k]?.bind (·.adjoint[d]?)).getD .empty

end Slots

/-- The numbers before any sweep: constants have their value, all else is zero, and there is room
for one direction. -/
def Plan.startSlots {α σ : Type} [Zero α] (p : Plan α σ) : Slots α :=
  p.entries.map fun e =>
    let zero := DenseMatrix.fill e.shape 0
    { value := match e.kind with
        | .constant value => value
        | _ => zero
      forward := #[zero]
      adjoint := #[zero] }

end Cotangent
