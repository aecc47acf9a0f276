import Cotangent.Plan.Basic

/-!
From a graph with declared inputs and outputs to a plan. The inputs are placed first. From every
output in turn a depth-first search places what is missing, operands from left to right and a node
after its operands, so that a shared node is placed once. The search keeps the path to the current
node on a stack of frames.
-/

namespace Cotangent

/-- A node on the path of the search, with the operands not looked at yet. -/
structure Frame (α σ : Type) where
  id : NodeId
  node : Node α σ
  /-- Operands not looked at yet. -/
  left : List NodeId

/-- What is placed so far. -/
structure Placement (α σ : Type) where
  /-- The placed nodes in order. -/
  entries : Array (Entry α σ)
  /-- The position of every placed node. -/
  position : Array (Option Nat)

namespace Placement

variable {α σ : Type}

def empty (g : Graph α σ) : Placement α σ := ⟨#[], Array.replicate g.size none⟩

/-- The position of a node, if it is placed. -/
def find? (p : Placement α σ) (id : NodeId) : Option Nat := (p.position[id.index]?).join

/-- The position of a node that has to be placed. -/
def find (p : Placement α σ) (id : NodeId) : Except Error Nat :=
  match p.find? id with
  | some k => .ok k
  | none => .error (.graph (.unknownNode id))

/-- A node with placed operands put at the end. -/
def push (p : Placement α σ) (id : NodeId) (n : Node α σ) (children : List Nat) : Placement α σ :=
  let place := p.entries.size
  ⟨p.entries.push ⟨id, n.kind, n.shape, children⟩, p.position.setIfInBounds id.index (some place)⟩

/-- A node with placed operands put at the end, if there is room for its value. -/
def push? (p : Placement α σ) (id : NodeId) (n : Node α σ) (children : List Nat) :
    Except Error (Placement α σ) :=
  (checkRoom n.shape.elements).map fun _ => p.push id n children

/-- A declared input put at the end. -/
def pushInput (g : Graph α σ) (p : Placement α σ) (input : NodeId × Nat) :
    Except Error (Placement α σ) := do
  let (id, index) := input
  let n ← g.node id
  if !n.kind.isSymbol then .error (.graph (.inputNotSymbol index id))
  else if (p.find? id).isSome then .error (.graph (.duplicateInput id))
  else p.push? id n []

/-- A node put at the end when its operands are placed. A symbol that comes here is no input. -/
def finish (p : Placement α σ) (id : NodeId) (n : Node α σ) : Except Error (Placement α σ) :=
  match n.kind with
  | .symbol name => .error (.graph (.freeVariable name id))
  | _ => n.children.mapM p.find >>= p.push? id n

/-- The search from a stack of frames, `fuel` steps at most. -/
def search (g : Graph α σ) : Nat → List (Frame α σ) → Placement α σ →
    Except Error (Placement α σ)
  | _, [], p => .ok p
  | 0, _ :: _, _ => .error (.internal "the graph has a cycle")
  | fuel + 1, ⟨id, n, child :: left⟩ :: stack, p =>
    if (p.find? child).isSome then search g fuel (⟨id, n, left⟩ :: stack) p
    else
      match g.node child with
      | .ok c => search g fuel (⟨child, c, c.children⟩ :: ⟨id, n, left⟩ :: stack) p
      | .error e => .error e
  | fuel + 1, ⟨id, n, []⟩ :: stack, p =>
    if (p.find? id).isSome then search g fuel stack p
    else
      match p.finish id n with
      | .ok p => search g fuel stack p
      | .error e => .error e

/-- Enough steps to look at every operand once and to finish every node once. -/
def steps (g : Graph α σ) : Nat := (g.nodes.toList.flatMap (·.children)).length + g.size

/-- The search from one output. -/
def searchFrom (g : Graph α σ) (p : Placement α σ) (root : NodeId) :
    Except Error (Placement α σ) := do
  let n ← g.node root
  if (p.find? root).isSome then .ok p
  else search g (steps g) [⟨root, n, n.children⟩] p

end Placement

/-- The plan for declared inputs and outputs (`compile`). -/
def Plan.compile {α σ : Type} (g : Graph α σ) (inputs outputs : List NodeId) :
    Except Error (Plan α σ) := do
  let start ← inputs.zipIdx.foldlM (Placement.pushInput g) (.empty g)
  let p ← outputs.foldlM (Placement.searchFrom g) start
  return { graph := g
           entries := p.entries
           position := p.position
           inputs := List.range inputs.length
           outputs := ← outputs.mapM p.find }

end Cotangent
