import Cotangent.Plan.Traversal

/-!
The search of the compiler with a cursor in every frame, and a journal. The stack holds nodes, each with the
number of operands looked at; a node is read from the graph at every turn. The journal tells what the stack
and the placement were at every turn, which nodes were put on the stack, and which left it because they had
been placed in the meantime.
-/

namespace Cotangent

variable {α σ : Type}

namespace Placement

/-- What is noted of a search. -/
structure Journal (α σ : Type) where
  /-- The stack and the placement at the beginning of every turn, the last turn first. -/
  turns : List (List (NodeId × Nat) × Placement α σ)
  /-- The nodes put on the stack, the last one first. -/
  pushed : List NodeId
  /-- The nodes that left the stack because they were placed already, the last one first. -/
  dropped : List NodeId

namespace Journal

def blank : Journal α σ := ⟨[], [], []⟩

def turn (journal : Journal α σ) (stack : List (NodeId × Nat)) (p : Placement α σ) : Journal α σ :=
  { journal with turns := (stack, p) :: journal.turns }

def push (journal : Journal α σ) (id : NodeId) : Journal α σ :=
  { journal with pushed := id :: journal.pushed }

def drop (journal : Journal α σ) (id : NodeId) : Journal α σ :=
  { journal with dropped := id :: journal.dropped }

end Journal

/-- Turns until the stack is empty, `fuel` at most. -/
def searchNoted (g : Graph α σ) : Nat → List (NodeId × Nat) → Placement α σ × Journal α σ →
    Except Error (Placement α σ × Journal α σ)
  | _, [], s => .ok s
  | 0, _ :: _, _ => .error (.internal "the graph has a cycle")
  | fuel + 1, (id, next) :: stack, (p, journal) => do
    let journal := journal.turn ((id, next) :: stack) p
    let n ← g.node id
    match n.children[next]? with
    | some child =>
      let stack := (id, next + 1) :: stack
      if (p.find? child).isSome then searchNoted g fuel stack (p, journal)
      else searchNoted g fuel ((child, 0) :: stack) (p, journal.push child)
    | none =>
      if (p.find? id).isSome then searchNoted g fuel stack (p, journal.drop id)
      else
        let p ← p.finish id n
        searchNoted g fuel stack (p, journal)

/-- The search from one output, with so many more turns. -/
def searchFromNoted (extra : Nat) (g : Graph α σ) (s : Placement α σ × Journal α σ) (root : NodeId) :
    Except Error (Placement α σ × Journal α σ) := do
  let _ ← g.node root
  if (s.1.find? root).isSome then .ok s
  else searchNoted g (steps g + extra) [(root, 0)] (s.1, s.2.push root)

end Placement

/-- The plan for declared inputs and outputs, and the journal of all searches (`compile`). -/
def Plan.compileNoted (extra : Nat) (g : Graph α σ) (inputs outputs : List NodeId) :
    Except Error (Plan α σ × Placement.Journal α σ) := do
  let start ← inputs.zipIdx.foldlM (Placement.pushInput g) (.empty g)
  let (p, journal) ← outputs.foldlM (Placement.searchFromNoted extra g) (start, .blank)
  return ({ graph := g
            entries := p.entries
            position := p.position
            inputs := List.range inputs.length
            outputs := ← outputs.mapM p.find }, journal)

end Cotangent
