import Cotangent.Plan.Basic

/-!
The three sweeps over a plan. The value sweep and the forward sweep go from operands to the nodes
that use them, the adjoint sweep goes back and adds the contributions of all uses. A sweep that
fails keeps what it has written.
-/

namespace Cotangent

/-- A computation on the numbers of a plan, next to the state of its operations. -/
abbrev Sweep (α σ : Type) := Run (Slots α × σ)

namespace Sweep

variable {α σ : Type}

/-- The cell at a position changed by a rule that may fail. -/
def update (k : Nat) (rule : Cell α → Except Error (Cell α)) : Sweep α σ Unit := fun (s, w) =>
  match s[k]? with
  | none => (.error .outOfRange, (s, w))
  | some c =>
    match rule c with
    | .ok c => (.ok (), (s.setIfInBounds k c, w))
    | .error e => (.error e, (s, w))

/-- All cells changed by a rule. -/
def updateAll (rule : Cell α → Cell α) : Sweep α σ Unit := fun (s, w) => (.ok (), (s.map rule, w))

/-- A call of an operation, given the numbers. -/
def call {γ : Type} (act : Slots α → Run σ γ) : Sweep α σ γ := fun (s, w) =>
  let (outcome, w) := act s w
  (outcome, (s, w))

/-- A matrix of the array replaced by another of the same shape. -/
def overwriteAt (xs : Array (DenseMatrix α)) (d : Nat) (m : DenseMatrix α) :
    Except Error (Array (DenseMatrix α)) :=
  match xs[d]? with
  | none => .error .outOfRange
  | some x => (x.overwrite m).map (xs.setIfInBounds d)

def setValue (k : Nat) (m : DenseMatrix α) : Sweep α σ Unit :=
  update k fun c => (c.value.overwrite m).map fun v => { c with value := v }

def setForward (k d : Nat) (m : DenseMatrix α) : Sweep α σ Unit :=
  update k fun c => (overwriteAt c.forward d m).map fun xs => { c with forward := xs }

variable [Scalar α]

/-- An adjoint sensitivity added. -/
def addAdjoint (k d : Nat) (m : DenseMatrix α) : Sweep α σ Unit :=
  update k fun c =>
    match c.adjoint[d]? with
    | none => .error .outOfRange
    | some x => (x.accumulate m).map fun y => { c with adjoint := c.adjoint.setIfInBounds d y }

/-- Zeros appended until there is room for so many directions (`reserve_forward`, `reserve_adjoint`). -/
def reserve (count : Nat) (shape : Shape) (xs : Array (DenseMatrix α)) : Array (DenseMatrix α) :=
  xs ++ Array.replicate (count - xs.size) (DenseMatrix.fill shape 0)

/-- The first directions filled with zeros. -/
def clear (count : Nat) (xs : Array (DenseMatrix α)) : Array (DenseMatrix α) :=
  xs.mapIdx fun d x => if d < count then DenseMatrix.fill x.shape 0 else x

end Sweep

namespace Plan

variable {α σ : Type}

open Sweep

/-- The entries with their positions. -/
def placed (p : Plan α σ) : List (Entry α σ × Nat) := p.entries.toList.zipIdx

/-- Input values written to the bound entries (`ExecutionPlan.bind_inputs`). -/
def bindInputs (p : Plan α σ) (values : List (DenseMatrix α)) : Sweep α σ Unit :=
  (p.inputs.zip values).forM fun (k, value) => setValue k value

/-- The value of one entry from the values of its operands. -/
def valueStep (e : Entry α σ × Nat) : Sweep α σ Unit :=
  match e.1.kind with
  | .apply op => do
    let value ← call fun s => op.evaluate (e.1.children.map s.value)
    setValue e.2 value
  | _ => pure ()

/-- The values of all entries from those of the inputs (`ExecutionPlan.value_sweep`). -/
def valueSweep (p : Plan α σ) : Sweep α σ Unit := p.placed.forM valueStep

variable [Scalar α]

/-- The forward sensitivities of one entry from those of its operands. -/
def forwardStep (count : Nat) (e : Entry α σ × Nat) : Sweep α σ Unit :=
  match e.1.kind with
  | .symbol _ => pure ()
  | .constant _ => update e.2 fun c => .ok { c with forward := clear count c.forward }
  | .apply op => do
    let found ← call fun s =>
      op.forwardBatch (e.1.children.map s.value) (s.value e.2)
        ((List.range count).map fun d => e.1.children.map (s.forward d))
    if found.length ≠ count then
      throw (.internal
        (op.name ++ s!": forward returned {found.length} directions, expected {count}"))
    found.zipIdx.forM fun (m, d) => setForward e.2 d m

/-- The forward sensitivities of all entries from seeds of the inputs, by direction
(`ExecutionPlan.forward_sweep`). -/
def forwardSweep (p : Plan α σ) (seeds : List (List (DenseMatrix α))) : Sweep α σ Unit := do
  updateAll fun c => { c with forward := reserve seeds.length c.value.shape c.forward }
  seeds.zipIdx.forM fun (direction, d) =>
    (p.inputs.zip direction).forM fun (k, seed) => setForward k d seed
  p.placed.forM (forwardStep seeds.length)

/-- The contributions of one entry in one direction added to its operands. -/
def spread (op : String) (children : List Nat) (contributions : List (Option (DenseMatrix α)))
    (d : Nat) : Sweep α σ Unit := do
  if contributions.length ≠ children.length then
    throw (.internal (op ++
      s!": adjoint returned {contributions.length} contributions for {children.length} operands"))
  (children.zip contributions).forM fun (k, m) =>
    match m with
    | some m => addAdjoint k d m
    | none => pure ()

/-- The adjoint sensitivities of one entry handed on to its operands. -/
def adjointStep (count : Nat) (e : Entry α σ × Nat) : Sweep α σ Unit :=
  match e.1.kind with
  | .apply op => do
    let found ← call fun s =>
      op.adjointBatch (e.1.children.map s.value) (s.value e.2)
        ((List.range count).map fun d => s.adjoint d e.2)
    if found.length ≠ count then
      throw (.internal
        (op.name ++ s!": adjoint returned {found.length} directions, expected {count}"))
    found.zipIdx.forM fun (contributions, d) => spread op.name e.1.children contributions d
  | _ => pure ()

/-- The adjoint sensitivities of all entries from seeds of the outputs, by direction
(`ExecutionPlan.adjoint_sweep`). -/
def adjointSweep (p : Plan α σ) (seeds : List (List (DenseMatrix α))) : Sweep α σ Unit := do
  updateAll fun c =>
    { c with adjoint := clear seeds.length (reserve seeds.length c.value.shape c.adjoint) }
  seeds.zipIdx.forM fun (direction, d) =>
    (p.outputs.zip direction).forM fun (k, seed) => addAdjoint k d seed
  p.placed.reverse.forM (adjointStep seeds.length)

end Plan

end Cotangent
