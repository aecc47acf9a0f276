import Cotangent.Plan.Sweep
import Cotangent.Plan.Traversal

/-!
Programs: a plan together with its numbers, called with values for the declared inputs. A call first
checks its arguments and then brings the values up to date, which is nothing to do when the inputs
are the same as in the last successful value sweep, bit for bit.
-/

namespace Cotangent

/-- Whether the values belong to the last inputs (`SweepState`). -/
inductive Freshness where
  /-- No successful value sweep since the last change. -/
  | compiled
  /-- The values belong to the last inputs. -/
  | evaluated
  deriving DecidableEq, Repr

def Freshness.name : Freshness → String
  | compiled => "Compiled"
  | evaluated => "Evaluated"

/-- A plan with its numbers (`Function`). -/
structure Program (α σ : Type) where
  name : String
  plan : Plan α σ
  slots : Slots α
  /-- Whether the values belong to `lastInputs`. -/
  state : Freshness
  /-- The inputs of the last successful value sweep. -/
  lastInputs : List (DenseMatrix α)

/-- Outputs and sensitivities of a sweep (`ForwardResult`, `AdjointResult`). -/
structure Sensitivities (α : Type) where
  /-- The value of every output. -/
  outputs : List (DenseMatrix α)
  /-- By direction, the sensitivity of every output or of every input. -/
  sensitivities : List (List (DenseMatrix α))

namespace Program

variable {α σ : Type} [Scalar α]

/-- The program for declared inputs and outputs of a graph (`Function.new`). -/
def create (name : String) (g : Graph α σ) (inputs outputs : List NodeId) :
    Except Error (Program α σ) :=
  (Plan.compile g inputs outputs).map fun p => ⟨name, p, p.startSlots, .compiled, []⟩

def inputCount (f : Program α σ) : Nat := f.plan.inputs.length

def outputCount (f : Program α σ) : Nat := f.plan.outputs.length

omit [Scalar α] in
/-- Refuses another number of matrices, and a matrix of another shape (`check_against`). -/
def checkArguments (what : String) (expected : Nat) (shape? : Nat → Option Shape)
    (given : List (DenseMatrix α)) : Except Error Unit :=
  if given.length ≠ expected then
    .error (.graph (.countMismatch what expected given.length))
  else
    given.zipIdx.forM fun (m, i) =>
      match shape? i with
      | some s => m.checkShape s
      | none => .ok ()

/-- Refuses inputs that do not fit (`Function.check_inputs`). -/
def checkInputs (f : Program α σ) (inputs : List (DenseMatrix α)) : Except Error Unit :=
  checkArguments "inputs" f.inputCount f.plan.inputShape? inputs

/-- Refuses forward seeds that do not fit the inputs. -/
def checkForward (f : Program α σ) (seeds : List (List (DenseMatrix α))) : Except Error Unit :=
  seeds.forM (checkArguments "forward seeds" f.inputCount f.plan.inputShape?)

/-- Refuses adjoint seeds that do not fit the outputs. -/
def checkAdjoint (f : Program α σ) (seeds : List (List (DenseMatrix α))) : Except Error Unit :=
  seeds.forM (checkArguments "adjoint seeds" f.outputCount f.plan.outputShape?)

/-- The values brought up to date (`Function.ensure_values`). -/
def refresh (inputs : List (DenseMatrix α)) : Run (Program α σ × σ) Unit := fun (f, w) =>
  if f.state = .evaluated ∧ f.lastInputs = inputs then (.ok (), (f, w))
  else
    let sweep : Sweep α σ Unit := do
      f.plan.bindInputs inputs
      f.plan.valueSweep
    let (outcome, (slots, w)) := sweep (f.slots, w)
    match outcome with
    | .ok () => (.ok (), ({ f with slots, state := .evaluated, lastInputs := inputs }, w))
    | .error e => (.error e, ({ f with slots, state := .compiled }, w))

/-- A sweep over the program's own numbers. -/
def sweep (act : Plan α σ → Sweep α σ Unit) : Run (Program α σ × σ) Unit := fun (f, w) =>
  let (outcome, (slots, w)) := act f.plan (f.slots, w)
  (outcome, ({ f with slots }, w))

/-- The values of the outputs (`Function.collect_outputs`). -/
def outputs (f : Program α σ) : List (DenseMatrix α) := f.plan.outputs.map f.slots.value

def current : Run (Program α σ × σ) (Program α σ) := return (← get).1

/-- The outputs for given inputs (`Function.evaluate`). -/
def evaluate (inputs : List (DenseMatrix α)) :
    Run (Program α σ × σ) (List (DenseMatrix α)) := do
  Run.ofExcept ((← current).checkInputs inputs)
  refresh inputs
  return (← current).outputs

/-- The outputs, and their sensitivities along given ones of the inputs (`Function.forward`). -/
def forward (inputs : List (DenseMatrix α)) (seeds : List (List (DenseMatrix α))) :
    Run (Program α σ × σ) (Sensitivities α) := do
  Run.ofExcept ((← current).checkInputs inputs)
  Run.ofExcept ((← current).checkForward seeds)
  refresh inputs
  sweep fun p => p.forwardSweep seeds
  let f ← current
  return ⟨f.outputs,
    (List.range seeds.length).map fun d => f.plan.outputs.map (f.slots.forward d)⟩

/-- The outputs, and the sensitivities of the inputs that given ones of the outputs amount to
(`Function.adjoint`). -/
def adjoint (inputs : List (DenseMatrix α)) (seeds : List (List (DenseMatrix α))) :
    Run (Program α σ × σ) (Sensitivities α) := do
  Run.ofExcept ((← current).checkInputs inputs)
  Run.ofExcept ((← current).checkAdjoint seeds)
  refresh inputs
  sweep fun p => p.adjointSweep seeds
  let f ← current
  return ⟨f.outputs,
    (List.range seeds.length).map fun d => f.plan.inputs.map (f.slots.adjoint d)⟩

end Program

end Cotangent
