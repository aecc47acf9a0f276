import Cotangent.Solver.Catalogue
import Cotangent.Solver.Slot

/-!
A linear solver: a name, a kind of backend, and any number of slots. Slot 0 belongs to the solver
from the start. `checkout` gives the first free number above 0 a fresh slot on the pattern the
solver was made for, and `release` frees it.
-/

namespace Cotangent

/-- A linear solver with numbers `α` and backends `β` (`LinearSolver`). -/
structure Solver (α β : Type) where
  name : String
  plugin : String
  /-- The pattern it was made for. -/
  pattern : Pattern
  /-- The options of its backends. -/
  options : Options α
  /-- Slot 0. -/
  primary : Slot β
  /-- The slots from 1 on, with gaps where one was released. -/
  extra : Array (Option (Slot β))

namespace Solver

variable {α β ω γ : Type}

/-- A solver with slot 0 only (`LinearSolver.with_options`). -/
def create (catalogue : Catalogue α β) (name plugin : String) (pattern : Pattern)
    (options : Options α) : Except Error (Solver α β) :=
  (catalogue.create plugin options).map fun backend =>
    ⟨name, plugin, pattern, options, .new backend pattern, #[]⟩

/-- The slot of a number, if it is live. -/
def slot? (s : Solver α β) (k : Nat) : Option (Slot β) :=
  match k with
  | 0 => some s.primary
  | k + 1 => (s.extra[k]?).join

/-- The slot of a number that has to be live (`LinearSolver.memory`). -/
def slot (s : Solver α β) (k : Nat) : Except Error (Slot β) :=
  match s.slot? k with
  | some slot => .ok slot
  | none => .error (.invalidArgument (.noSlot k))

/-- The slot of a live number replaced. -/
def setSlot (s : Solver α β) (k : Nat) (slot : Slot β) : Solver α β :=
  match k with
  | 0 => { s with primary := slot }
  | k + 1 => { s with extra := s.extra.setIfInBounds k (some slot) }

/-- The number of live slots (`LinearSolver.n_memories`). -/
def slotCount (s : Solver α β) : Nat := 1 + s.extra.countP Option.isSome

/-- A fresh slot under the first free number (`LinearSolver.checkout`). -/
def checkout (catalogue : Catalogue α β) (s : Solver α β) : Except Error (Nat × Solver α β) :=
  (catalogue.create s.plugin s.options).map fun backend =>
    let slot := Slot.new backend s.pattern
    match s.extra.findIdx? Option.isNone with
    | some free => (free + 1, { s with extra := s.extra.setIfInBounds free (some slot) })
    | none => (s.extra.size + 1, { s with extra := s.extra.push (some slot) })

/-- The slot of a number above 0 freed (`LinearSolver.release`). -/
def release (s : Solver α β) (k : Nat) : Except Error (Solver α β) :=
  match k with
  | 0 => .error (.invalidArgument .primarySlot)
  | k + 1 =>
    match s.slot? (k + 1) with
    | some _ => .ok { s with extra := s.extra.setIfInBounds k none }
    | none => .error (.invalidArgument (.noSlot (k + 1)))

/-- A computation on the slot of a number that has to be live (`LinearSolver.memory_mut`). -/
def onSlot (k : Nat) (act : Run (Slot β × ω) γ) : Run (Solver α β × ω) γ := fun (s, w) =>
  match s.slot k with
  | .error e => (.error e, (s, w))
  | .ok slot =>
    let (outcome, (slot, w)) := act (slot, w)
    (outcome, (s.setSlot k slot, w))

/-- A computation on slot 0. -/
def onPrimary (act : Run (Slot β × ω) γ) : Run (Solver α β × ω) γ := fun (s, w) =>
  let (outcome, (slot, w)) := act (s.primary, w)
  (outcome, ({ s with primary := slot }, w))

variable [Scalar α] [Backend α ω β]

/-- The solution of one dense system in slot 0, factorized on the full pattern
(`LinearSolver.solve_dense`). -/
def solveDense (a b : DenseMatrix α) (transposed : Bool) :
    Run (Solver α β × ω) (DenseMatrix α) := do
  if a.nrows ≠ b.nrows then
    throw (.shapeMismatch [a.nrows, b.ncols] b.shape.toList)
  let a ← Run.ofExcept (SparseMatrix.ofDense? a)
  onPrimary (Slot.symbolicFactorize a.pattern)
  onPrimary (Slot.numericFactorize a)
  fun (s, w) =>
    let (outcome, (x, w)) := s.primary.solve transposed (b, w)
    (outcome.map fun () => x, (s, w))

end Solver

end Cotangent
