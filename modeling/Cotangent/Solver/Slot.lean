import Cotangent.Solver.Backend
import Cotangent.Text.Quoted

/-!
One factorization and where it is in its life. A slot owns a backend and remembers the pattern it
was last asked to analyse. It calls the backend in the promised order only: values are factorized
after a successful analysis of their own pattern, which is repeated when the pattern changes, and
right-hand sides are solved after a successful factorization.
-/

namespace Cotangent

/-- Where a slot is in its life (`FactorState`). -/
inductive Phase where
  /-- No usable analysis. -/
  | unfactored
  /-- The pattern is analysed, there are no factors. -/
  | analysed
  /-- There are factors. -/
  | factored
  deriving DecidableEq, Repr

def Phase.name : Phase → String
  | unfactored => "Unfactored"
  | analysed => "SymbolicallyFactored"
  | factored => "NumericallyFactored"

/-- A backend with its pattern and phase (`LinsolMemory`). -/
structure Slot (β : Type) where
  backend : β
  /-- The pattern last given to the backend, or the one the slot was made for. -/
  pattern : Pattern
  phase : Phase

namespace Slot

variable {α β ω : Type}

/-- A slot without analysis (`LinsolMemory.new`). -/
def new (backend : β) (pattern : Pattern) : Slot β := ⟨backend, pattern, .unfactored⟩

variable [Backend α ω β]

/-- Analysis of a pattern (`LinsolMemory.symbolic_factorize`). An earlier factorization is given up
first. -/
def symbolicFactorize (p : Pattern) : Run (Slot β × ω) Unit := fun (s, w) =>
  if p.isSquare then
    let (outcome, (b, w)) := (Backend.symbolic p : Run (β × ω) Unit) (s.backend, w)
    match outcome with
    | .ok () => (.ok (), (⟨b, p, .analysed⟩, w))
    | .error e => (.error (e.atStage .symbolic), (⟨b, p, .unfactored⟩, w))
  else
    (.error (.factorization .symbolic (.notSquare p.nrows p.ncols)),
      ({ s with phase := .unfactored }, w))

/-- Factors of values on the analysed pattern. -/
def factorValues (values : Array α) : Run (Slot β × ω) Unit := fun (s, w) =>
  let (outcome, (b, w)) := (Backend.numeric s.pattern values : Run (β × ω) Unit) (s.backend, w)
  match outcome with
  | .ok () => (.ok (), (⟨b, s.pattern, .factored⟩, w))
  | .error e => (.error (e.atStage .numeric), (⟨b, s.pattern, .analysed⟩, w))

/-- Factors of a matrix (`LinsolMemory.numeric_factorize`). Its pattern is analysed first if there is no
analysis or one of another pattern. -/
def numericFactorize (a : SparseMatrix α) : Run (Slot β × ω) Unit := do
  let (s, _) ← get
  if s.phase = .unfactored ∨ a.pattern ≠ s.pattern then symbolicFactorize a.pattern
  factorValues a.values

/-- Refuses a slot without factors (`LinsolMemory.require_nfact`). -/
def requireFactors (s : Slot β) : Except Error Unit :=
  if s.phase = .factored then .ok ()
  else .error (.precondition "linear system has not been factorized")

/-- Refuses a slot without factors or without the Cholesky operations
(`LinsolMemory.require_cholesky`). -/
def requireCholesky (ω : Type) [Backend α ω β] (s : Slot β) : Except Error Unit := do
  s.requireFactors
  if Backend.supportsCholesky ω s.backend then .ok ()
  else .error (.notSupported (Backend.name ω s.backend) "cholesky")

/-- Refuses a right-hand side with another number of rows than the pattern
(`LinsolMemory.check_rhs`). -/
def checkRows (s : Slot β) (rhs : DenseMatrix α) : Except Error Unit :=
  if rhs.nrows = s.pattern.nrows then .ok ()
  else .error (.shapeMismatch [s.pattern.nrows, rhs.ncols] rhs.shape.toList)

/-- A solve of the backend on every column, unless there is none. -/
def onColumns (act : (nrhs : Nat) → {m : Nat} → Run (Vector α m × ω) Unit) :
    Run (DenseMatrix α × ω) Unit := do
  let (rhs, _) ← get
  if rhs.ncols = 0 then pure ()
  else Run.mapError (.atStage .solve) (Run.onData (act rhs.ncols))

/-- Right-hand sides replaced by solutions of the system or of the transposed system
(`LinsolMemory.solve`). -/
def solve (s : Slot β) (transposed : Bool) : Run (DenseMatrix α × ω) Unit := do
  Run.ofExcept s.requireFactors
  Run.ofExcept (s.checkRows (← get).1)
  onColumns fun nrhs => Backend.solve s.backend nrhs transposed

/-- Right-hand sides replaced by solutions with one Cholesky factor only
(`LinsolMemory.solve_cholesky`). -/
def solveCholesky (s : Slot β) (transposed : Bool) : Run (DenseMatrix α × ω) Unit := do
  Run.ofExcept (s.requireCholesky ω)
  Run.ofExcept (s.checkRows (← get).1)
  onColumns fun nrhs => Backend.solveCholesky s.backend nrhs transposed

/-- The numerical rank (`LinsolMemory.rank`). -/
def rank (s : Slot β) : Run ω Nat := do
  Run.ofExcept s.requireFactors
  Backend.rank s.backend

/-- The dimension of the null space, if the backend shows no rank above the order
(`LinsolMemory.nullity`). -/
def nullity (s : Slot β) : Run ω Nat := do
  Run.ofExcept (checkDifference s.pattern.ncols (← s.rank))

/-- The number of negative eigenvalues (`LinsolMemory.neig`). -/
def negativeEigenvalues (s : Slot β) : Run ω Nat := do
  Run.ofExcept s.requireFactors
  Backend.negativeEigenvalues s.backend

/-- The Cholesky factor or its transpose (`LinsolMemory.cholesky`). -/
def cholesky (s : Slot β) (transposed : Bool) : Run ω (SparseMatrix α) := do
  Run.ofExcept (s.requireCholesky ω)
  Backend.cholesky s.backend transposed

/-- The pattern of the Cholesky factor or of its transpose (`LinsolMemory.cholesky_sparsity`). -/
def choleskyPattern (s : Slot β) (transposed : Bool) : Run ω Pattern := do
  Run.ofExcept (s.requireCholesky ω)
  Backend.choleskyPattern s.backend transposed

/-- The slot in descriptions (`fmt` of `LinsolMemory`). -/
def text (ω : Type) [Backend α ω β] (s : Slot β) : String :=
  "LinsolMemory \x7b backend: " ++ Text.quoted (Backend.name ω s.backend) ++ ", shape: "
    ++ listText s.pattern.shape.toList ++ ", state: " ++ s.phase.name ++ " \x7d"

end Slot

end Cotangent
