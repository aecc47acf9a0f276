import Cotangent.Factor.Cholesky
import Cotangent.Factor.DenseLU
import Cotangent.Factor.QR
import Cotangent.Factor.SparseLU
import Cotangent.Solver.Backend

/-!
The four factorizations as backends: dense LU, sparse LU, dense QR and sparse Cholesky. None of them
touches the shared world, and a failed solve leaves the right-hand side as it was.
-/

namespace Cotangent

/-- A backend of the library. -/
inductive BuiltIn (α : Type) where
  /-- Dense LU with partial pivoting. -/
  | denseLU (s : Staged α (DenseLU α))
  /-- Sparse LU with partial pivoting. -/
  | sparseLU (s : Staged α (SparseLU α))
  /-- Dense QR with column pivoting. -/
  | qr (s : Staged α (QR α))
  /-- Sparse Cholesky. -/
  | cholesky (s : Cholesky α)

namespace BuiltIn

variable {α : Type}

def name : BuiltIn α → String
  | denseLU _ => "lu"
  | sparseLU _ => "sparse_lu"
  | qr _ => "qr"
  | cholesky _ => "cholesky"

/-- A computation on the state of one kind of backend. -/
def step {σ : Type} (wrap : σ → BuiltIn α) (act : Run σ Unit) (s : σ) :
    Except Error Unit × BuiltIn α :=
  let (outcome, s) := act s
  (outcome, wrap s)

variable [Scalar α]

def symbolic (p : Pattern) : Run (BuiltIn α) Unit := fun b =>
  match b with
  | denseLU s => step denseLU (Staged.symbolic p) s
  | sparseLU s => step sparseLU (Staged.symbolic p) s
  | qr s => step qr (Staged.symbolic p) s
  | cholesky s => step cholesky (Cholesky.symbolic p) s

def numeric (p : Pattern) (values : Array α) : Run (BuiltIn α) Unit := fun b =>
  match b with
  | denseLU s => step denseLU (Staged.numeric DenseLU.factorize p values) s
  | sparseLU s => step sparseLU (Staged.numeric SparseLU.factorize p values) s
  | qr s => step qr (Staged.numeric QR.factorize p values) s
  | cholesky s => step cholesky (Cholesky.numeric p values) s

/-- The solutions for all columns of a right-hand side. -/
def solve {m : Nat} (b : BuiltIn α) (nrhs : Nat) (transposed : Bool) (rhs : Vector α m) :
    Except Error (Vector α m) :=
  match b with
  | denseLU s => do (← s.current b.name).solve nrhs transposed rhs
  | sparseLU s => do (← s.current b.name).solve nrhs transposed rhs
  | qr s => do (← s.current b.name).solve s.options nrhs transposed rhs
  | cholesky s => s.solve nrhs rhs

def rank (b : BuiltIn α) : Except Error Nat :=
  match b with
  | denseLU s => (s.current b.name).map (·.rank s.options)
  | sparseLU s => (s.current b.name).map (·.rank s.options)
  | qr s => (s.current b.name).map (·.rank s.options)
  | cholesky s => s.rank

/-- Only Cholesky has the Cholesky operations. -/
def supportsCholesky : BuiltIn α → Bool
  | cholesky _ => true
  | _ => false

/-- An operation of the Cholesky backend, which the others lack. -/
def withCholesky {γ : Type} (b : BuiltIn α) (capability : String)
    (f : Cholesky α → Except Error γ) : Except Error γ :=
  match b with
  | cholesky s => f s
  | _ => .error (.notSupported b.name capability)

/-- The Cholesky factor or its transpose. -/
def triangle (b : BuiltIn α) (transposed : Bool) : Except Error (SparseMatrix α) :=
  b.withCholesky "cholesky" (·.triangle transposed)

/-- The pattern of the Cholesky factor or of its transpose. -/
def trianglePattern (b : BuiltIn α) (transposed : Bool) : Except Error Pattern :=
  b.withCholesky "cholesky" (·.trianglePattern transposed)

/-- The solutions with one Cholesky factor only. -/
def solveTriangle {m : Nat} (b : BuiltIn α) (nrhs : Nat) (transposed : Bool)
    (rhs : Vector α m) : Except Error (Vector α m) :=
  b.withCholesky "solve_cholesky" (·.solveTriangle nrhs transposed rhs)

def negativeEigenvalues (b : BuiltIn α) : Except Error Nat :=
  b.withCholesky "neig" (·.negativeEigenvalues)

/-- The numbers of stored entries of both sparse LU factors. -/
def storedEntries : BuiltIn α → Option (Nat × Nat)
  | sparseLU s => s.factors.map (·.storedEntries)
  | _ => none

instance {ω : Type} : Backend α ω (BuiltIn α) where
  name := name
  symbolic p := (symbolic p).onFirst
  numeric p values := (numeric p values).onFirst
  solve b nrhs transposed := .replace (b.solve nrhs transposed)
  rank b := .ofExcept b.rank
  supportsCholesky := supportsCholesky
  cholesky b transposed := .ofExcept (b.triangle transposed)
  choleskyPattern b transposed := .ofExcept (b.trianglePattern transposed)
  solveCholesky b nrhs transposed := .replace (b.solveTriangle nrhs transposed)
  negativeEigenvalues b := .ofExcept b.negativeEigenvalues

end BuiltIn

end Cotangent
