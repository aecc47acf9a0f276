import Cotangent.SparseMatrix

/-!
The contract of a factorization backend. A backend is driven through three calls: `symbolic` once
for a pattern, `numeric` once for values on it, `solve` any number of times. Its calls may fail and
may leave traces in a world that all backends share. A method without an answer of its own refuses
as a missing capability.
-/

namespace Cotangent

/-- What a solver asks of a backend with state `β`, numbers `α` and a shared world `ω`
(`FactorizationBackend`). -/
class Backend (α : outParam Type) (ω β : Type) where
  name : β → String
  /-- Analysis of a square pattern. -/
  symbolic : Pattern → Run (β × ω) Unit
  /-- Factors of values on the analysed pattern. -/
  numeric : Pattern → Array α → Run (β × ω) Unit
  /-- Right-hand sides, column by column, replaced by solutions of the system or, if asked for,
  of the transposed system. -/
  solve {m : Nat} : β → (nrhs : Nat) → (transposed : Bool) → Run (Vector α m × ω) Unit
  /-- The numerical rank. -/
  rank : β → Run ω Nat
  /-- The Cholesky operations are available. -/
  supportsCholesky : β → Bool := fun _ => false
  /-- The Cholesky factor or its transpose. -/
  cholesky : β → (transposed : Bool) → Run ω (SparseMatrix α) :=
    fun b _ => throw (.notSupported (name b) "cholesky")
  /-- The pattern of the Cholesky factor or of its transpose. -/
  choleskyPattern : β → (transposed : Bool) → Run ω Pattern :=
    fun b transposed => SparseMatrix.pattern <$> cholesky b transposed
  /-- Right-hand sides replaced by solutions with one Cholesky factor only. -/
  solveCholesky {m : Nat} : β → (nrhs : Nat) → (transposed : Bool) → Run (Vector α m × ω) Unit :=
    fun b _ _ => throw (.notSupported (name b) "solve_cholesky")
  /-- The number of negative eigenvalues. -/
  negativeEigenvalues : β → Run ω Nat := fun b => throw (.notSupported (name b) "neig")

namespace Run

variable {α ω : Type}

/-- A value replaced by the outcome of a function, and kept if the function fails. -/
def replace {σ : Type} (f : σ → Except Error σ) : Run (σ × ω) Unit := fun (x, w) =>
  match f x with
  | .ok y => (.ok (), (y, w))
  | .error e => (.error e, (x, w))

/-- A computation on the data of a matrix. -/
def onData (act : {m : Nat} → Run (Vector α m × ω) Unit) : Run (DenseMatrix α × ω) Unit :=
  fun (x, w) =>
    let (outcome, (v, w)) := act (⟨x.data, x.size_data⟩, w)
    (outcome, (⟨x.nrows, x.ncols, v.toArray, v.size_toArray⟩, w))

end Run

end Cotangent
