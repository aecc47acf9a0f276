import Cotangent.Factor.Basic
import Cotangent.Factor.Triangular

/-!
Dense LU factorization with partial pivoting: `P A = L U`. Both factors share one matrix, `L` below
the diagonal with ones on it left out, `U` on and above. Step `k` moves the largest entry of column
`k` that is left to the diagonal and eliminates below it.
-/

namespace Cotangent

/-- The factors of a dense matrix (`DenseLu`). -/
structure DenseLU (α : Type) where
  /-- `L` below the diagonal, `U` on and above it. -/
  packed : DenseMatrix α
  /-- The row of the matrix that stands in every row of the factors. -/
  perm : Array Nat
  deriving DecidableEq

namespace DenseLU

variable {α : Type} [Scalar α]

def order (f : DenseLU α) : Nat := f.packed.nrows

/-- Step `k` of the elimination. -/
def eliminate (tolerance : α) (f : DenseLU α) (k : Nat) : Except Error (DenseLU α) :=
  let n := f.order
  let (p, magnitude) := Factor.firstMax (fun i => Scalar.abs (f.packed.entry i k)) k n
  if Scalar.le magnitude tolerance then
    .error (.factorization .numeric (.zeroPivot k (Scalar.scientific magnitude)))
  else
    let b (i j : Nat) : α := f.packed.entry (Factor.exchange k p i) j
    let pivot := b k k
    let multipliers := Array.ofFn fun i : Fin n => b i k / pivot
    .ok
      { packed := .ofFn n n fun i j =>
          if i ≤ k ∨ j < k then b i j
          else if j = k then multipliers.getD i 0
          else
            let u := b k j
            if Scalar.isZero u then b i j else b i j - multipliers.getD i 0 * u
        perm := f.perm.swapIfInBounds k p }

/-- The factors, if there is room for the dense matrix (`DenseLuBackend.numeric`). -/
def factorize (options : Options α) (a : SparseMatrix α) : Except Error (DenseLU α) := do
  let tolerance := Factor.pivotTolerance options.pivotThreshold a.values
  let dense ← a.toDense?
  (List.range a.nrows).foldlM (eliminate tolerance) ⟨dense, Array.range a.nrows⟩

theorem factorize_of_roomy {options : Options α} {a : SparseMatrix α} (roomy : a.pattern.Roomy) :
    factorize options a = (List.range a.nrows).foldlM
      (eliminate (Factor.pivotTolerance options.pivotThreshold a.values))
      ⟨a.toDense, Array.range a.nrows⟩ := by
  rw [factorize, SparseMatrix.toDense?_of_roomy roomy]
  rfl

theorem factorize_of_crowded {options : Options α} {a : SparseMatrix α}
    (crowded : ¬ a.pattern.Roomy) : factorize options a = .error .sizeOverflow := by
  rw [factorize, SparseMatrix.toDense?_of_crowded crowded]
  rfl

theorem roomy_of_factorize {options : Options α} {a : SparseMatrix α} {f : DenseLU α}
    (done : factorize options a = .ok f) : a.pattern.Roomy := by
  by_cases roomy : a.pattern.Roomy
  · exact roomy
  · cases (factorize_of_crowded roomy).symm.trans done

/-- The solution of `A x = b` (`DenseLu.solve_in_place`). -/
def solveColumn (f : DenseLU α) (b : Array α) : Array α :=
  let y := Triangular.solveUnitLower f.order f.packed.entry fun i => b.getD (f.perm.getD i 0) 0
  Triangular.solveUpper f.order f.packed.entry (y.getD · 0)

/-- The solution of `Aᵀ x = b` (`DenseLu.solve_transposed_in_place`). -/
def solveColumnTransposed (f : DenseLU α) (b : Array α) : Array α :=
  let z := Triangular.solveUpperTransposed f.order f.packed.entry (b.getD · 0)
  let w := Triangular.solveUnitLowerTransposed f.order f.packed.entry (z.getD · 0)
  Factor.permute f.perm w

/-- The solutions for all columns of a right-hand side (`DenseLuBackend.solve`). -/
def solve {m : Nat} (f : DenseLU α) (nrhs : Nat) (transposed : Bool) (rhs : Vector α m) :
    Except Error (Vector α m) :=
  Factor.eachColumn f.order nrhs
    (if transposed then f.solveColumnTransposed else f.solveColumn) rhs

/-- The numerical rank, from the diagonal of `U` (`DenseLuBackend.rank`). -/
def rank (options : Options α) (f : DenseLU α) : Nat :=
  Factor.numericalRank options.rankTolerance
    ((List.range f.order).map fun k => f.packed.entry k k)

end DenseLU

end Cotangent
