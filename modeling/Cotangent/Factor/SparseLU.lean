import Cotangent.Factor.Basic
import Cotangent.Factor.Reach
import Cotangent.Factor.Triangular

/-!
Sparse LU factorization with partial pivoting, one column after another: `P A = L U`. Column `k` of
the factors solves a triangular system with the columns of `L` found so far. Only the rows
reachable from the column's pattern in the graph of `L` take part, in an order in which every row
comes before the rows its column of `L` changes. Rows keep their number in `A`; `step` tells at
which step a row became the pivot.
-/

namespace Cotangent

/-- The factors of a sparse matrix (`SparseLu`). -/
structure SparseLU (α : Type) where
  /-- Below the diagonal, column `j` of `L`: rows of the matrix and multipliers. -/
  lower : Array (List (Nat × α))
  /-- Above the diagonal, column `k` of `U`: steps, increasing, and entries. -/
  upper : Array (List (Nat × α))
  /-- The diagonal of `U`. -/
  diagonal : Array α
  /-- The step at which each row became the pivot. -/
  step : Array Nat
  deriving DecidableEq

namespace SparseLU

variable {α : Type}

/-- The state between two columns. -/
structure Partial (α : Type) where
  /-- The finished columns of `L`. -/
  lower : Array (List (Nat × α))
  /-- The finished columns of `U`, without the diagonal. -/
  upper : Array (List (Nat × α))
  /-- The finished diagonal of `U`. -/
  diagonal : Array α
  /-- The step at which each row became the pivot, if it did. -/
  step : Array (Option Nat)
  /-- The dense column that is worked on, zero between columns. -/
  work : Array α
  /-- The marks of the searches. -/
  mark : Array Nat
  deriving DecidableEq

/-- The step of a row. -/
def Partial.step? (s : Partial α) (row : Nat) : Option Nat := (s.step[row]?).join

/-- The column of `L` of a row that became a pivot. -/
def Partial.lowerOf (s : Partial α) (row : Nat) : List (Nat × α) :=
  match s.step? row with
  | some j => s.lower.getD j []
  | none => []

/-- Rows that take part in column `k`, every row before the rows its column of `L` changes
(`reach`). -/
def Partial.reach (s : Partial α) (k : Nat) (starts : List Nat) : Reach.State :=
  Reach.reach (fun row => (s.lowerOf row).map (·.1)) (k + 1) starts s.mark

variable [Scalar α]

/-- No column yet. -/
def Partial.start (n : Nat) : Partial α :=
  ⟨#[], #[], #[], Array.replicate n none, Array.replicate n 0, Array.replicate n 0⟩

/-- A row that became a pivot gives its entry to `U` and takes its column of `L` off the others. -/
def Partial.substitute (s : Partial α) (acc : Array α × List (Nat × α)) (row : Nat) :
    Array α × List (Nat × α) :=
  match s.step? row with
  | none => acc
  | some j =>
    let x := acc.1.getD row 0
    let work := if Scalar.isZero x then acc.1
      else (s.lowerOf row).foldl (fun work (r, l) => work.modify r (· - l * x)) acc.1
    (work, (j, x) :: acc.2)

/-- The first row not pivoted yet with the largest magnitude, and that magnitude. -/
def Partial.pivot (s : Partial α) (work : Array α) (rows : List Nat) : Option Nat × α :=
  rows.foldl
    (fun best row =>
      let magnitude := Scalar.abs (work.getD row 0)
      if (s.step? row).isNone && (best.1.isNone || Scalar.lt best.2 magnitude) then
        (some row, magnitude)
      else best)
    (none, 0)

/-- Column `k`. The dense column is cleared whether or not there is a pivot. -/
def eliminate (a : SparseMatrix α) (tolerance : α) (k : Nat) : Run (Partial α) Unit := fun s =>
  let cells := a.col k
  let found := s.reach k (cells.map (·.1))
  let rows := found.finished
  let loaded := cells.foldl (fun work (i, v) => work.setIfInBounds i v) s.work
  let (work, upper) := rows.foldl s.substitute (loaded, [])
  let cleared := rows.foldl (fun work row => work.setIfInBounds row 0) work
  let (pivotRow, magnitude) := s.pivot work rows
  match pivotRow.filter fun _ => Scalar.lt tolerance magnitude with
  | none =>
    (.error (.factorization .numeric (.zeroPivot k (Scalar.scientific magnitude))),
      { s with work := cleared, mark := found.mark })
  | some row =>
    let pivot := work.getD row 0
    let step := s.step.setIfInBounds row (some k)
    let lower := rows.filterMap fun r =>
      let v := work.getD r 0
      if ((step[r]?).join).isNone && !Scalar.isZero v then some (r, v / pivot) else none
    (.ok (),
      { lower := s.lower.push lower
        upper := s.upper.push (upper.mergeSort fun a b => a.1 ≤ b.1)
        diagonal := s.diagonal.push pivot
        step := step
        work := cleared
        mark := found.mark })

/-- All columns in order. -/
def columns (options : Options α) (a : SparseMatrix α) : Run (Partial α) Unit :=
  let tolerance := Factor.pivotTolerance options.pivotThreshold a.values
  (List.range a.ncols).forM (eliminate a tolerance)

/-- The factors, unless a column has no pivot (`SparseLuBackend.numeric`). -/
def factorize (options : Options α) (a : SparseMatrix α) : Except Error (SparseLU α) :=
  match columns options a (Partial.start a.nrows) with
  | (.error e, _) => .error e
  | (.ok (), s) =>
    match s.step.mapM id with
    | some step => .ok ⟨s.lower, s.upper, s.diagonal, step⟩
    | none => .error (.internal "sparse_lu: incomplete row permutation")

def order (f : SparseLU α) : Nat := f.step.size

/-- Column `j` of `L` with pivot steps for rows. -/
def lowerSteps (f : SparseLU α) (j : Nat) : List (Nat × α) :=
  (f.lower.getD j []).map fun (row, l) => (f.step.getD row 0, l)

/-- The solution of `A x = b` (`SparseLu.solve_in_place`). -/
def solveColumn (f : SparseLU α) (b : Array α) : Array α :=
  let n := f.order
  let y := (List.range n).foldl
    (fun c j =>
      let cj := c.getD j 0
      if Scalar.isZero cj then c
      else (f.lowerSteps j).foldl (fun c (i, l) => c.modify i (· - l * cj)) c)
    (Factor.permute f.step b)
  (List.range n).reverse.foldl
    (fun c k =>
      let xk := c.getD k 0 / f.diagonal.getD k 0
      (f.upper.getD k []).foldl (fun c (j, u) => c.modify j (· - u * xk)) (c.setIfInBounds k xk))
    y

/-- The solution of `Aᵀ x = b` (`SparseLu.solve_transposed_in_place`). -/
def solveColumnTransposed (f : SparseLU α) (b : Array α) : Array α :=
  let n := f.order
  let z := Triangular.ascending n fun k z =>
    (f.upper.getD k []).foldl (fun s (j, u) => s - u * z j) (b.getD k 0) / f.diagonal.getD k 0
  let v := Triangular.descending n fun j v =>
    (f.lowerSteps j).foldl (fun s (i, l) => s - l * v i) (z.getD j 0)
  f.step.map (v.getD · 0)

/-- The solutions for all columns of a right-hand side (`SparseLuBackend.solve`). -/
def solve {m : Nat} (f : SparseLU α) (nrhs : Nat) (transposed : Bool) (rhs : Vector α m) :
    Except Error (Vector α m) :=
  Factor.eachColumn f.order nrhs
    (if transposed then f.solveColumnTransposed else f.solveColumn) rhs

/-- The numerical rank, from the pivots (`SparseLuBackend.rank`). -/
def rank (options : Options α) (f : SparseLU α) : Nat :=
  Factor.numericalRank options.rankTolerance f.diagonal.toList

/-- The number of stored entries of `L` and of `U` with its diagonal (`SparseLuBackend.factor_nnz`). -/
def storedEntries (f : SparseLU α) : Nat × Nat :=
  (f.lower.toList.flatten.length, f.upper.toList.flatten.length + f.order)

end SparseLU

end Cotangent
