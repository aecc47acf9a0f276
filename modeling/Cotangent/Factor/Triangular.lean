import Cotangent.Scalar

/-!
Solving triangular systems entry by entry. `ascending` and `descending` build an array whose
entries follow from the entries before them, or after them; the four solves are rules for one entry
each, with a fixed order of subtractions.
-/

namespace Cotangent.Triangular

variable {α : Type}

/-- The array of length `n` whose entry `i` follows by a rule from the entries before it. -/
def ascending [Zero α] (n : Nat) (rule : Nat → (Nat → α) → α) : Array α :=
  (List.range n).foldl (fun done i => done.push (rule i (done.getD · 0))) #[]

/-- The array of length `n` whose entry `i` follows by a rule from the entries after it. -/
def descending [Zero α] (n : Nat) (rule : Nat → (Nat → α) → α) : Array α :=
  (ascending n fun k done => rule (n - 1 - k) fun j => done (n - 1 - j)).reverse

variable [Scalar α]

/-- The indices above `i` and below `n`. -/
def after (n i : Nat) : List Nat := List.range' (i + 1) (n - (i + 1))

/-- The solution of `L y = b` with ones on the diagonal of `L`; zero entries of `y` are skipped. -/
def solveUnitLower (n : Nat) (l : Nat → Nat → α) (b : Nat → α) : Array α :=
  ascending n fun i y =>
    (List.range i).foldl (fun s j => if Scalar.isZero (y j) then s else s - l i j * y j) (b i)

/-- The solution of `U x = b`. -/
def solveUpper (n : Nat) (u : Nat → Nat → α) (b : Nat → α) : Array α :=
  descending n fun i x => (after n i).reverse.foldl (fun s j => s - u i j * x j) (b i) / u i i

/-- The solution of `Uᵀ z = b`. -/
def solveUpperTransposed (n : Nat) (u : Nat → Nat → α) (b : Nat → α) : Array α :=
  ascending n fun i z => (List.range i).foldl (fun s k => s - u k i * z k) (b i) / u i i

/-- The solution of `Lᵀ w = b` with ones on the diagonal of `L`. -/
def solveUnitLowerTransposed (n : Nat) (l : Nat → Nat → α) (b : Nat → α) : Array α :=
  descending n fun i w => (after n i).foldl (fun s k => s - l k i * w k) (b i)

end Cotangent.Triangular
