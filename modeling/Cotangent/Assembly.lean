import Cotangent.SparseMatrix

/-!
Flat forms as builders put them together: column pointers and row indices, with nothing compared on
the way to those of a pattern. Listed positions are sorted, repetitions are left out, and the sums of
the counted columns are the pointers; columns whose rows are known go one behind the other, and a
pointer is the number of entries so far. `Flat.check` reads a form as the pattern that it should be,
and `Flat.position?` looks for a row by halving the rows of its column.
-/

namespace Cotangent

/-- Column pointers and row indices, unchecked (`Sparsity`). -/
structure Flat where
  nrows : Nat
  ncols : Nat
  colPtrs : Array Nat
  rowIndices : Array Nat
  deriving DecidableEq, Repr

/-- The flat form of a pattern (`Sparsity.col_ptrs`, `row_indices`). -/
def Pattern.flat (p : Pattern) : Flat :=
  ⟨p.nrows, p.ncols, p.colPtrs.toArray, p.rowIndices.toArray⟩

namespace Flat

/-- The pattern of this form, if it is the form of one (`Sparsity.new`). -/
def check (f : Flat) : Except Error Pattern :=
  Pattern.ofArrays f.nrows f.ncols f.colPtrs f.rowIndices

/-- The stretch of row indices of column `j` (`Sparsity.col`). -/
def column (f : Flat) (j : Nat) : Array Nat :=
  f.rowIndices.extract (f.colPtrs.getD j 0) (f.colPtrs.getD (j + 1) 0)

/-! ## Looking for a position -/

/-- The one place of a window where an increasing array can have the number `x`. The window is halved
until a single place is left. -/
def bisect (xs : Array Nat) (x base size : Nat) : Nat :=
  if size ≤ 1 then base
  else
    let middle := base + size / 2
    bisect xs x (if x < xs.getD middle 0 then base else middle) (size - size / 2)
termination_by size

/-- The number of the position in row `i` and column `j` (`Sparsity.get_nz`). -/
def position? (f : Flat) (i j : Nat) : Option Nat :=
  if f.ncols ≤ j then none
  else
    let rows := f.column j
    let place := bisect rows i 0 rows.size
    if rows[place]? = some i then some (f.colPtrs.getD j 0 + place) else none

/-! ## Builders -/

/-- Every position (`Sparsity.dense`). -/
def dense (nrows ncols : Nat) : Flat :=
  ⟨nrows, ncols, ((List.range (ncols + 1)).map (· * nrows)).toArray,
    ((List.range ncols).flatMap fun _ => List.range nrows).toArray⟩

/-- The diagonal (`Sparsity.diagonal`). -/
def diagonal (n : Nat) : Flat := ⟨n, n, Array.range (n + 1), Array.range n⟩

/-- Every position, if there is room for all of them. -/
def dense? (nrows ncols : Nat) : Except Error Flat := do
  checkRoom (ncols + 1)
  checkRoom (nrows * ncols)
  return dense nrows ncols

/-- The diagonal, if there is room for it. -/
def diagonal? (n : Nat) : Except Error Flat := (checkRoom (n + 1)).map fun _ => diagonal n

/-- Positions by columns, and by rows within a column. -/
def precedes (a b : Nat × Nat) : Bool := a.2 < b.2 || (a.2 == b.2 && a.1 ≤ b.1)

/-- A list that follows `last`, without the members that repeat the one before them. -/
def skipRepeated (last : Nat × Nat) : List (Nat × Nat) → List (Nat × Nat)
  | [] => []
  | c :: cells => if c = last then skipRepeated last cells else c :: skipRepeated c cells

/-- A list without the members that repeat the one before them. -/
def distinct : List (Nat × Nat) → List (Nat × Nat)
  | [] => []
  | c :: cells => c :: skipRepeated c cells

/-- The form of positions in order: a column starts where the counts of the columns before it add up
to (`Sparsity.from_parts`). -/
def ofSorted (nrows ncols : Nat) (cells : List (Nat × Nat)) : Flat :=
  let counts := cells.foldl (fun counts c => counts.modify (c.2 + 1) (· + 1))
    (Array.replicate (ncols + 1) 0)
  ⟨nrows, ncols, (List.range ncols).foldl Pattern.addSum counts, (cells.map (·.1)).toArray⟩

/-- The form of listed positions, each counted once (`Sparsity.from_triplets`). -/
def ofPositions (nrows ncols : Nat) (rows cols : List Nat) : Except Error Flat :=
  if rows.length ≠ cols.length then .error (.shapeMismatch [rows.length] [cols.length])
  else
    let positions := rows.zip cols
    match positions.find? fun c => decide (nrows ≤ c.1 ∨ ncols ≤ c.2) with
    | some c => .error (.invalidArgument (.positionOutside c.1 c.2 nrows ncols))
    | none =>
      (checkRoom (ncols + 1)).map fun _ =>
        ofSorted nrows ncols (distinct (positions.mergeSort precedes))

/-- Columns of entries one behind the other, and the number of entries up to the end of each. -/
def gather {β : Type} (ncols : Nat) (column : Nat → List β) : Array Nat × Array β :=
  (List.range ncols).foldl
    (fun (ends, entries) j =>
      let entries := entries ++ column j
      (ends.setIfInBounds (j + 1) entries.size, entries))
    (Array.replicate (ncols + 1) 0, #[])

/-- The positions on and below the diagonal (`Sparsity.lower`). -/
def lower (f : Flat) : Flat :=
  let gathered := gather f.ncols fun j => (f.column j).toList.filter (j ≤ ·)
  ⟨f.nrows, f.ncols, gathered.1, gathered.2⟩

/-- Rows and columns exchanged, by counting (`Sparsity.transpose`). -/
def transpose (p : Pattern) : Flat := ⟨p.ncols, p.nrows, p.rowStarts, p.distribution.columns⟩

end Flat

namespace SparseMatrix

variable {α : Type} [Scalar α]

/-- The entry in row `i` and column `j`, looked for in the form of the pattern (`CscMatrix.get`). -/
def get (a : SparseMatrix α) (i j : Nat) : α :=
  match a.pattern.flat.position? i j with
  | some k => a.values.getD k 0
  | none => 0

/-- Rows and values of the nonzero entries of column `j`. -/
def nonzeroColumn (m : DenseMatrix α) (j : Nat) : List (Nat × α) :=
  ((List.range m.nrows).map fun i => (i, m.entry i j)).filter fun cell => !Scalar.isZero cell.2

/-- The nonzero entries of a dense matrix: their form, and their values in order
(`CscMatrix.from_dense_nonzeros`). -/
def nonzeros (m : DenseMatrix α) : Flat × Array α :=
  let gathered := Flat.gather m.ncols (nonzeroColumn m)
  (⟨m.nrows, m.ncols, gathered.1, gathered.2.map (·.1)⟩, gathered.2.map (·.2))

/-- A dense matrix on the positions of its nonzero entries, if there is room for the pattern
(`CscMatrix.from_dense_nonzeros`). -/
def gatherNonzeros? (m : DenseMatrix α) : Except Error (SparseMatrix α) := do
  checkRoom (m.ncols + 1)
  let p ← (nonzeros m).1.check
  ofValues p (nonzeros m).2

/-- A dense matrix with its data for values, if there is room for the full pattern
(`CscMatrix.from_dense_full`). -/
def copyDense? (m : DenseMatrix α) : Except Error (SparseMatrix α) := do
  let form ← Flat.dense? m.nrows m.ncols
  let p ← form.check
  ofValues p m.data

end SparseMatrix

end Cotangent
