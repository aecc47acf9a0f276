import Cotangent.Pattern.Basic

/-!
Transposition by counting. The positions of every row are counted, and the sums of the counts say
where the rows start. Then the positions go one by one to where their row has come to. They come
column by column, so every row gets its columns in increasing order, and nothing is compared.
-/

namespace Cotangent

/-- Positions on their way into the order of the rows. -/
structure Distribution where
  /-- Where the next position of every row goes. -/
  next : Array Nat
  /-- The column of the position at every place. -/
  columns : Array Nat
  /-- The number that the position at every place had. -/
  numbers : Array Nat
  deriving DecidableEq

/-- Position number `k`, in row `i` and column `j`, goes to where its row has come to. -/
def Distribution.put (s : Distribution) (j k i : Nat) : Distribution :=
  let place := s.next.getD i 0
  { next := s.next.modify i (· + 1)
    columns := s.columns.setIfInBounds place j
    numbers := s.numbers.setIfInBounds place k }

namespace Pattern

/-- The number of positions of every row, one place behind the row. -/
def rowCounts (p : Pattern) : Array Nat :=
  p.rowIndices.foldl (fun counts i => counts.modify (i + 1) (· + 1))
    (Array.replicate (p.nrows + 1) 0)

/-- The sum up to place `i` added to the count behind it. -/
def addSum (sums : Array Nat) (i : Nat) : Array Nat :=
  let before := sums.getD i 0
  sums.modify (i + 1) (· + before)

/-- Where every row starts, and where the last one ends. -/
def rowStarts (p : Pattern) : Array Nat := (List.range p.nrows).foldl addSum p.rowCounts

/-- The positions in the order of the rows. -/
def distribution (p : Pattern) : Distribution :=
  let starts := p.colPtrs.toArray
  let rows := p.rowIndices.toArray
  (List.range p.ncols).foldl
    (fun s j =>
      let start := starts.getD j 0
      let stop := starts.getD (j + 1) 0
      (List.range' start (stop - start)).foldl (fun s k => s.put j k (rows.getD k 0)) s)
    ⟨p.rowStarts, Array.replicate p.nnz 0, Array.replicate p.nnz 0⟩

/-- Rows and columns exchanged, if there is room for a column for every row (`Sparsity.transpose`). -/
def transpose? (p : Pattern) : Except Error Pattern := do
  checkRoom (p.nrows + 1)
  ofArrays p.ncols p.nrows p.rowStarts p.distribution.columns

/-- For every position of the transposed pattern, the number of the same position in this one
(`Sparsity.transpose`). -/
def transposeMap (p : Pattern) : List Nat := p.distribution.numbers.toList

end Pattern

end Cotangent
