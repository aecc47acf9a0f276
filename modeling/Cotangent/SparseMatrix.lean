import Cotangent.Matrix.Arithmetic
import Cotangent.Pattern.Transposition

/-!
Sparse matrices: a pattern and one value for every position, in the order of the positions.
Everything that turns one kind of matrix into another goes through `SparseMatrix.sample`, which
reads a rule for entries at the positions of a pattern.
-/

namespace Cotangent

/-- There is room for a dense matrix on the pattern. -/
def Pattern.Roomy (p : Pattern) : Prop := p.nrows * p.ncols < wordLimit

instance (p : Pattern) : Decidable p.Roomy := inferInstanceAs (Decidable (_ < _))

/-- A pattern with values (`CscMatrix`). -/
structure SparseMatrix (α : Type) where
  /-- Where entries may be nonzero. -/
  pattern : Pattern
  /-- The entries, in the order of the positions. -/
  values : Array α
  /-- One value for every position. -/
  size_values : values.size = pattern.nnz
  deriving DecidableEq

namespace SparseMatrix

variable {α : Type}

theorem eq_of_values {a b : SparseMatrix α} (pattern : a.pattern = b.pattern)
    (values : a.values = b.values) : a = b := by
  cases a
  cases b
  cases pattern
  cases values
  rfl

/-- A pattern with values, if there is one for every position (`CscMatrix.new`). -/
def ofValues (p : Pattern) (values : Array α) : Except Error (SparseMatrix α) :=
  if h : values.size = p.nnz then .ok ⟨p, values, h⟩
  else .error (.shapeMismatch [p.nnz] [values.size])

/-- The values that a rule for entries gives at the positions of a pattern. -/
def sample (p : Pattern) (f : Nat → Nat → α) : SparseMatrix α :=
  ⟨p, (p.cells.map fun (i, j) => f i j).toArray, by simp [Pattern.length_cells]⟩

def nrows (a : SparseMatrix α) : Nat := a.pattern.nrows

def ncols (a : SparseMatrix α) : Nat := a.pattern.ncols

/-- The value of number `k` replaced (`CscMatrix.values_mut`). -/
def setValue (a : SparseMatrix α) (k : Nat) (x : α) : Except Error (SparseMatrix α) :=
  if k < a.values.size then
    .ok ⟨a.pattern, a.values.setIfInBounds k x, by simp [a.size_values]⟩
  else .error .outOfRange

variable [Scalar α]

/-- The entry in row `i` and column `j`, zero outside the pattern (`CscMatrix.get`). -/
def entry (a : SparseMatrix α) (i j : Nat) : α :=
  match a.pattern.position? i j with
  | some k => a.values.getD k 0
  | none => 0

/-- Rows and values of column `j`. -/
def col (a : SparseMatrix α) (j : Nat) : List (Nat × α) :=
  ((a.pattern.col j).zipIdx (a.pattern.offset j)).map fun (i, k) => (i, a.values.getD k 0)

/-- A dense matrix read at the positions of a pattern; its other entries are dropped
(`CscMatrix.from_dense`). -/
def project (m : DenseMatrix α) (p : Pattern) : Except Error (SparseMatrix α) :=
  (m.checkShape p.shape).map fun _ => sample p m.entry

/-- A dense matrix on the full pattern. -/
def ofDense (m : DenseMatrix α) : SparseMatrix α := sample (.dense m.nrows m.ncols) m.entry

/-- A dense matrix on the full pattern, if there is room for the pattern
(`CscMatrix.from_dense_full`). -/
def ofDense? (m : DenseMatrix α) : Except Error (SparseMatrix α) :=
  (Pattern.dense? m.nrows m.ncols).map fun p => sample p m.entry

/-- A dense matrix on the pattern of its nonzero entries. -/
def ofNonzeros (m : DenseMatrix α) : SparseMatrix α :=
  sample (.ofTest m.nrows m.ncols fun i j => !Scalar.isZero (m.entry i j)) m.entry

/-- A dense matrix on the pattern of its nonzero entries, if there is room for the pattern
(`CscMatrix.from_dense_nonzeros`). -/
def ofNonzeros? (m : DenseMatrix α) : Except Error (SparseMatrix α) :=
  (checkRoom (m.ncols + 1)).map fun _ => ofNonzeros m

/-- Rows become columns. -/
def transpose (a : SparseMatrix α) : SparseMatrix α :=
  sample a.pattern.transpose fun j i => a.entry i j

/-- Rows become columns, if there is room for a column for every row (`CscMatrix.transpose`). -/
def transpose? (a : SparseMatrix α) : Except Error (SparseMatrix α) := do
  let p ← a.pattern.transpose?
  ofValues p (a.pattern.transposeMap.map fun k => a.values.getD k 0).toArray

/-- A column of zeros with listed entries put in. -/
def scatter (nrows : Nat) (entries : List (Nat × α)) : Array α :=
  entries.foldl (fun column (i, x) => column.setIfInBounds i x) (Array.replicate nrows 0)

/-- The dense matrix with the same entries. -/
def toDense (a : SparseMatrix α) : DenseMatrix α :=
  .ofColumnFn a.nrows a.ncols fun j => scatter a.nrows (a.col j)

/-- The dense matrix with the same entries, if there is room for it
(`CscMatrix.to_dense`, `densify`). -/
def toDense? (a : SparseMatrix α) : Except Error (DenseMatrix α) :=
  (checkRoom (a.nrows * a.ncols)).map fun _ => a.toDense

theorem toDense?_of_roomy {a : SparseMatrix α} (roomy : a.pattern.Roomy) :
    a.toDense? = .ok a.toDense :=
  congrArg (Except.map fun _ => a.toDense) (checkRoom_of_lt roomy)

theorem toDense?_of_crowded {a : SparseMatrix α} (crowded : ¬ a.pattern.Roomy) :
    a.toDense? = .error .sizeOverflow :=
  congrArg (Except.map fun _ => a.toDense) (checkRoom_of_le (Nat.not_lt.mp crowded))

/-- One column of a product: the columns of the matrix in order, each times its entry of `x`,
without those whose factor is zero. -/
def mulColumn (a : SparseMatrix α) (x : Nat → α) : Array α :=
  (List.range a.ncols).foldl
    (fun y j =>
      if Scalar.isZero (x j) then y
      else (a.col j).foldl (fun y (i, v) => y.modify i (· + v * x j)) y)
    (Array.replicate a.nrows 0)

/-- The product with a dense matrix, if there is room for it (`CscMatrix.matmul_dense`). -/
def matmul (a : SparseMatrix α) (x : DenseMatrix α) : Except Error (DenseMatrix α) :=
  if x.nrows = a.ncols then
    (checkRoom (a.nrows * x.ncols)).map fun _ =>
      .ofColumnFn a.nrows x.ncols fun c => a.mulColumn (x.entry · c)
  else .error (.shapeMismatch [a.ncols, x.ncols] x.shape.toList)

/-- Equality of patterns and numeric equality of values. -/
def numEq (a b : SparseMatrix α) : Bool :=
  a.pattern = b.pattern && Scalar.listEq a.values.toList b.values.toList

end SparseMatrix

end Cotangent
