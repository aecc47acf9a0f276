import Cotangent.Matrix.Basic

/-!
Arithmetic of dense matrices. Every result is a rule for its entries with a fixed order of
operations: an entry of a product adds its terms in the order of the inner index and leaves out
the terms whose right factor is zero. A one by one operand of an entrywise operation stands for a
matrix of the other's shape.
-/

namespace Cotangent.DenseMatrix

variable {α : Type} [Scalar α]

/-- Entry by entry, where a one by one operand fits every shape (`Matrix.zip_map`). -/
def zipMap (f : α → α → α) (a b : DenseMatrix α) : Except Error (DenseMatrix α) :=
  if h : a.shape = b.shape then
    .ok ⟨a.nrows, a.ncols, a.data.zipWith f b.data, by
      simp only [shape, Prod.mk.injEq] at h
      simp [a.size_data, b.size_data, h.1, h.2]⟩
  else match a.scalar?, b.scalar? with
    | some x, _ => .ok (b.map (f x))
    | none, some y => .ok (a.map (f · y))
    | none, none => .error (.shapeMismatch a.shape.toList b.shape.toList)

/-- The matrix with another of the same shape added (`Matrix.add_assign`). -/
def accumulate (a b : DenseMatrix α) : Except Error (DenseMatrix α) :=
  if h : b.shape = a.shape then
    .ok ⟨a.nrows, a.ncols, a.data.zipWith (· + ·) b.data, by
      simp only [shape, Prod.mk.injEq] at h
      simp [a.size_data, b.size_data, h.1, h.2]⟩
  else .error (.shapeMismatch a.shape.toList b.shape.toList)

/-- Every entry multiplied from the left (`Matrix.scaled`). -/
def scaled (m : DenseMatrix α) (factor : α) : DenseMatrix α := m.map (factor * ·)

/-- One entry of a product: the terms of the inner index in order, without those whose right
factor is zero. -/
def dot (inner : Nat) (left right : Nat → α) : α :=
  (List.range inner).foldl
    (fun acc p => if Scalar.isZero (right p) then acc else acc + left p * right p) 0

/-- The matrix product, if there is room for it (`Matrix.matmul`). -/
def matmul (a b : DenseMatrix α) : Except Error (DenseMatrix α) :=
  if a.ncols = b.nrows then
    (checkRoom (a.nrows * b.ncols)).map fun _ =>
      ofFn a.nrows b.ncols fun i j => dot a.ncols (a.entry i ·) (b.entry · j)
  else .error (.shapeMismatch [a.ncols, b.ncols] b.shape.toList)

/-- The sum of all entries, column by column (`Matrix.sum`). -/
def sum (m : DenseMatrix α) : α := Scalar.sum m.data.toList

/-- The largest difference of two entries at one position (`Matrix.max_abs_diff`). -/
def maxAbsDiff (a b : DenseMatrix α) : Option α :=
  if a.shape = b.shape then some (Scalar.maxAbs (a.data.zipWith (· - ·) b.data).toList) else none

/-- Equality of shapes and numeric equality of entries. -/
def numEq (a b : DenseMatrix α) : Bool :=
  a.shape == b.shape && Scalar.listEq a.data.toList b.data.toList

/-- A sensitivity of a broadcast operand: summed up unless it already has the operand's shape
(`reduce_to_shape`). -/
def reduceTo (m : DenseMatrix α) (target : Shape) : DenseMatrix α :=
  if m.shape = target then m else scalar m.sum

/-- The rows of a matrix, in brackets (`fmt` of `Matrix`). -/
def text (m : DenseMatrix α) : String :=
  let row (i : Nat) : String :=
    ", ".intercalate ((List.range m.ncols).map fun j => Scalar.positional (m.entry i j))
  s!"Matrix({m.nrows}x{m.ncols})[" ++ "; ".intercalate ((List.range m.nrows).map row) ++ "]"

end Cotangent.DenseMatrix
