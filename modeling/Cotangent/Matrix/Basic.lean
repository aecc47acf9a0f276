import Cotangent.Capacity
import Cotangent.Scalar
import Cotangent.Shape

/-!
Dense matrices, stored column by column: entry `(i, j)` of a matrix with `r` rows is element
`j * r + i` of its data. `DenseMatrix.ofFn` builds a matrix from a rule for its entries and
`DenseMatrix.entry` reads it back. The accessors that name a position fail when the position is
outside the data, which for a row index beyond the last row is not the same as outside the matrix.
A builder with a question mark refuses a matrix for which there is no room.
-/

namespace Cotangent

/-- A dense matrix stored by columns (`Matrix`). -/
structure DenseMatrix (α : Type) where
  nrows : Nat
  ncols : Nat
  /-- The columns one after another. -/
  data : Array α
  /-- The data fill the shape. -/
  size_data : data.size = nrows * ncols
  deriving DecidableEq

namespace DenseMatrix

variable {α : Type}

/-- Rows and columns. -/
def shape (m : DenseMatrix α) : Shape := (m.nrows, m.ncols)

/-- The matrix without entries. -/
def empty : DenseMatrix α := ⟨0, 0, #[], rfl⟩

instance : Inhabited (DenseMatrix α) := ⟨empty⟩

/-- The matrix whose entry `(i, j)` is `f i j`. -/
def ofFn (nrows ncols : Nat) (f : Nat → Nat → α) : DenseMatrix α where
  nrows := nrows
  ncols := ncols
  data := Array.ofFn fun k : Fin (nrows * ncols) => f (k.val % nrows) (k.val / nrows)
  size_data := Array.size_ofFn

/-- The matrix with every entry equal to `x` (`Matrix.fill`). -/
def fill (shape : Shape) (x : α) : DenseMatrix α :=
  ⟨shape.1, shape.2, Array.replicate (shape.1 * shape.2) x, Array.size_replicate⟩

/-- The one by one matrix (`Matrix.scalar`). -/
def scalar (x : α) : DenseMatrix α := ⟨1, 1, #[x], rfl⟩

/-- A single column (`Matrix.column`). -/
def column (xs : List α) : DenseMatrix α := ⟨xs.length, 1, xs.toArray, by simp⟩

/-- A matrix from its data by columns, if they fill the shape (`Matrix.from_col_major`). -/
def ofColumns (nrows ncols : Nat) (data : Array α) : Except Error (DenseMatrix α) :=
  if h : data.size = nrows * ncols then .ok ⟨nrows, ncols, data, h⟩
  else
    .error (sizeFault (nrows * ncols) (.invalidArgument (.dataLength data.size nrows ncols)))

/-- One row and one column (`Matrix.is_scalar`). -/
def isScalar (m : DenseMatrix α) : Bool := m.nrows == 1 && m.ncols == 1

/-- The entry of a one by one matrix (`Matrix.as_scalar`). -/
def scalar? (m : DenseMatrix α) : Option α := if m.isScalar then m.data[0]? else none

/-- The element of the data at the place of `(i, j)` (`Matrix.get`). -/
def get? (m : DenseMatrix α) (i j : Nat) : Except Error α :=
  match m.data[j * m.nrows + i]? with
  | some x => .ok x
  | none => .error .outOfRange

/-- The data with element `k` replaced. -/
def setData (m : DenseMatrix α) (k : Nat) (x : α) : Except Error (DenseMatrix α) :=
  if k < m.data.size then
    .ok ⟨m.nrows, m.ncols, m.data.setIfInBounds k x, by simp [m.size_data]⟩
  else .error .outOfRange

/-- The element at the place of `(i, j)` replaced (`Matrix.set`). -/
def set (m : DenseMatrix α) (i j : Nat) (x : α) : Except Error (DenseMatrix α) :=
  m.setData (j * m.nrows + i) x

/-- The stretch of data from column `start` on, `count` columns long (`Matrix.col_block`). Columns
without rows have no data, so any stretch whose end is a size is there. -/
def colBlock (m : DenseMatrix α) (start count : Nat) : Except Error (DenseMatrix α) :=
  if h : start + count < sizeLimit ∧ (start + count) * m.nrows ≤ m.data.size then
    .ok ⟨m.nrows, count, m.data.extract (start * m.nrows) ((start + count) * m.nrows), by
      rw [Array.size_extract, Nat.min_eq_left h.2, Nat.add_mul, Nat.add_sub_cancel_left,
        Nat.mul_comm]⟩
  else .error .outOfRange

/-- The stretch of data of column `j` (`Matrix.col`). -/
def col (m : DenseMatrix α) (j : Nat) : Except Error (Array α) :=
  (m.colBlock j 1).map data

/-- Refuses a matrix of another shape (`Matrix.check_shape`). -/
def checkShape (m : DenseMatrix α) (expected : Shape) : Except Error Unit :=
  if m.shape = expected then .ok ()
  else .error (.shapeMismatch expected.toList m.shape.toList)

/-- The matrix `source`, if it has the shape of the place it is written to (`Matrix.copy_from`). -/
def overwrite (place source : DenseMatrix α) : Except Error (DenseMatrix α) :=
  (source.checkShape place.shape).map fun _ => source

/-- The rule applied to every entry (`Matrix.map`). -/
def map {β : Type} (f : α → β) (m : DenseMatrix α) : DenseMatrix β :=
  ⟨m.nrows, m.ncols, m.data.map f, by simp [m.size_data]⟩

/-- Side by side, on the right. -/
def append (m other : DenseMatrix α) : Except Error (DenseMatrix α) :=
  if h : other.nrows = m.nrows then
    (checkSize (m.ncols + other.ncols)).map fun _ =>
      ⟨m.nrows, m.ncols + other.ncols, m.data ++ other.data, by
        simp [m.size_data, other.size_data, h, Nat.mul_add]⟩
  else .error (.shapeMismatch [m.nrows, other.ncols] [other.nrows, other.ncols])

/-- Side by side (`Matrix.hcat`). -/
def hcat : List (DenseMatrix α) → Except Error (DenseMatrix α)
  | [] => .ok empty
  | first :: rest => rest.foldlM append first

/-- The matrix whose entry `(i, j)` is element `i` of `column j`. Without rows no column is asked
for. -/
def ofColumnFn [Zero α] (nrows ncols : Nat) (column : Nat → Array α) : DenseMatrix α :=
  let columns := Array.ofFn fun j : Fin (if nrows = 0 then 0 else ncols) => column j
  ofFn nrows ncols fun i j => (columns.getD j #[]).getD i 0

section Entries

variable [Zero α]

/-- The entry in row `i` and column `j`. -/
def entry (m : DenseMatrix α) (i j : Nat) : α := m.data.getD (j * m.nrows + i) 0

/-- The matrix with all entries zero. -/
def zeros (nrows ncols : Nat) : DenseMatrix α := fill (nrows, ncols) 0

def identity [One α] (n : Nat) : DenseMatrix α := ofFn n n fun i j => if i = j then 1 else 0

/-- The matrix with all entries zero, if there is room for it (`Matrix.zeros`). -/
def zeros? (nrows ncols : Nat) : Except Error (DenseMatrix α) :=
  (checkRoom (nrows * ncols)).map fun _ => zeros nrows ncols

/-- The identity, if there is room for it (`Matrix.identity`). -/
def identity? [One α] (n : Nat) : Except Error (DenseMatrix α) :=
  (checkRoom (n * n)).map fun _ => identity n

/-- Rows of `ncols` entries each (`Matrix.from_rows`). -/
def ofRows (ncols : Nat) (rows : List (List α)) : Except Error (DenseMatrix α) :=
  if rows.all (·.length = ncols) then
    let rows := rows.toArray
    .ok (ofFn rows.size ncols fun i j => (rows.getD i []).getD j 0)
  else .error .outOfRange

/-- Rows become columns (`Matrix.transpose`). -/
def transpose (m : DenseMatrix α) : DenseMatrix α := ofFn m.ncols m.nrows fun i j => m.entry j i

/-- The place of an entry is in the data. -/
theorem place_lt {r c i j : Nat} (hi : i < r) (hj : j < c) : j * r + i < r * c :=
  calc j * r + i < j * r + r := Nat.add_lt_add_left hi _
    _ = (j + 1) * r := (Nat.succ_mul j r).symm
    _ ≤ c * r := Nat.mul_le_mul_right r hj
    _ = r * c := Nat.mul_comm c r

/-- An entry is the element of the data at its place. -/
theorem getElem?_data (m : DenseMatrix α) {i j : Nat} (hi : i < m.nrows) (hj : j < m.ncols) :
    m.data[j * m.nrows + i]? = some (m.entry i j) := by
  simp [entry, Array.getD, m.size_data, place_lt hi hj]

/-- A matrix built from a rule has the entries that the rule gives. -/
theorem entry_ofFn {r c i j : Nat} (hi : i < r) (hj : j < c) (f : Nat → Nat → α) :
    (ofFn r c f).entry i j = f i j := by
  have hq : (j * r + i) / r = j := by
    rw [Nat.mul_comm, Nat.mul_add_div (Nat.zero_lt_of_lt hi), Nat.div_eq_of_lt hi, Nat.add_zero]
  have e := getElem?_data (ofFn r c f) hi hj
  simpa [ofFn, place_lt hi hj, Nat.mod_eq_of_lt hi, hq, eq_comm] using e

/-- Two matrices of one shape with the same entries are equal. -/
theorem ext_entry {a b : DenseMatrix α} (hr : a.nrows = b.nrows) (hc : a.ncols = b.ncols)
    (h : ∀ i j, i < a.nrows → j < a.ncols → a.entry i j = b.entry i j) : a = b := by
  obtain ⟨r, c, data, hd⟩ := a
  obtain ⟨r', c', data', hd'⟩ := b
  simp only at hr hc
  subst hr hc
  simp only [mk.injEq, true_and]
  refine Array.ext_getElem? fun k => ?_
  by_cases hk : k < r * c
  · have hpos : 0 < r := Nat.pos_of_ne_zero fun h0 => by simp [h0] at hk
    have hi := Nat.mod_lt k hpos
    have hj : k / r < c := Nat.div_lt_of_lt_mul hk
    have ea := getElem?_data ⟨r, c, data, hd⟩ hi hj
    have eb := getElem?_data ⟨r, c, data', hd'⟩ hi hj
    rw [← h _ _ hi hj, ← ea] at eb
    have e : k / r * r + k % r = k := by rw [Nat.mul_comm]; exact Nat.div_add_mod k r
    exact (e ▸ eb).symm
  · rw [Array.getElem?_eq_none (hd ▸ Nat.le_of_not_lt hk),
      Array.getElem?_eq_none (hd' ▸ Nat.le_of_not_lt hk)]

/-- Rows and columns of a transposed matrix are exchanged. -/
theorem entry_transpose (m : DenseMatrix α) {i j : Nat} (hi : i < m.ncols) (hj : j < m.nrows) :
    m.transpose.entry i j = m.entry j i :=
  entry_ofFn hi hj _

theorem transpose_transpose (m : DenseMatrix α) : m.transpose.transpose = m :=
  ext_entry rfl rfl fun _ _ hi hj =>
    (entry_transpose m.transpose hi hj).trans (entry_transpose m hj hi)

end Entries

end DenseMatrix

end Cotangent
