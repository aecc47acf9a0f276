import Cotangent.Capacity
import Cotangent.Scalar
import Cotangent.Shape

/-!
Patterns: which positions of a matrix may hold a nonzero entry. A pattern lists, for every column,
its rows in increasing order; the type holds no other lists. The positions are numbered column by
column, and an array of values on a pattern is aligned with these numbers. Column pointers and row
indices, the usual flat form of a pattern, are views of it, and `Pattern.ofArrays` reads them back.
The flat form has one pointer more than columns; a builder with a question mark refuses a pattern
for which it has no room.
-/

namespace Cotangent

/-- The rows of one column: increasing and inside the matrix. -/
def IsColumn (nrows : Nat) (rows : List Nat) : Prop :=
  rows.Pairwise (· < ·) ∧ ∀ i ∈ rows, i < nrows

instance (nrows : Nat) (rows : List Nat) : Decidable (IsColumn nrows rows) :=
  inferInstanceAs (Decidable (_ ∧ _))

/-- Two columns with the same rows are equal. -/
theorem IsColumn.eq_of_mem_iff {n m : Nat} {a b : List Nat} (ha : IsColumn n a) (hb : IsColumn m b)
    (h : ∀ i, i ∈ a ↔ i ∈ b) : a = b :=
  List.Perm.eq_of_pairwise (fun _ _ _ _ hx hy => absurd hy (Nat.lt_asymm hx)) ha.1 hb.1
    ((List.perm_ext_iff_of_nodup (ha.1.imp Nat.ne_of_lt) (hb.1.imp Nat.ne_of_lt)).2 h)

/-- The positions of a matrix that may hold a nonzero entry (`Sparsity`). -/
structure Pattern where
  nrows : Nat
  /-- The rows of every column. -/
  columns : Array (List Nat)
  /-- Every column is increasing and inside the matrix. -/
  isColumn : ∀ rows ∈ columns, IsColumn nrows rows
  deriving DecidableEq

namespace Pattern

def ncols (p : Pattern) : Nat := p.columns.size

/-- Rows and columns. -/
def shape (p : Pattern) : Shape := (p.nrows, p.ncols)

/-- As many rows as columns (`is_square`). -/
def isSquare (p : Pattern) : Bool := p.nrows == p.ncols

/-- The rows of column `j`, none if there is no such column. -/
def col (p : Pattern) (j : Nat) : List Nat := p.columns.getD j []

/-- The rows of column `j`, which has to exist (`Sparsity.col`). -/
def col? (p : Pattern) (j : Nat) : Except Error (List Nat) :=
  match p.columns[j]? with
  | some rows => .ok rows
  | none => .error .outOfRange

/-- The row of every position (`Sparsity.row_indices`). -/
def rowIndices (p : Pattern) : List Nat := p.columns.toList.flatten

/-- The number of positions (`Sparsity.nnz`). -/
def nnz (p : Pattern) : Nat := p.rowIndices.length

/-- The number of positions before column `j`. -/
def offset (p : Pattern) (j : Nat) : Nat := (p.columns.toList.take j).flatten.length

/-- The number of positions before every column, and after the last (`Sparsity.col_ptrs`). -/
def colPtrs (p : Pattern) : List Nat := (List.range (p.ncols + 1)).map p.offset

/-- Row and column of every position, in order. -/
def cells (p : Pattern) : List (Nat × Nat) :=
  p.columns.toList.zipIdx.flatMap fun (rows, j) => rows.map (·, j)

/-- The number of the position in row `i` and column `j` (`Sparsity.get_nz`). -/
def position? (p : Pattern) (i j : Nat) : Option Nat :=
  ((p.col j).idxOf? i).map (p.offset j + ·)

/-- Every diagonal position is in the pattern (`Sparsity.has_full_diagonal`). -/
def hasFullDiagonal (p : Pattern) : Bool :=
  (List.range (min p.nrows p.ncols)).all fun k => (p.position? k k).isSome

/-- The share of positions in the pattern, zero for a matrix without entries. -/
def density {α : Type} [Scalar α] (p : Pattern) : α :=
  if p.nrows * p.ncols = 0 then 0 else (p.nnz : α) / ((p.nrows * p.ncols : Nat) : α)

/-- The share of positions, if the number of entries is a size (`density`). -/
def density? {α : Type} [Scalar α] (p : Pattern) : Except Error α :=
  (checkSize (p.nrows * p.ncols)).map fun _ => p.density

/-- The rows of a column are increasing and inside the matrix, also where there is no column. -/
theorem isColumn_col (p : Pattern) (j : Nat) : IsColumn p.nrows (p.col j) := by
  unfold col Array.getD
  split
  · exact p.isColumn _ (Array.getElem_mem _)
  · exact ⟨List.Pairwise.nil, by simp⟩

theorem lt_nrows_of_mem_col {p : Pattern} {i j : Nat} (h : i ∈ p.col j) : i < p.nrows :=
  (p.isColumn_col j).2 i h

theorem lt_ncols_of_mem_col {p : Pattern} {i j : Nat} (h : i ∈ p.col j) : j < p.ncols := by
  unfold col Array.getD at h
  split at h
  · assumption
  · simp at h

/-- Two patterns of one shape with the same positions are equal. -/
theorem ext_mem {p q : Pattern} (hr : p.nrows = q.nrows) (hc : p.ncols = q.ncols)
    (h : ∀ i j, i ∈ p.col j ↔ i ∈ q.col j) : p = q := by
  obtain ⟨r, cols, hp⟩ := p
  obtain ⟨r', cols', hq⟩ := q
  simp only at hr
  subst hr
  simp only [mk.injEq, true_and]
  refine Array.ext hc fun j hj hj' => ?_
  refine (hp _ (Array.getElem_mem hj)).eq_of_mem_iff (hq _ (Array.getElem_mem hj')) fun i => ?_
  have e := h i j
  simpa [col, Array.getD, hj, hj'] using e

theorem length_cells (p : Pattern) : p.cells.length = p.nnz := by
  simp only [cells, nnz, rowIndices, List.length_flatMap, List.length_flatten, List.length_map]
  rw [← List.zipIdx_map_fst 0 p.columns.toList, List.map_map]
  simp [Function.comp_def]

/-! ## Reading the flat form -/

/-- What is wrong with a list of rows: the first row that is outside the matrix or not above the
row before it. -/
def columnFault (nrows column : Nat) : Option Nat → List Nat → ArgumentError
  | _, [] => .rowsUnordered column
  | previous, i :: rest =>
    if nrows ≤ i then .rowOutOfRange i nrows
    else if previous.any (i ≤ ·) then .rowsUnordered column
    else columnFault nrows column (some i) rest

/-- The stretch of row indices of column `j`. -/
def stretch (colPtrs rowIndices : Array Nat) (j : Nat) : Except Error (List Nat) :=
  match colPtrs[j]?, colPtrs[j + 1]? with
  | some start, some stop =>
    if stop < start then .error (.invalidArgument (.pointersDecrease j))
    else if rowIndices.size < stop then .error .outOfRange
    else .ok (rowIndices.extract start stop).toList
  | _, _ => .error .outOfRange

/-- The rows of column `j`, checked. -/
def checkColumn (nrows j : Nat) (rows : List Nat) :
    Except Error { rows : List Nat // IsColumn nrows rows } :=
  if h : IsColumn nrows rows then .ok ⟨rows, h⟩
  else .error (.invalidArgument (columnFault nrows j none rows))

/-- The pattern of checked columns. -/
def ofChecked {nrows : Nat} (columns : List { rows : List Nat // IsColumn nrows rows }) :
    Pattern where
  nrows := nrows
  columns := (columns.map Subtype.val).toArray
  isColumn := by
    intro rows h
    simp only [List.mem_toArray, List.mem_map] at h
    obtain ⟨c, -, rfl⟩ := h
    exact c.2

/-- The pattern with these columns. -/
def ofColumns (nrows : Nat) (columns : List (List Nat)) : Except Error Pattern :=
  ofChecked <$> columns.zipIdx.mapM fun (rows, j) => checkColumn nrows j rows

/-- The pattern with these column pointers and row indices (`Sparsity.new`). -/
def ofArrays (nrows ncols : Nat) (colPtrs rowIndices : Array Nat) : Except Error Pattern :=
  if colPtrs.size ≠ ncols + 1 then
    .error (sizeFault (ncols + 1) (.invalidArgument (.pointerCount colPtrs.size ncols)))
  else
    let first := colPtrs.getD 0 0
    let last := colPtrs.getD ncols 0
    if first ≠ 0 ∨ last ≠ rowIndices.size then
      .error (.invalidArgument (.pointerSpan rowIndices.size first last))
    else
      ofChecked <$> (List.range ncols).mapM fun j =>
        stretch colPtrs rowIndices j >>= checkColumn nrows j

/-! ## Building patterns -/

/-- The pattern whose column `j` holds the rows that a test accepts. -/
def ofTest (nrows ncols : Nat) (test : Nat → Nat → Bool) : Pattern where
  nrows := nrows
  columns := Array.ofFn fun j : Fin ncols => (List.range nrows).filter (test · j)
  isColumn := by
    intro rows h
    obtain ⟨j, rfl⟩ := Array.mem_ofFn.1 h
    exact ⟨List.pairwise_lt_range.filter _, fun i hi => List.mem_range.1 (List.mem_filter.1 hi).1⟩

/-- Every position. -/
def dense (nrows ncols : Nat) : Pattern where
  nrows := nrows
  columns := Array.ofFn fun _ : Fin ncols => List.range nrows
  isColumn := by
    intro rows h
    obtain ⟨-, rfl⟩ := Array.mem_ofFn.1 h
    exact ⟨List.pairwise_lt_range, fun i hi => List.mem_range.1 hi⟩

/-- The positions on the diagonal. -/
def diagonal (n : Nat) : Pattern where
  nrows := n
  columns := Array.ofFn fun j : Fin n => [j.val]
  isColumn := by
    intro rows h
    obtain ⟨j, rfl⟩ := Array.mem_ofFn.1 h
    simp [IsColumn]

/-- Every position, if there is room for all of them (`Sparsity.dense`). -/
def dense? (nrows ncols : Nat) : Except Error Pattern := do
  checkRoom (ncols + 1)
  checkRoom (nrows * ncols)
  return dense nrows ncols

/-- The diagonal, if there is room for it (`Sparsity.diagonal`). -/
def diagonal? (n : Nat) : Except Error Pattern := (checkRoom (n + 1)).map fun _ => diagonal n

/-- The positions on and below the diagonal (`Sparsity.lower`). -/
def lower (p : Pattern) : Pattern where
  nrows := p.nrows
  columns := p.columns.mapIdx fun j rows => rows.filter (j ≤ ·)
  isColumn := by
    intro rows h
    obtain ⟨j, hj, rfl⟩ := Array.mem_mapIdx.1 h
    have hc := p.isColumn _ (Array.getElem_mem hj)
    exact ⟨hc.1.filter _, fun i hi => hc.2 i (List.mem_filter.1 hi).1⟩

/-- Rows and columns exchanged (`Sparsity.transpose`). -/
def transpose (p : Pattern) : Pattern where
  nrows := p.ncols
  columns := Array.ofFn fun i : Fin p.nrows => (List.range p.ncols).filter (i.val ∈ p.col ·)
  isColumn := by
    intro rows h
    obtain ⟨i, rfl⟩ := Array.mem_ofFn.1 h
    exact ⟨List.pairwise_lt_range.filter _, fun j hj => List.mem_range.1 (List.mem_filter.1 hj).1⟩

/-- A row put at its place, once. -/
def insertRow (i : Nat) : List Nat → List Nat
  | [] => [i]
  | k :: rows =>
    if i < k then i :: k :: rows else if i = k then k :: rows else k :: insertRow i rows

theorem mem_insertRow {i k : Nat} {rows : List Nat} : k ∈ insertRow i rows ↔ k = i ∨ k ∈ rows := by
  induction rows with
  | nil => simp [insertRow]
  | cons m rows ih =>
    simp only [insertRow]
    split
    · simp
    · split
      · next h => subst h; simp
      · simp only [List.mem_cons, ih]
        exact or_left_comm

theorem pairwise_insertRow {i : Nat} {rows : List Nat} (h : rows.Pairwise (· < ·)) :
    (insertRow i rows).Pairwise (· < ·) := by
  induction rows with
  | nil => simp [insertRow]
  | cons m rows ih =>
    obtain ⟨hm, hr⟩ := List.pairwise_cons.1 h
    simp only [insertRow]
    split
    · next him =>
      exact List.pairwise_cons.2 ⟨fun k hk => by
        rcases List.mem_cons.1 hk with rfl | hk
        · exact him
        · exact Nat.lt_trans him (hm k hk), h⟩
    · split
      · exact h
      · refine List.pairwise_cons.2 ⟨fun k hk => ?_, ih hr⟩
        rcases mem_insertRow.1 hk with rfl | hk
        · omega
        · exact hm k hk

/-- The rows of column `j` among listed positions, in order and without repetition. -/
def rowsOf (positions : List (Nat × Nat)) (j : Nat) : List Nat :=
  ((positions.filter (·.2 = j)).map (·.1)).foldr insertRow []

theorem mem_rowsOf {positions : List (Nat × Nat)} {i j : Nat} :
    i ∈ rowsOf positions j ↔ (i, j) ∈ positions := by
  unfold rowsOf
  induction positions with
  | nil => simp
  | cons c rest ih =>
    obtain ⟨a, b⟩ := c
    by_cases h : b = j
    · subst h
      simp [mem_insertRow, ih]
    · simp [h, ih, Ne.symm h]

theorem pairwise_rowsOf (positions : List (Nat × Nat)) (j : Nat) :
    (rowsOf positions j).Pairwise (· < ·) := by
  unfold rowsOf
  induction (positions.filter (·.2 = j)).map (·.1) with
  | nil => simp
  | cons i rest ih => exact pairwise_insertRow ih

/-- The pattern of listed positions, each counted once (`Sparsity.from_triplets`). -/
def ofPositions (nrows ncols : Nat) (rows cols : List Nat) : Except Error Pattern :=
  if rows.length ≠ cols.length then .error (.shapeMismatch [rows.length] [cols.length])
  else
    let positions := rows.zip cols
    if h : ∀ c ∈ positions, c.1 < nrows ∧ c.2 < ncols then
      (checkRoom (ncols + 1)).map fun _ =>
        ⟨nrows, Array.ofFn fun j : Fin ncols => rowsOf positions j, by
          intro rows hr
          obtain ⟨j, rfl⟩ := Array.mem_ofFn.1 hr
          exact ⟨pairwise_rowsOf _ _, fun i hi => (h _ (mem_rowsOf.1 hi)).1⟩⟩
    else
      let outside := (positions.find? fun c => decide (¬(c.1 < nrows ∧ c.2 < ncols))).getD (0, 0)
      .error (.invalidArgument (.positionOutside outside.1 outside.2 nrows ncols))

theorem mem_col_ofPositions {r c i j : Nat} {rows cols : List Nat} {p : Pattern}
    (h : ofPositions r c rows cols = .ok p) : i ∈ p.col j ↔ (i, j) ∈ rows.zip cols := by
  unfold ofPositions at h
  split at h
  · cases h
  · dsimp only at h
    split at h
    · next hin =>
      unfold checkRoom at h
      split at h <;> cases h
      by_cases hj : j < c
      · simp [col, Array.getD, hj, mem_rowsOf]
      · simp only [col, Array.getD, Array.size_ofFn, hj, ↓reduceDIte, List.not_mem_nil, false_iff]
        exact fun hm => hj (hin _ hm).2
    · cases h

/-! ## The positions of built patterns -/

theorem mem_col_ofTest {r c i j : Nat} {test : Nat → Nat → Bool} :
    i ∈ (ofTest r c test).col j ↔ i < r ∧ j < c ∧ test i j := by
  by_cases hj : j < c <;> simp [ofTest, col, Array.getD, hj]

theorem mem_col_dense {r c i j : Nat} : i ∈ (dense r c).col j ↔ i < r ∧ j < c := by
  by_cases hj : j < c <;> simp [dense, col, Array.getD, hj]

theorem mem_col_diagonal {n i j : Nat} : i ∈ (diagonal n).col j ↔ i = j ∧ j < n := by
  by_cases hj : j < n <;> simp [diagonal, col, Array.getD, hj]

theorem mem_col_lower {p : Pattern} {i j : Nat} : i ∈ p.lower.col j ↔ i ∈ p.col j ∧ j ≤ i := by
  by_cases hj : j < p.columns.size <;> simp [lower, col, Array.getD, hj]

theorem mem_col_transpose {p : Pattern} {i j : Nat} : j ∈ p.transpose.col i ↔ i ∈ p.col j := by
  by_cases hi : i < p.nrows
  · simp only [transpose, col, Array.getD, Array.size_ofFn, hi, ↓reduceDIte,
      Array.getInternal_eq_getElem, Array.getElem_ofFn, List.mem_filter, List.mem_range,
      decide_eq_true_eq, and_iff_right_iff_imp]
    exact lt_ncols_of_mem_col
  · constructor
    · intro h
      exact absurd (lt_ncols_of_mem_col h) (by simpa [transpose, ncols] using hi)
    · intro h
      exact absurd (lt_nrows_of_mem_col h) hi

theorem transpose_transpose (p : Pattern) : p.transpose.transpose = p :=
  ext_mem (by simp [transpose, ncols]) (by simp [transpose, ncols]) fun _ _ =>
    mem_col_transpose.trans mem_col_transpose

end Pattern

end Cotangent
