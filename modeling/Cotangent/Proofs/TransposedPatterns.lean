import Cotangent.Pattern.Transposition
import Cotangent.SparseMatrix
import Cotangent.Proofs.Coefficients
import Cotangent.Proofs.FlatForm
import Cotangent.Proofs.Positions

/-! Transposition by counting, for every pattern. The sums of the counts are the starts of the columns of
the transposed pattern, and before a column is distributed every row has come to the cursor of that column.
So a position goes to the number that it has in the transposed pattern: the columns that end up in a row are
increasing though nothing compares them, no two positions meet, and no place is left over. -/
namespace Cotangent.Pattern

variable {p q : Pattern} {i j k m : Nat}

/-! ### A pattern and its flat form -/

theorem toList_columns (p : Pattern) : p.columns.toList = (List.range p.ncols).map p.col := by
  refine List.ext_getElem (by simp [ncols]) fun j inside _ => ?_
  have inside : j < p.columns.size := by simpa using inside
  simp [col, Array.getD, inside]

theorem offset_zero (p : Pattern) : p.offset 0 = 0 := by simp [offset]

/-- A column starts behind the one before it. -/
theorem offset_succ (inside : j < p.ncols) : p.offset (j + 1) = p.offset j + (p.col j).length := by
  simp only [offset, toList_columns, ← List.map_take, List.take_range]
  rw [Nat.min_eq_left (Nat.succ_le_of_lt inside), Nat.min_eq_left inside.le, List.range_succ]
  simp

/-- No cursor leaves its column. -/
theorem cursor_le_offset_succ (inside : j < p.ncols) (k : Nat) : p.cursor j k ≤ p.offset (j + 1) := by
  rw [offset_succ inside, cursor]
  exact Nat.add_le_add_left List.countP_le_length _

theorem offset_ncols (p : Pattern) : p.offset p.ncols = p.nnz := by
  rw [offset, ncols, ← Array.length_toList, List.take_length, nnz, rowIndices]

theorem getD_colPtrs (p : Pattern) (within : j ≤ p.ncols) : p.colPtrs.toArray.getD j 0 = p.offset j := by
  have inside : j < p.ncols + 1 := Nat.lt_succ_of_le within
  simp [colPtrs, Array.getD, inside]

/-- Every number below the number of positions belongs to a position. -/
theorem exists_position?_eq (inside : k < p.nnz) : ∃ i j, p.position? i j = some k := by
  suffices ∀ m ≤ p.ncols, k < p.offset m → ∃ i j, p.position? i j = some k from
    this p.ncols le_rfl (p.offset_ncols ▸ inside)
  intro m within before
  induction m with
  | zero => simp [offset_zero] at before
  | succ m ih =>
    by_cases earlier : k < p.offset m
    · exact ih (Nat.le_of_succ_le within) earlier
    · obtain ⟨t, rfl⟩ := Nat.exists_eq_add_of_le (Nat.not_lt.mp earlier)
      have here : t < (p.col m).length := by
        rw [offset_succ within] at before
        omega
      exact ⟨_, m, position?_eq_some_iff.mpr ⟨t, List.getElem?_eq_getElem here, rfl⟩⟩

/-- A cell stands at the number of its position. -/
theorem getElem?_cells_iff : p.cells[k]? = some (i, j) ↔ p.position? i j = some k := by
  refine ⟨fun found => ?_, getElem?_cells_of_position?⟩
  have inside : k < p.nnz := p.length_cells ▸ (List.getElem?_eq_some_iff.mp found).1
  obtain ⟨i', j', position⟩ := exists_position?_eq inside
  cases found.symm.trans (getElem?_cells_of_position? position)
  exact position

theorem nodup_cells (p : Pattern) : p.cells.Nodup := by
  rw [List.nodup_iff_getElem?_ne_getElem?]
  intro k m less inside same
  have first := List.getElem?_eq_getElem (less.trans inside)
  have found := getElem?_cells_iff.mp first
  rw [getElem?_cells_iff.mp (same.symm.trans first)] at found
  exact less.ne' (Option.some.inj found)

theorem mem_cells_iff : (i, j) ∈ p.cells ↔ i ∈ p.col j := by
  refine ⟨mem_col_of_mem_cells, fun member => ?_⟩
  obtain ⟨k, position⟩ := exists_position? member
  exact List.mem_of_getElem? (getElem?_cells_of_position? position)

/-- The row indices reach as far as the pointers. -/
theorem colPtrs_succ_le (inside : j < p.ncols) :
    p.colPtrs.toArray.getD (j + 1) 0 ≤ p.rowIndices.toArray.size := by
  rw [p.getD_colPtrs inside, offset_succ inside, List.size_toArray]
  exact p.offset_add_length_le inside

/-- The row indices from one pointer to the next are a column. -/
theorem flatColumn_colPtrs (inside : j < p.ncols) :
    flatColumn p.colPtrs.toArray p.rowIndices.toArray j = p.col j := by
  have start := p.getD_colPtrs inside.le
  have stop : p.colPtrs.toArray.getD (j + 1) 0 = p.offset j + (p.col j).length :=
    (p.getD_colPtrs inside).trans (offset_succ inside)
  have stop_le := colPtrs_succ_le inside
  refine List.ext_getElem ?_ fun t _ here => ?_
  · rw [length_flatColumn stop_le, start, stop, Nat.add_sub_cancel_left]
  · refine Option.some.inj ?_
    rw [← List.getElem?_eq_getElem, getElem?_flatColumn stop_le (by omega), start]
    have row := getElem?_rowIndices
      (position?_eq_some_iff.mpr ⟨t, List.getElem?_eq_getElem here, rfl⟩)
    simp [Array.getD_eq_getD_getElem?, row]

/-- The pointers and rows of a pattern are flat. -/
theorem isFlat (p : Pattern) : IsFlat p.nrows p.ncols p.colPtrs.toArray p.rowIndices.toArray := by
  refine (isFlat_iff p.nrows (by simp [colPtrs]) ?_ ?_).mpr fun j inside => ?_
  · rw [p.getD_colPtrs (Nat.zero_le _), offset_zero]
  · rw [p.getD_colPtrs le_rfl, offset_ncols, nnz, List.size_toArray]
  · refine ⟨?_, colPtrs_succ_le inside, ?_⟩
    · rw [p.getD_colPtrs inside.le, p.getD_colPtrs inside, offset_succ inside]
      exact Nat.le_add_right _ _
    · rw [flatColumn_colPtrs inside]
      exact p.isColumn_col j

/-- The pointers lead to the columns. -/
theorem stretch_colPtrs (inside : j < p.ncols) :
    stretch p.colPtrs.toArray p.rowIndices.toArray j = .ok (p.col j) := by
  have count : p.colPtrs.length = p.ncols + 1 := p.isFlat.count
  have start : p.colPtrs.toArray[j]? = some (p.colPtrs.toArray.getD j 0) := by
    simp [Array.getD, count, Nat.lt_succ_of_lt inside]
  have stop : p.colPtrs.toArray[j + 1]? = some (p.colPtrs.toArray.getD (j + 1) 0) := by
    simp [Array.getD, count, inside]
  have ordered := p.isFlat.ordered j inside
  rw [stretch, start, stop]
  dsimp only
  rw [if_neg (Nat.not_lt.mpr ordered), if_neg (Nat.not_lt.mpr (colPtrs_succ_le inside))]
  exact congrArg Except.ok (flatColumn_colPtrs inside)

/-- Patterns with one flat form are equal. -/
theorem eq_of_flat (rows : p.nrows = q.nrows) (columns : p.ncols = q.ncols)
    (pointers : p.colPtrs = q.colPtrs) (indices : p.rowIndices = q.rowIndices) : p = q := by
  refine ext_mem rows columns fun i j => ?_
  by_cases inside : j < p.ncols
  · rw [← flatColumn_colPtrs inside, pointers, indices, flatColumn_colPtrs (columns ▸ inside)]
  · exact ⟨fun member => absurd (lt_ncols_of_mem_col member) inside,
      fun member => absurd (columns ▸ lt_ncols_of_mem_col member) inside⟩

/-- The flat form is read back. -/
theorem ofArrays_colPtrs (p : Pattern) :
    ofArrays p.nrows p.ncols p.colPtrs.toArray p.rowIndices.toArray = .ok p := by
  rcases ofArrays_cases p.nrows p.ncols p.colPtrs.toArray p.rowIndices.toArray
    with ⟨-, q, done, rows, columns, pointers, indices⟩ | ⟨bent, -⟩
  · rw [done, eq_of_flat rows columns pointers indices]
  · exact absurd p.isFlat bent

/-! ### Where the rows start -/

theorem nrows_transpose (p : Pattern) : p.transpose.nrows = p.ncols := rfl

theorem ncols_transpose (p : Pattern) : p.transpose.ncols = p.nrows := by simp [transpose, ncols]

/-- The positions of the transposed pattern are the positions with row and column exchanged. -/
theorem cells_transpose_perm (p : Pattern) : (p.transpose.cells.map Prod.swap).Perm p.cells := by
  refine (List.perm_ext_iff_of_nodup (p.transpose.nodup_cells.map Prod.swap_injective)
    p.nodup_cells).mpr fun ⟨i, j⟩ => ?_
  rw [mem_cells_iff, ← mem_col_transpose, ← mem_cells_iff]
  simp

theorem nnz_transpose (p : Pattern) : p.transpose.nnz = p.nnz := by
  rw [← length_cells, ← length_cells, ← p.cells_transpose_perm.length_eq, List.length_map]

/-- A row has as many positions as columns. -/
theorem count_rowIndices (inside : i < p.nrows) :
    p.rowIndices.count i = (p.transpose.col i).length := by
  have columns : p.transpose.col i = (List.range p.ncols).filter (i ∈ p.col ·) := by
    simp [transpose, col, Array.getD, inside]
  have once (js : List Nat) : (js.map p.col).flatten.count i = (js.filter (i ∈ p.col ·)).length := by
    induction js with
    | nil => rfl
    | cons j js ih =>
      rw [List.map_cons, List.flatten_cons, List.count_append, ih, (p.nodup_col j).count,
        List.filter_cons]
      by_cases member : i ∈ p.col j
      · simp [member, Nat.add_comm]
      · simp [member]
  rw [rowIndices, toList_columns, once, columns]

/-- What a row adds to its count. -/
theorem getElem?_foldl_count (rows : List Nat) (counts : Array Nat) :
    (rows.foldl (fun counts i => counts.modify (i + 1) (· + 1)) counts)[m]? =
      counts[m]?.map (· + rows.countP (· + 1 = m)) := by
  induction rows generalizing counts with
  | nil => simp
  | cons i rows ih =>
    rw [List.foldl_cons, ih, Array.getElem?_modify, List.countP_cons]
    by_cases here : i + 1 = m
    · simp [here, Function.comp_def, Nat.add_assoc, Nat.add_comm 1]
    · simp [here]

/-- Behind a row stands the number of its positions, and before all rows nothing. -/
theorem getElem?_rowCounts (within : m ≤ p.nrows) :
    p.rowCounts[m]? = some (p.rowIndices.countP (· + 1 = m)) := by
  have inside : m < p.nrows + 1 := Nat.lt_succ_of_le within
  simp [rowCounts, getElem?_foldl_count, inside]

/-- The counts up to a column add up to where it starts. -/
theorem getElem?_foldl_addSum {counts : Array Nat} (first : counts[0]? = some 0)
    (counted : ∀ j < q.ncols, counts[j + 1]? = some (q.col j).length) {n : Nat}
    (within : n ≤ q.ncols) (m : Nat) : ((List.range n).foldl addSum counts)[m]? =
      if m ≤ n then some (q.offset m) else counts[m]? := by
  induction n generalizing m with
  | zero =>
    rw [List.range_zero, List.foldl_nil]
    by_cases start : m = 0
    · rw [start, if_pos le_rfl, first, offset_zero]
    · rw [if_neg (by omega)]
  | succ n ih =>
    have known := ih (Nat.le_of_succ_le within)
    have sum := known n
    rw [if_pos le_rfl] at sum
    rw [List.range_succ, List.foldl_append, List.foldl_cons, List.foldl_nil, addSum,
      Array.getElem?_modify, known m, Array.getD_eq_getD_getElem?, sum, Option.getD_some]
    by_cases here : n + 1 = m
    · subst here
      rw [if_pos rfl, if_neg (Nat.not_succ_le_self n), if_pos le_rfl, counted n within,
        offset_succ within, Option.map_some, Nat.add_comm]
    · have side : m ≤ n ↔ m ≤ n + 1 := by omega
      rw [if_neg here]
      exact if_congr side rfl rfl

/-- The sums of the lengths of the columns are the pointers. -/
theorem foldl_addSum {counts : Array Nat} (size : counts.size = q.ncols + 1)
    (first : counts[0]? = some 0)
    (counted : ∀ j < q.ncols, counts[j + 1]? = some (q.col j).length) :
    (List.range q.ncols).foldl addSum counts = q.colPtrs.toArray := by
  refine Array.ext_getElem? fun m => ?_
  rw [getElem?_foldl_addSum first counted le_rfl]
  by_cases within : m ≤ q.ncols
  · have inside : m < q.ncols + 1 := Nat.lt_succ_of_le within
    rw [if_pos within]
    simp [colPtrs, inside]
  · rw [if_neg within, Array.getElem?_eq_none (by omega), Array.getElem?_eq_none]
    simp [colPtrs]
    omega

/-- The rows start where the columns of the transposed pattern do. -/
theorem rowStarts_eq (p : Pattern) : p.rowStarts = p.transpose.colPtrs.toArray := by
  rw [rowStarts, ← ncols_transpose]
  refine foldl_addSum ?_ ?_ fun i inside => ?_
  · rw [rowCounts, size_foldl fun _ _ => by simp, Array.size_replicate, ncols_transpose]
  · simp [getElem?_rowCounts]
  · have row : i < p.nrows := p.ncols_transpose ▸ inside
    rw [getElem?_rowCounts row, ← count_rowIndices row, List.count]
    exact congrArg some (List.countP_congr fun _ _ => by simp)

/-! ### Where the positions go -/

/-- The positions of the columns before `j` and of the rows `done` of column `j` are where their numbers
in the transposed pattern say, and every row has come to the cursor behind its own. -/
structure Distributed (p : Pattern) (j : Nat) (done : List Nat) (s : Distribution) : Prop where
  size_columns : s.columns.size = p.nnz
  size_numbers : s.numbers.size = p.nnz
  passed : ∀ i < p.nrows, i ∈ done → s.next[i]? = some (p.transpose.cursor i (j + 1))
  ahead : ∀ i < p.nrows, i ∉ done → s.next[i]? = some (p.transpose.cursor i j)
  placed : ∀ {i m k}, p.position? i m = some k → m < j ∨ m = j ∧ i ∈ done →
    s.columns[p.transpose.cursor i m]? = some m ∧ s.numbers[p.transpose.cursor i m]? = some k

/-- The number of a position in the transposed pattern. -/
theorem position?_transpose (member : i ∈ p.col j) :
    p.transpose.position? j i = some (p.transpose.cursor i j) :=
  position?_of_mem (mem_col_transpose.mpr member)

theorem cursor_transpose_lt (member : i ∈ p.col j) : p.transpose.cursor i j < p.nnz :=
  p.nnz_transpose ▸ position?_lt (position?_transpose member)

namespace Distributed

variable {done : List Nat} {s : Distribution}

/-- The next position of a column goes to its number, which is nobody else's. -/
theorem put (d : Distributed p j done s) (position : p.position? i j = some k) (new : i ∉ done) :
    Distributed p j (done ++ [i]) (s.put j k i) := by
  have member := mem_of_position? position
  have row := lt_nrows_of_mem_col member
  have place : s.next.getD i 0 = p.transpose.cursor i j := by
    rw [Array.getD_eq_getD_getElem?, d.ahead i row new, Option.getD_some]
  have next := p.transpose.cursor_succ i j
  rw [if_pos (mem_col_transpose.mpr member)] at next
  refine ⟨?_, ?_, fun i' row' old => ?_, fun i' row' old => ?_, fun {i' m k'} position' old => ?_⟩
  · simp [Distribution.put, d.size_columns]
  · simp [Distribution.put, d.size_numbers]
  · simp only [Distribution.put, Array.getElem?_modify]
    by_cases same : i = i'
    · subst same
      rw [if_pos rfl, d.ahead i row new, Option.map_some, next]
    · rw [if_neg same]
      refine d.passed i' row' ?_
      simpa [Ne.symm same] using old
  · simp only [List.mem_append, List.mem_singleton, not_or] at old
    simp only [Distribution.put, Array.getElem?_modify, if_neg (Ne.symm old.2)]
    exact d.ahead i' row' old.1
  · simp only [Distribution.put, place, Array.getElem?_setIfInBounds]
    have member' := mem_of_position? position'
    by_cases same : p.transpose.cursor i j = p.transpose.cursor i' m
    · obtain ⟨rfl, rfl⟩ := position?_inj (position?_transpose member)
        (same ▸ position?_transpose member')
      cases position.symm.trans position'
      have free := cursor_transpose_lt member
      simp [d.size_columns, d.size_numbers, free]
    · rw [if_neg same, if_neg same]
      refine d.placed position' (old.imp_right fun ⟨here, handled⟩ => ⟨here, ?_⟩)
      refine (List.mem_append.mp handled).resolve_right fun own => same ?_
      rw [List.mem_singleton.mp own, here]

/-- After the last row of a column comes the next column. -/
theorem turn (d : Distributed p j (p.col j) s) : Distributed p (j + 1) [] s where
  size_columns := d.size_columns
  size_numbers := d.size_numbers
  passed _ _ none := nomatch none
  ahead i row _ := by
    by_cases member : i ∈ p.col j
    · exact d.passed i row member
    · rw [d.ahead i row member, cursor_succ, if_neg (mt mem_col_transpose.mp member), Nat.add_zero]
  placed position old := by
    refine d.placed position ?_
    rcases old with less | ⟨-, none⟩
    · rcases Nat.lt_succ_iff_lt_or_eq.mp less with less | rfl
      · exact .inl less
      · exact .inr ⟨rfl, mem_of_position? position⟩
    · exact nomatch none

end Distributed

/-- The numbers of a column with its rows. -/
theorem map_range'_rowIndices (p : Pattern) (j : Nat) :
    (List.range' (p.offset j) (p.col j).length).map (fun k => (p.rowIndices.toArray.getD k 0, k)) =
      (p.col j).zipIdx (p.offset j) := by
  refine List.ext_getElem (by simp) fun t _ inside => ?_
  have inside : t < (p.col j).length := by simpa using inside
  have row := getElem?_rowIndices
    (position?_eq_some_iff.mpr ⟨t, List.getElem?_eq_getElem inside, rfl⟩)
  simp [Array.getD_eq_getD_getElem?, row]

/-- A column is distributed row by row. -/
theorem distributed_column {s : Distribution} (inside : j < p.ncols) (d : Distributed p j [] s) :
    Distributed p (j + 1) [] ((List.range' (p.offset j) (p.offset (j + 1) - p.offset j)).foldl
      (fun s k => s.put j k (p.rowIndices.toArray.getD k 0)) s) := by
  obtain ⟨cells, all⟩ : ∃ cells, (p.col j).zipIdx (p.offset j) = cells := ⟨_, rfl⟩
  have rows : cells.map (·.1) = p.col j := by rw [← all, List.zipIdx_map_fst]
  have loop : (List.range' (p.offset j) (p.offset (j + 1) - p.offset j)).foldl
        (fun s k => s.put j k (p.rowIndices.toArray.getD k 0)) s =
      cells.foldl (fun s c => s.put j c.2 c.1) s := by
    rw [offset_succ inside, Nat.add_sub_cancel_left, ← all, ← p.map_range'_rowIndices,
      List.foldl_map]
  have kept : Distributed p j (cells.map (·.1)) (cells.foldl (fun s c => s.put j c.2 c.1) s) := by
    refine foldl_keeps (P := fun done : List (Nat × Nat) => Distributed p j (done.map (·.1))) d ?_
    intro done ⟨i, k⟩ rest s split d
    have listed : (i, k) ∈ cells := split ▸ List.mem_append_right done List.mem_cons_self
    obtain ⟨start, at_k⟩ := List.mk_mem_zipIdx_iff_le_and_getElem?_sub.mp (all ▸ listed)
    have position : p.position? i j = some k :=
      position?_eq_some_iff.mpr ⟨_, at_k, Nat.add_sub_cancel' start⟩
    have split' : p.col j = done.map (·.1) ++ i :: rest.map (·.1) := by rw [← rows, split]; simp
    have new : i ∉ done.map (·.1) := notMem_of_split (p.nodup_col j) split'
    simpa using d.put position new
  rw [loop]
  exact (rows ▸ kept).turn

/-- At the end every position is where it belongs. -/
theorem distributed (p : Pattern) : Distributed p p.ncols [] p.distribution := by
  suffices ∀ n ≤ p.ncols, Distributed p n [] ((List.range n).foldl
      (fun s j => (List.range' (p.colPtrs.toArray.getD j 0)
          (p.colPtrs.toArray.getD (j + 1) 0 - p.colPtrs.toArray.getD j 0)).foldl
        (fun s k => s.put j k (p.rowIndices.toArray.getD k 0)) s)
      ⟨p.rowStarts, Array.replicate p.nnz 0, Array.replicate p.nnz 0⟩) from this p.ncols le_rfl
  intro n within
  induction n with
  | zero =>
    refine ⟨Array.size_replicate, Array.size_replicate, fun _ _ none => (nomatch none),
      fun i row _ => ?_, fun _ old => ?_⟩
    · have inside : i < p.transpose.ncols + 1 := by rw [ncols_transpose]; omega
      simp [rowStarts_eq, cursor_zero, colPtrs, inside]
    · simp at old
  | succ n ih =>
    have inside : n < p.ncols := within
    rw [List.range_succ, List.foldl_append, List.foldl_cons, List.foldl_nil,
      p.getD_colPtrs inside.le, p.getD_colPtrs within]
    exact distributed_column inside (ih inside.le)

/-- The distributed columns are the rows of the transposed pattern. -/
theorem columns_distribution (p : Pattern) :
    p.distribution.columns = p.transpose.rowIndices.toArray := by
  have size : p.distribution.columns.size = p.transpose.nnz :=
    p.distributed.size_columns.trans p.nnz_transpose.symm
  refine Array.ext_getElem? fun q => ?_
  by_cases inside : q < p.transpose.nnz
  · obtain ⟨j, i, position⟩ := exists_position?_eq inside
    have member := mem_col_transpose.mp (mem_of_position? position)
    obtain ⟨k, position'⟩ := exists_position? member
    have here := Option.some.inj ((position?_transpose member).symm.trans position)
    have placed := p.distributed.placed position' (.inl (lt_ncols_of_mem_col member))
    have row : p.transpose.rowIndices.toArray[q]? = some j := by
      rw [List.getElem?_toArray, getElem?_rowIndices position]
    rw [row, ← here, placed.1]
  · have last : p.transpose.rowIndices.toArray[q]? = none :=
      Array.getElem?_eq_none (Nat.not_lt.mp inside)
    rw [last, Array.getElem?_eq_none (by omega)]

/-- The map tells the number of every position of the transposed pattern. -/
theorem getElem?_transposeMap {n : Nat} : p.transposeMap[n]? = some k ↔
    ∃ i j, p.transpose.position? j i = some n ∧ p.position? i j = some k := by
  have placed {i j m : Nat} (position : p.position? i j = some m) :
      p.transposeMap[p.transpose.cursor i j]? = some m := by
    have member := mem_of_position? position
    rw [transposeMap, Array.getElem?_toList]
    exact (p.distributed.placed position (.inl (lt_ncols_of_mem_col member))).2
  constructor
  · intro found
    have inside : n < p.transpose.nnz := by
      rw [nnz_transpose, ← p.distributed.size_numbers, ← Array.length_toList]
      exact (List.getElem?_eq_some_iff.mp found).1
    obtain ⟨j, i, position⟩ := exists_position?_eq inside
    have member := mem_col_transpose.mp (mem_of_position? position)
    obtain ⟨m, position'⟩ := exists_position? member
    have here := Option.some.inj ((position?_transpose member).symm.trans position)
    cases (here ▸ placed position').symm.trans found
    exact ⟨i, j, position, position'⟩
  · rintro ⟨i, j, position, position'⟩
    have here := position.symm.trans (position?_transpose (mem_of_position? position'))
    rw [Option.some.inj here]
    exact placed position'

/-! ### Transposition -/

/-- The transposed pattern is read off the distributed positions. -/
theorem transpose?_eq (p : Pattern) :
    p.transpose? = (checkRoom (p.nrows + 1)).map fun _ => p.transpose := by
  have read := p.transpose.ofArrays_colPtrs
  rw [nrows_transpose, ncols_transpose] at read
  rw [transpose?, rowStarts_eq, columns_distribution, read]
  cases checkRoom (p.nrows + 1) <;> rfl

/-- Maps of a pattern and of the transposed pattern undo each other. -/
theorem getElem?_transposeMap_transpose {n : Nat} :
    p.transpose.transposeMap[k]? = some n ↔ p.transposeMap[n]? = some k := by
  rw [getElem?_transposeMap, getElem?_transposeMap, transpose_transpose, exists_comm]
  exact exists₂_congr fun _ _ => and_comm

theorem transposeMap_perm (p : Pattern) : p.transposeMap.Perm (List.range p.nnz) := by
  refine (List.perm_ext_iff_of_nodup ?_ List.nodup_range).mpr fun k => ?_
  · rw [List.nodup_iff_getElem?_ne_getElem?]
    intro n m less inside same
    have first := List.getElem?_eq_getElem (less.trans inside)
    have found := getElem?_transposeMap_transpose.mpr first
    rw [getElem?_transposeMap_transpose.mpr (same.symm.trans first)] at found
    exact less.ne' (Option.some.inj found)
  · rw [List.mem_range, List.mem_iff_getElem?]
    constructor
    · rintro ⟨n, found⟩
      obtain ⟨i, j, -, position⟩ := getElem?_transposeMap.mp found
      exact position?_lt position
    · intro inside
      obtain ⟨i, j, position⟩ := exists_position?_eq inside
      exact ⟨_, getElem?_transposeMap.mpr
        ⟨i, j, position?_transpose (mem_of_position? position), position⟩⟩

end Cotangent.Pattern

namespace Cotangent.SparseMatrix

variable {α : Type} [Scalar α] (a : SparseMatrix α)

open Pattern

theorem entry_of_position? {i j k : Nat} (position : a.pattern.position? i j = some k) :
    a.entry i j = a.values.getD k 0 := by
  rw [entry, position]

/-- The values of the transposed matrix are taken through the map. -/
theorem values_transpose :
    a.transpose.values = (a.pattern.transposeMap.map fun k => a.values.getD k 0).toArray := by
  refine congrArg List.toArray (List.ext_getElem? fun n => ?_)
  rw [List.getElem?_map, List.getElem?_map]
  cases mapped : a.pattern.transposeMap[n]? with
  | some k =>
    obtain ⟨i, j, position, position'⟩ := getElem?_transposeMap.mp mapped
    rw [getElem?_cells_of_position? position]
    exact congrArg some (a.entry_of_position? position')
  | none =>
    have outside : a.pattern.transpose.cells.length ≤ n := by
      have length := a.pattern.transposeMap_perm.length_eq
      rw [List.length_range] at length
      rw [length_cells, nnz_transpose, ← length]
      exact List.getElem?_eq_none_iff.mp mapped
    rw [List.getElem?_eq_none outside]
    rfl

/-- The matrix that is read off the distributed positions is the transposed one. -/
theorem transpose?_eq : a.transpose? = (checkRoom (a.nrows + 1)).map fun _ => a.transpose := by
  have sized : a.transpose.values.size = a.pattern.transpose.nnz := a.transpose.size_values
  rw [transpose?, Pattern.transpose?_eq, ← values_transpose, nrows]
  cases checkRoom (a.pattern.nrows + 1) with
  | error e => rfl
  | ok _ => exact dif_pos sized

/-- A matrix transposed twice has its values at their places again. -/
theorem transpose_transpose : a.transpose.transpose = a := by
  refine eq_of_values a.pattern.transpose_transpose ?_
  rw [values_transpose]
  refine Array.ext_getElem? fun k => ?_
  rw [List.getElem?_toArray, List.getElem?_map]
  cases mapped : a.transpose.pattern.transposeMap[k]? with
  | some n =>
    have mapped' : a.pattern.transposeMap[n]? = some k := getElem?_transposeMap_transpose.mp mapped
    have inside : k < a.values.size := by
      rw [a.size_values]
      exact List.mem_range.mp (a.pattern.transposeMap_perm.mem_iff.mp (List.mem_of_getElem? mapped'))
    simp [values_transpose, Array.getD_eq_getD_getElem?, mapped', inside]
  | none =>
    have outside : a.values.size ≤ k := by
      have length := a.pattern.transpose.transposeMap_perm.length_eq
      rw [List.length_range, nnz_transpose] at length
      rw [a.size_values, ← length]
      exact List.getElem?_eq_none_iff.mp mapped
    rw [Array.getElem?_eq_none outside]
    rfl

end Cotangent.SparseMatrix

namespace Cotangent.Pattern

/-- Transposition is an involution with a faithful map. For every pattern the positions are distributed to
the flat form of a pattern with rows and columns exchanged, which is refused only if there is no room for its
pointers, one more than there are rows. The map is a permutation of the numbers of positions, it takes the
number of a position there to the number that the position has here, and a position is there exactly if it
is here. What is transposed once more is the pattern again, by the map that undoes the first one, and a
matrix with any values at these positions is the same matrix again. -/
theorem transposition_reverts {α : Type} [Scalar α] (p : Pattern) :
    IsFlat p.ncols p.nrows p.rowStarts p.distribution.columns ∧
    ∃ t : Pattern, t.nrows = p.ncols ∧ t.ncols = p.nrows ∧
      t.colPtrs = p.rowStarts.toList ∧ t.rowIndices = p.distribution.columns.toList ∧
      p.transpose? = (checkRoom (p.nrows + 1)).map (fun _ => t) ∧
      p.transposeMap.Perm (List.range p.nnz) ∧
      (∀ k i j : Nat, t.cells[k]? = some (j, i) ↔
        ∃ m, p.transposeMap[k]? = some m ∧ p.cells[m]? = some (i, j)) ∧
      (∀ i j : Nat, j ∈ t.col i ↔ i ∈ p.col j) ∧
      t.transpose? = (checkRoom (p.ncols + 1)).map (fun _ => p) ∧
      (∀ k m : Nat, t.transposeMap[m]? = some k ↔ p.transposeMap[k]? = some m) ∧
      ∀ a : SparseMatrix α, a.pattern = p → ∃ b : SparseMatrix α, b.pattern = t ∧
        a.transpose? = (checkRoom (p.nrows + 1)).map (fun _ => b) ∧
        b.transpose? = (checkRoom (p.ncols + 1)).map (fun _ => a) := by
  have flat := p.transpose.isFlat
  rw [← rowStarts_eq, ← columns_distribution, nrows_transpose, ncols_transpose] at flat
  have reverted := p.transpose.transpose?_eq
  rw [transpose_transpose, nrows_transpose] at reverted
  refine ⟨flat, p.transpose, p.nrows_transpose, p.ncols_transpose, ?_, ?_, p.transpose?_eq,
    p.transposeMap_perm, fun k i j => ?_, fun i j => mem_col_transpose, reverted,
    fun k m => getElem?_transposeMap_transpose, fun a here => ⟨a.transpose, ?_, ?_, ?_⟩⟩
  · rw [rowStarts_eq]
  · rw [columns_distribution]
  · rw [getElem?_cells_iff]
    constructor
    · intro position
      obtain ⟨m, position'⟩ := exists_position? (mem_col_transpose.mp (mem_of_position? position))
      exact ⟨m, getElem?_transposeMap.mpr ⟨i, j, position, position'⟩,
        getElem?_cells_of_position? position'⟩
    · rintro ⟨m, mapped, cell⟩
      obtain ⟨i', j', position, position'⟩ := getElem?_transposeMap.mp mapped
      cases cell.symm.trans (getElem?_cells_of_position? position')
      exact position
  · subst here
    rfl
  · subst here
    exact a.transpose?_eq
  · subst here
    have again := a.transpose.transpose?_eq
    rwa [SparseMatrix.transpose_transpose] at again

/-- Without columns a pattern of `2 ^ 60` rows has one pointer, but its transposed pattern has no room. -/
theorem transposition_without_room :
    ∃ p, ofArrays 1152921504606846976 0 #[0] #[] = .ok p ∧ p.transpose? = .error .sizeOverflow :=
  ⟨_, rfl, rfl⟩

end Cotangent.Pattern
