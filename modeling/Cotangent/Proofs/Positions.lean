import Mathlib.Data.List.Nodup
import Cotangent.Proofs.Backends

/-! Positions of a pattern. They are numbered column by column, so a number belongs to one position
only, and within a column it counts the rows before. -/
namespace Cotangent.Pattern

/-- Cells are numbered column by column. -/
theorem getElem?_zipIdx_flatMap {L : List (List Nat)} {start j k : Nat}
    (inside : k < (L.getD j []).length) :
    ((L.zipIdx start).flatMap fun column => column.1.map fun i => (i, column.2))[
      (L.take j).flatten.length + k]? = some ((L.getD j [])[k], start + j) := by
  induction L generalizing start j with
  | nil => simp at inside
  | cons rows L ih =>
    rw [List.zipIdx_cons, List.flatMap_cons]
    cases j with
    | zero =>
      have first : k < rows.length := inside
      simp [List.getElem?_append_left, first]
    | succ j =>
      have later : k < (L.getD j []).length := inside
      have past : (rows.map fun i => (i, start)).length ≤
          ((rows :: L).take (j + 1)).flatten.length + k := by
        simp only [List.length_map, List.take_succ_cons, List.flatten_cons, List.length_append]
        omega
      have rest : ((rows :: L).take (j + 1)).flatten.length + k -
          (rows.map fun i => (i, start)).length = (L.take j).flatten.length + k := by
        simp only [List.length_map, List.take_succ_cons, List.flatten_cons, List.length_append]
        omega
      rw [List.getElem?_append_right past, rest, ih later]
      simp [Nat.add_assoc, Nat.add_comm 1 j]

variable {p : Pattern} {i i' j j' k q : Nat}

theorem getElem?_cells (inside : k < (p.col j).length) :
    p.cells[p.offset j + k]? = some ((p.col j)[k], j) := by
  have listed : p.columns.toList.getD j [] = p.col j := by
    simp [col, Array.getD_eq_getD_getElem?, List.getD_eq_getElem?_getD]
  have found := @getElem?_zipIdx_flatMap p.columns.toList 0 j k (listed.symm ▸ inside)
  simp only [listed, Nat.zero_add] at found
  exact found

theorem mem_col_of_mem_cells (member : (i, j) ∈ p.cells) : i ∈ p.col j := by
  obtain ⟨⟨rows, j'⟩, listed, here⟩ := List.mem_flatMap.mp member
  obtain ⟨i', held, same⟩ := List.mem_map.mp here
  cases same
  rw [List.mem_zipIdx_iff_getElem?] at listed
  have column : p.columns[j]? = some rows := by simpa using listed
  rwa [col, Array.getD_eq_getD_getElem?, column]

theorem nodup_col (p : Pattern) (j : Nat) : (p.col j).Nodup :=
  (p.isColumn_col j).1.imp Nat.ne_of_lt

/-- The number of a position is the start of its column and the place of its row there. -/
theorem position?_eq_some_iff :
    p.position? i j = some q ↔ ∃ t, (p.col j)[t]? = some i ∧ p.offset j + t = q := by
  unfold position?
  rw [Option.map_eq_some_iff]
  refine exists_congr fun t => and_congr_left fun _ => ?_
  rw [List.idxOf?_eq_some_iff, List.getElem?_eq_some_iff]
  constructor
  · rintro ⟨inside, found, -⟩
    exact ⟨inside, found⟩
  · rintro ⟨inside, found⟩
    refine ⟨inside, found, fun t' less same => ?_⟩
    exact Nat.ne_of_lt less ((List.Nodup.getElem_inj_iff (p.nodup_col j)).mp (same.trans found.symm))

theorem exists_position? (member : i ∈ p.col j) : ∃ q, p.position? i j = some q := by
  obtain ⟨t, found⟩ := List.mem_iff_getElem?.mp member
  exact ⟨_, position?_eq_some_iff.mpr ⟨t, found, rfl⟩⟩

theorem mem_of_position? (found : p.position? i j = some q) : i ∈ p.col j := by
  obtain ⟨t, found, -⟩ := position?_eq_some_iff.mp found
  exact List.mem_of_getElem? found

theorem position?_eq_none (outside : i ∉ p.col j) : p.position? i j = none := by
  cases found : p.position? i j with
  | none => rfl
  | some q => exact absurd (mem_of_position? found) outside

theorem getElem?_cells_of_position? (found : p.position? i j = some q) :
    p.cells[q]? = some (i, j) := by
  obtain ⟨t, at_t, rfl⟩ := position?_eq_some_iff.mp found
  obtain ⟨inside, rfl⟩ := List.getElem?_eq_some_iff.mp at_t
  exact getElem?_cells inside

/-- Two positions have two numbers. -/
theorem position?_inj (found : p.position? i j = some q) (found' : p.position? i' j' = some q) :
    i = i' ∧ j = j' := by
  have same := (getElem?_cells_of_position? found).symm.trans (getElem?_cells_of_position? found')
  exact Prod.mk.inj (Option.some.inj same)

theorem map_fst_cells (p : Pattern) : p.cells.map (·.1) = p.rowIndices := by
  have rows (L : List (List Nat)) (start : Nat) : ((L.zipIdx start).flatMap fun column =>
      column.1.map fun i => (i, column.2)).map (·.1) = L.flatten := by
    induction L generalizing start with
    | nil => rfl
    | cons rows L ih =>
      rw [List.zipIdx_cons, List.flatMap_cons, List.map_append, ih, List.flatten_cons]
      simp [List.map_map, Function.comp_def]
  exact rows p.columns.toList 0

theorem getElem?_rowIndices (found : p.position? i j = some q) : p.rowIndices[q]? = some i := by
  rw [← map_fst_cells, List.getElem?_map, getElem?_cells_of_position? found]
  rfl

/-! ### Places within a column -/

/-- In a list of increasing numbers, a member stands behind as many as are less. -/
theorem getElem?_countP_lt {rows : List Nat} (increasing : rows.Pairwise (· < ·))
    (member : i ∈ rows) : rows[rows.countP (· < i)]? = some i := by
  induction rows with
  | nil => simp at member
  | cons r rows ih =>
    obtain ⟨first, increasing⟩ := List.pairwise_cons.mp increasing
    rcases List.mem_cons.mp member with rfl | member
    · have none : rows.countP (· < i) = 0 :=
        List.countP_eq_zero.mpr fun r later => by simp [Nat.le_of_lt (first r later)]
      simp [none]
    · simp [first i member, ih increasing member]

theorem countP_lt_succ {rows : List Nat} (nodup : rows.Nodup) (k : Nat) :
    rows.countP (· < k + 1) = rows.countP (· < k) + if k ∈ rows then 1 else 0 := by
  induction rows with
  | nil => simp
  | cons r rows ih =>
    obtain ⟨other, nodup⟩ := List.nodup_cons.mp nodup
    rw [List.countP_cons, List.countP_cons, ih nodup]
    by_cases same : k = r
    · subst same
      simp [other]
    · have less : r < k + 1 ↔ r < k := by omega
      simp only [List.mem_cons, same, false_or, less]
      omega

/-- The number of the first position of column `j` that is not before row `k`. -/
def cursor (p : Pattern) (j k : Nat) : Nat := p.offset j + (p.col j).countP (· < k)

theorem position?_of_mem (member : i ∈ p.col j) : p.position? i j = some (p.cursor j i) :=
  position?_eq_some_iff.mpr ⟨_, getElem?_countP_lt (p.isColumn_col j).1 member, rfl⟩

theorem cursor_zero (p : Pattern) (j : Nat) : p.cursor j 0 = p.offset j := by
  simp [cursor]

theorem cursor_succ (p : Pattern) (j k : Nat) :
    p.cursor j (k + 1) = p.cursor j k + if k ∈ p.col j then 1 else 0 := by
  rw [cursor, countP_lt_succ (p.nodup_col j), ← Nat.add_assoc, cursor]

theorem cursor_mono (p : Pattern) (j : Nat) (before : i ≤ k) : p.cursor j i ≤ p.cursor j k := by
  refine Nat.add_le_add_left (List.countP_mono_left fun r _ less => ?_) _
  simp only [decide_eq_true_eq] at less ⊢
  exact Nat.lt_of_lt_of_le less before

theorem cursor_lt_iff (member : i ∈ p.col j) : p.cursor j i < p.cursor j k ↔ i < k := by
  constructor
  · intro less
    by_contra late
    exact absurd less (Nat.not_lt.mpr (p.cursor_mono j (Nat.not_lt.mp late)))
  · intro less
    have next := p.cursor_succ j i
    rw [if_pos member] at next
    have later : p.cursor j (i + 1) ≤ p.cursor j k := p.cursor_mono j less
    omega

/-- The positions of a column before a cursor are those of its earlier rows. -/
theorem exists_row_of_lt_cursor (start : p.offset j ≤ q) (before : q < p.cursor j k) :
    ∃ i ∈ p.col j, i < k ∧ q = p.cursor j i := by
  obtain ⟨t, rfl⟩ := Nat.exists_eq_add_of_le start
  have inside : t < (p.col j).length := by
    have := List.countP_le_length (p := fun i => decide (i < k)) (l := p.col j)
    unfold cursor at before
    omega
  have found : p.position? (p.col j)[t] j = some (p.offset j + t) :=
    position?_eq_some_iff.mpr ⟨t, List.getElem?_eq_getElem inside, rfl⟩
  have member := List.getElem_mem inside
  have same : p.offset j + t = p.cursor j (p.col j)[t] :=
    Option.some.inj (found.symm.trans (position?_of_mem member))
  exact ⟨_, member, (cursor_lt_iff member).mp (same ▸ before), same⟩

end Cotangent.Pattern
