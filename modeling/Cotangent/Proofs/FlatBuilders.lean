import Cotangent.Proofs.FlatSearch

/-! Builders of flat forms. Each of them is compared with the pattern that it should give: the pointers are
sums of the lengths of its columns, and the row indices are its columns one behind the other. A sorted list
of positions without repetition is the list of cells of a pattern, since only one list in that order has
these members. -/
namespace Cotangent

namespace Pattern

variable {p : Pattern} {i j : Nat}

/-! ### Regular patterns -/

@[simp] theorem ncols_dense (r c : Nat) : (dense r c).ncols = c := by simp [dense, ncols]

@[simp] theorem ncols_diagonal (n : Nat) : (diagonal n).ncols = n := by simp [diagonal, ncols]

theorem col_dense {r c : Nat} (inside : j < c) : (dense r c).col j = List.range r := by
  simp [dense, col, Array.getD, inside]

theorem col_diagonal {n : Nat} (inside : j < n) : (diagonal n).col j = [j] := by
  simp [diagonal, col, Array.getD, inside]

/-- Columns of one length start at multiples of it. -/
theorem offset_of_length {m : Nat} (length : ∀ j < p.ncols, (p.col j).length = m) :
    ∀ j ≤ p.ncols, p.offset j = j * m := by
  intro j
  induction j with
  | zero => simp [offset_zero]
  | succ j ih =>
    intro within
    rw [offset_succ within, ih (Nat.le_of_succ_le within), length j within, Nat.succ_mul]

theorem offset_dense {r c : Nat} (within : j ≤ c) : (dense r c).offset j = j * r := by
  refine offset_of_length (fun j inside => ?_) j (by simpa using within)
  rw [col_dense (by simpa using inside), List.length_range]

theorem offset_diagonal {n : Nat} (within : j ≤ n) : (diagonal n).offset j = j := by
  refine (offset_of_length (fun j inside => ?_) j (by simpa using within)).trans (Nat.mul_one j)
  rw [col_diagonal (by simpa using inside), List.length_singleton]

theorem nnz_dense (r c : Nat) : (dense r c).nnz = r * c := by
  rw [← offset_ncols, ncols_dense, offset_dense le_rfl, Nat.mul_comm]

theorem position?_dense {r c : Nat} (hi : i < r) (hj : j < c) :
    (dense r c).position? i j = some (j * r + i) := by
  refine position?_eq_some_iff.mpr ⟨i, ?_, by rw [offset_dense hj.le]⟩
  rw [col_dense hj, List.getElem?_range hi]

/-! ### Cells in order -/

/-- Earlier by columns, and by rows within a column. -/
def Before (a b : Nat × Nat) : Prop := a.2 < b.2 ∨ a.2 = b.2 ∧ a.1 < b.1

theorem Before.trans {a b c : Nat × Nat} (first : Before a b) (second : Before b c) : Before a c := by
  unfold Before at *
  omega

theorem Before.asymm {a b : Nat × Nat} (first : Before a b) : ¬ Before b a := by
  unfold Before at *
  omega

/-- Lists in order with the same members are equal. -/
theorem eq_of_before {a b : List (Nat × Nat)} (ha : a.Pairwise Before) (hb : b.Pairwise Before)
    (members : ∀ x, x ∈ a ↔ x ∈ b) : a = b := by
  have nodup {xs : List (Nat × Nat)} (ordered : xs.Pairwise Before) : xs.Nodup :=
    ordered.imp fun {x y} first same => by
      subst same
      exact first.asymm first
  exact List.Perm.eq_of_pairwise (fun _ _ _ _ first second => absurd second first.asymm) ha hb
    ((List.perm_ext_iff_of_nodup (nodup ha) (nodup hb)).mpr members)

/-- The cells of a pattern are column behind column. -/
theorem cells_eq (p : Pattern) :
    p.cells = (List.range p.ncols).flatMap fun j => (p.col j).map (·, j) := by
  have columns : p.columns.toList.zipIdx = (List.range p.ncols).map fun j => (p.col j, j) := by
    rw [toList_columns]
    refine List.ext_getElem (by simp) fun j _ _ => ?_
    simp
  rw [cells, columns, List.flatMap_map]

theorem pairwise_cells (p : Pattern) : p.cells.Pairwise Before := by
  rw [cells_eq, List.pairwise_flatMap]
  refine ⟨fun j _ => ?_, List.pairwise_lt_range.imp fun {j j'} less x here y there => ?_⟩
  · rw [List.pairwise_map]
    exact (p.isColumn_col j).1.imp fun less => .inr ⟨rfl, less⟩
  · obtain ⟨i, -, rfl⟩ := List.mem_map.mp here
    obtain ⟨i', -, rfl⟩ := List.mem_map.mp there
    exact .inl less

/-- A column has as many cells as rows. -/
theorem count_cells (inside : j < p.ncols) : (p.cells.map (·.2)).count j = (p.col j).length := by
  have exchanged : (p.cells.map (·.2)).Perm p.transpose.rowIndices := by
    have cells := p.cells_transpose_perm.map (·.2)
    rw [List.map_map] at cells
    rw [← map_fst_cells]
    exact cells.symm
  have inside' : j < p.transpose.nrows := p.nrows_transpose ▸ inside
  rw [exchanged.count_eq, count_rowIndices inside', transpose_transpose]

/-- Positions inside the matrix make a pattern if there is room for its pointers. -/
theorem exists_ofPositions {r c : Nat} {rows cols : List Nat} (lengths : rows.length = cols.length)
    (inside : ∀ x ∈ rows.zip cols, x.1 < r ∧ x.2 < c) (room : c + 1 < wordLimit) :
    ∃ p, ofPositions r c rows cols = .ok p ∧ p.nrows = r ∧ p.ncols = c := by
  rw [ofPositions, if_neg (not_not_intro lengths)]
  dsimp only
  rw [dif_pos inside, checkRoom, if_pos room]
  exact ⟨_, rfl, rfl, by simp [ncols]⟩

theorem fits_of_ofPositions {r c : Nat} {rows cols : List Nat}
    (built : ofPositions r c rows cols = .ok p) : rows.length = cols.length ∧
      (∀ x ∈ rows.zip cols, x.1 < r ∧ x.2 < c) ∧ c + 1 < wordLimit := by
  by_cases lengths : rows.length = cols.length
  case neg =>
    rw [ofPositions, if_pos lengths] at built
    cases built
  rw [ofPositions, if_neg (not_not_intro lengths)] at built
  by_cases inside : ∀ x ∈ rows.zip cols, x.1 < r ∧ x.2 < c
  · dsimp only at built
    rw [dif_pos inside] at built
    obtain ⟨_, room, -⟩ := Outcome.map_eq_ok.mp built
    exact ⟨lengths, inside, checkRoom_eq_ok_iff.mp room⟩
  · dsimp only at built
    rw [dif_neg inside] at built
    cases built

end Pattern

namespace Flat

open Pattern (Before)

variable {f : Flat} {p : Pattern} {j : Nat}

/-- Pointers that add up and columns one behind the other are the form of a pattern. -/
theorem eq_flat (rows : f.nrows = p.nrows) (columns : f.ncols = p.ncols)
    (size : f.colPtrs.size = p.ncols + 1)
    (offset : ∀ j ≤ p.ncols, f.colPtrs.getD j 0 = p.offset j)
    (indices : f.rowIndices.toList = (List.range p.ncols).flatMap p.col) : f = p.flat := by
  have pointers : f.colPtrs = p.colPtrs.toArray := by
    refine Array.toList_inj.mp (List.ext_getElem (by simp [Pattern.colPtrs, size]) fun j inside _ => ?_)
    have inside : j < f.colPtrs.size := inside
    have here := offset j (by omega)
    simpa [Pattern.colPtrs, Array.getD, inside] using here
  have listed : f.rowIndices = p.rowIndices.toArray := by
    refine Array.toList_inj.mp ?_
    rw [indices, List.toList_toArray, Pattern.rowIndices, Pattern.toList_columns, List.flatMap_def]
  cases f
  simp only [Pattern.flat, Flat.mk.injEq]
  exact ⟨rows, columns, pointers, listed⟩

/-! ### Regular forms -/

theorem dense_eq (r c : Nat) : dense r c = (Pattern.dense r c).flat := by
  refine eq_flat rfl (Pattern.ncols_dense r c).symm (by simp [dense]) (fun j within => ?_) ?_
  · rw [Pattern.ncols_dense] at within
    have inside : j < c + 1 := Nat.lt_succ_of_le within
    rw [Pattern.offset_dense within]
    simp [dense, Array.getD, inside]
  · rw [Pattern.ncols_dense]
    exact List.flatMap_congr fun j member => (Pattern.col_dense (List.mem_range.mp member)).symm

theorem diagonal_eq (n : Nat) : diagonal n = (Pattern.diagonal n).flat := by
  refine eq_flat rfl (Pattern.ncols_diagonal n).symm (by simp [diagonal]) (fun j within => ?_) ?_
  · rw [Pattern.ncols_diagonal] at within
    have inside : j < n + 1 := Nat.lt_succ_of_le within
    rw [Pattern.offset_diagonal within]
    simp [diagonal, Array.getD, inside]
  · have single : (List.range n).flatMap (Pattern.diagonal n).col = (List.range n).flatMap ([·]) :=
      List.flatMap_congr fun j member => Pattern.col_diagonal (List.mem_range.mp member)
    rw [Pattern.ncols_diagonal, single, List.flatMap_singleton']
    simp [diagonal]

theorem transpose_eq (p : Pattern) : transpose p = p.transpose.flat := by
  rw [transpose, Pattern.rowStarts_eq, Pattern.columns_distribution, Pattern.flat,
    Pattern.nrows_transpose, Pattern.ncols_transpose]

/-! ### Columns one behind the other -/

/-- Columns are gathered in order, and the ends are the numbers of entries so far. -/
theorem gather_eq {β : Type} (ncols : Nat) (column : Nat → List β) :
    gather ncols column =
      (((List.range (ncols + 1)).map fun j => ((List.range j).flatMap column).length).toArray,
        ((List.range ncols).flatMap column).toArray) := by
  suffices ∀ m ≤ ncols, (List.range m).foldl
      (fun (s : Array Nat × Array β) j =>
        (s.1.setIfInBounds (j + 1) (s.2 ++ column j).size, s.2 ++ column j))
      (Array.replicate (ncols + 1) 0, #[]) =
        (((List.range (ncols + 1)).map fun j =>
            if j ≤ m then ((List.range j).flatMap column).length else 0).toArray,
          ((List.range m).flatMap column).toArray) by
    refine (this ncols le_rfl).trans (Prod.ext (congrArg List.toArray ?_) rfl)
    refine List.map_congr_left fun j member => if_pos ?_
    exact Nat.lt_succ_iff.mp (List.mem_range.mp member)
  intro m within
  induction m with
  | zero =>
    refine Prod.ext (Array.ext_getElem? fun j => ?_) rfl
    by_cases inside : j < ncols + 1
    · by_cases first : j = 0 <;> simp [inside, first]
    · simp [inside]
  | succ m ih =>
    rw [List.range_succ, List.foldl_append, ih (Nat.le_of_succ_le within)]
    refine Prod.ext (Array.ext_getElem? fun j => ?_) (by simp)
    simp only [List.foldl_cons, List.foldl_nil, Array.getElem?_setIfInBounds, List.getElem?_toArray,
      List.getElem?_map, List.size_toArray, List.length_map, List.length_range]
    by_cases inside : j < ncols + 1
    · rw [List.getElem?_range inside]
      by_cases here : m + 1 = j
      · subst here
        simp [List.range_succ, inside]
      · have side : j ≤ m ↔ j ≤ m + 1 := by omega
        rw [if_neg here]
        exact congrArg some (if_congr side rfl rfl)
    · have outside : m + 1 ≠ j := by omega
      simp [inside, outside]

/-- Gathered columns of a pattern give its form. -/
theorem gather_columns {β : Type} {column : Nat → List β} {row : β → Nat}
    (columns : ∀ j < p.ncols, (column j).map row = p.col j) :
    (⟨p.nrows, p.ncols, (gather p.ncols column).1, (gather p.ncols column).2.map row⟩ : Flat) =
      p.flat := by
  have flattened (m : Nat) (within : m ≤ p.ncols) :
      ((List.range m).flatMap column).map row = (List.range m).flatMap p.col := by
    rw [List.map_flatMap]
    exact List.flatMap_congr fun j member => columns j ((List.mem_range.mp member).trans_le within)
  have offset (m : Nat) (within : m ≤ p.ncols) :
      ((List.range m).flatMap column).length = p.offset m := by
    rw [← List.length_map (f := row), flattened m within, Pattern.offset, Pattern.toList_columns,
      ← List.map_take, List.take_range, Nat.min_eq_left within, List.flatMap_def]
  rw [gather_eq]
  refine eq_flat rfl rfl (by simp) (fun j within => ?_) ?_
  · have inside : j < p.ncols + 1 := Nat.lt_succ_of_le within
    rw [Array.getD_eq_getD_getElem?, List.getElem?_toArray, List.getElem?_map,
      List.getElem?_range inside]
    exact offset j within
  · simpa using flattened p.ncols le_rfl

theorem lower_eq (p : Pattern) : p.flat.lower = p.lower.flat := by
  have wide : p.lower.ncols = p.ncols := by simp [Pattern.lower, Pattern.ncols]
  have columns : ∀ j < p.lower.ncols,
      ((p.flat.column j).toList.filter (j ≤ ·)).map id = p.lower.col j := by
    intro j inside
    have inside : j < p.ncols := wide ▸ inside
    have inside' : j < p.columns.size := inside
    rw [List.map_id, column_flat inside]
    simp [Pattern.lower, Pattern.col, Array.getD, inside']
  have gathered := gather_columns columns
  rw [Array.map_id, wide] at gathered
  exact gathered

/-! ### Listed positions -/

theorem before_of_precedes {a b : Nat × Nat} (order : precedes a b) (other : a ≠ b) : Before a b := by
  simp only [precedes, Bool.or_eq_true, Bool.and_eq_true, beq_iff_eq, decide_eq_true_eq] at order
  rcases order with less | ⟨same, least⟩
  · exact .inl less
  · refine .inr ⟨same, Nat.lt_of_le_of_ne least fun rows => other (Prod.ext rows same)⟩

theorem mem_skipRepeated {last x : Nat × Nat} {cells : List (Nat × Nat)} :
    x ∈ last :: skipRepeated last cells ↔ x ∈ last :: cells := by
  induction cells generalizing last with
  | nil => exact Iff.rfl
  | cons c cells ih =>
    rw [skipRepeated]
    by_cases same : c = last
    · rw [if_pos same, ih, same]
      simp
    · rw [if_neg same, List.mem_cons, ih, ← List.mem_cons]

theorem pairwise_skipRepeated {last : Nat × Nat} {cells : List (Nat × Nat)}
    (ordered : (last :: cells).Pairwise (precedes · ·)) :
    (last :: skipRepeated last cells).Pairwise Before := by
  induction cells generalizing last with
  | nil => exact List.pairwise_singleton _ _
  | cons c cells ih =>
    obtain ⟨first, rest⟩ := List.pairwise_cons.mp ordered
    rw [skipRepeated]
    by_cases same : c = last
    · rw [if_pos same]
      exact ih (same ▸ rest)
    · rw [if_neg same]
      have later := ih rest
      have next : Before last c :=
        before_of_precedes (first c List.mem_cons_self) (Ne.symm same)
      refine List.pairwise_cons.mpr ⟨fun x member => ?_, later⟩
      rcases List.mem_cons.mp member with rfl | member
      · exact next
      · exact next.trans ((List.pairwise_cons.mp later).1 x member)

theorem mem_distinct {x : Nat × Nat} {cells : List (Nat × Nat)} : x ∈ distinct cells ↔ x ∈ cells := by
  cases cells with
  | nil => exact Iff.rfl
  | cons c cells => exact mem_skipRepeated

theorem pairwise_distinct {cells : List (Nat × Nat)} (ordered : cells.Pairwise (precedes · ·)) :
    (distinct cells).Pairwise Before := by
  cases cells with
  | nil => exact List.Pairwise.nil
  | cons c cells => exact pairwise_skipRepeated ordered

theorem pairwise_mergeSort (cells : List (Nat × Nat)) :
    (cells.mergeSort precedes).Pairwise (precedes · ·) := by
  refine List.pairwise_mergeSort (fun a b c first second => ?_) (fun a b => ?_) cells
  · simp only [precedes, Bool.or_eq_true, Bool.and_eq_true, beq_iff_eq, decide_eq_true_eq] at *
    omega
  · simp only [precedes, Bool.or_eq_true, Bool.and_eq_true, beq_iff_eq, decide_eq_true_eq]
    omega

/-- The cells of a pattern are counted and summed up to its form. -/
theorem ofSorted_cells (p : Pattern) : ofSorted p.nrows p.ncols p.cells = p.flat := by
  obtain ⟨counts, all⟩ : ∃ counts, p.cells.foldl
      (fun (counts : Array Nat) c => counts.modify (c.2 + 1) (· + 1))
        (Array.replicate (p.ncols + 1) 0) = counts := ⟨_, rfl⟩
  have counted : (p.cells.map (·.2)).foldl (fun counts j => counts.modify (j + 1) (· + 1))
      (Array.replicate (p.ncols + 1) 0) = counts := by rw [List.foldl_map, all]
  have count (m : Nat) (within : m ≤ p.ncols) :
      counts[m]? = some ((p.cells.map (·.2)).countP (· + 1 = m)) := by
    have inside : m < p.ncols + 1 := Nat.lt_succ_of_le within
    rw [← counted, Pattern.getElem?_foldl_count]
    simp [inside]
  have size : counts.size = p.ncols + 1 := by
    rw [← counted, size_foldl fun _ _ => Array.size_modify, Array.size_replicate]
  have pointers : (List.range p.ncols).foldl Pattern.addSum counts = p.colPtrs.toArray := by
    refine Pattern.foldl_addSum size ?_ fun j inside => ?_
    · rw [count 0 (Nat.zero_le _), List.countP_eq_zero.mpr fun _ _ => by simp]
    · rw [count (j + 1) inside, ← Pattern.count_cells inside, List.count]
      exact congrArg some (List.countP_congr fun _ _ => by simp)
  rw [ofSorted, all, pointers, Pattern.map_fst_cells]
  rfl

/-! ### Builders that may fail -/

theorem dense?_eq (r c : Nat) : dense? r c = (Pattern.dense? r c).map Pattern.flat := by
  rw [dense?, Pattern.dense?, dense_eq]
  cases checkRoom (c + 1) with
  | error e => rfl
  | ok _ => cases checkRoom (r * c) <;> rfl

theorem diagonal?_eq (n : Nat) : diagonal? n = (Pattern.diagonal? n).map Pattern.flat := by
  rw [diagonal?, Pattern.diagonal?, diagonal_eq]
  cases checkRoom (n + 1) <;> rfl

/-- Listed positions give the form of the pattern that has them, or are refused as there. -/
theorem ofPositions_eq (r c : Nat) (rows cols : List Nat) :
    ofPositions r c rows cols = (Pattern.ofPositions r c rows cols).map Pattern.flat := by
  by_cases lengths : rows.length = cols.length
  case neg =>
    rw [ofPositions, Pattern.ofPositions, if_pos lengths, if_pos lengths]
    rfl
  by_cases inside : ∀ x ∈ rows.zip cols, x.1 < r ∧ x.2 < c
  case neg =>
    have outside : (fun x : Nat × Nat => decide (r ≤ x.1 ∨ c ≤ x.2)) =
        fun x => decide ¬(x.1 < r ∧ x.2 < c) := funext fun x => decide_eq_decide.mpr (by omega)
    rw [ofPositions, Pattern.ofPositions, if_neg (not_not_intro lengths),
      if_neg (not_not_intro lengths)]
    dsimp only
    rw [dif_neg inside, outside]
    cases first : (rows.zip cols).find? fun x => decide ¬(x.1 < r ∧ x.2 < c) with
    | some x => rfl
    | none =>
      refine absurd (fun x member => ?_) inside
      simpa using List.find?_eq_none.mp first x member
  have none : (rows.zip cols).find? (fun x => decide (r ≤ x.1 ∨ c ≤ x.2)) = none := by
    refine List.find?_eq_none.mpr fun x member => ?_
    have within := inside x member
    simp only [decide_eq_true_eq]
    omega
  rw [ofPositions, if_neg (not_not_intro lengths)]
  dsimp only
  rw [none]
  by_cases room : c + 1 < wordLimit
  · obtain ⟨p, built, rfl, rfl⟩ := Pattern.exists_ofPositions lengths inside room
    have cells : distinct ((rows.zip cols).mergeSort precedes) = p.cells := by
      refine Pattern.eq_of_before (pairwise_distinct (pairwise_mergeSort _)) p.pairwise_cells
        fun ⟨i, j⟩ => ?_
      rw [mem_distinct, List.mem_mergeSort, Pattern.mem_cells_iff,
        Pattern.mem_col_ofPositions built]
    rw [built, checkRoom, if_pos room, cells, ofSorted_cells]
    rfl
  · rw [Pattern.ofPositions, if_neg (not_not_intro lengths)]
    dsimp only
    rw [dif_pos inside, checkRoom, if_neg room]
    rfl

end Flat

namespace SparseMatrix

variable {α : Type} {p : Pattern} {rule : Nat → Nat → α}

theorem ofValues_self (a : SparseMatrix α) : ofValues a.pattern a.values = .ok a :=
  dif_pos a.size_values

/-- A value of a sample is what the rule gives at its position. -/
theorem getElem?_values_sample {i j k : Nat} (position : p.position? i j = some k) :
    (sample p rule).values[k]? = some (rule i j) := by
  rw [sample, List.getElem?_toArray, List.getElem?_map,
    Pattern.getElem?_cells_of_position? position, Option.map_some]

/-- Gathered columns of a rule at the positions of a pattern are its sample. -/
theorem gather_sample {column : Nat → List (Nat × α)}
    (columns : ∀ j < p.ncols, column j = (p.col j).map fun i => (i, rule i j)) :
    (Flat.gather p.ncols column).2.map (·.2) = (sample p rule).values := by
  have cells : p.cells.map (fun cell => rule cell.1 cell.2) =
      ((List.range p.ncols).flatMap column).map (·.2) := by
    rw [Pattern.cells_eq, List.map_flatMap, List.map_flatMap]
    refine List.flatMap_congr fun j member => ?_
    rw [columns j (List.mem_range.mp member), List.map_map, List.map_map]
    rfl
  rw [Flat.gather_eq, List.map_toArray, ← cells]
  rfl

variable [Scalar α]

/-- The data of a dense matrix are its entries at the positions of the full pattern. -/
theorem values_sample_dense (m : DenseMatrix α) :
    (sample (.dense m.nrows m.ncols) m.entry).values = m.data := by
  have size := (sample (.dense m.nrows m.ncols) m.entry).size_values
  rw [show (sample (.dense m.nrows m.ncols) m.entry).pattern = .dense m.nrows m.ncols from rfl,
    Pattern.nnz_dense] at size
  refine Array.ext_getElem? fun k => ?_
  by_cases inside : k < m.nrows * m.ncols
  · obtain ⟨i, j, position⟩ := Pattern.exists_position?_eq ((Pattern.nnz_dense _ _).symm ▸ inside)
    obtain ⟨hi, hj⟩ := Pattern.mem_col_dense.mp (Pattern.mem_of_position? position)
    have place := Option.some.inj ((Pattern.position?_dense hi hj).symm.trans position)
    rw [getElem?_values_sample position, ← place, m.getElem?_data hi hj]
  · rw [Array.getElem?_eq_none (by omega), Array.getElem?_eq_none (by rw [m.size_data]; omega)]

/-- A dense matrix with its data for values is its sample on the full pattern. -/
theorem copyDense?_eq (m : DenseMatrix α) : copyDense? m = ofDense? m := by
  rw [copyDense?, ofDense?, Flat.dense?_eq]
  cases room : Pattern.dense? m.nrows m.ncols with
  | error e => rfl
  | ok p =>
    obtain ⟨_, -, rest⟩ := Outcome.bind_eq_ok.mp room
    obtain ⟨_, -, same⟩ := Outcome.bind_eq_ok.mp rest
    cases same
    have values := ofValues_self (sample (.dense m.nrows m.ncols) m.entry)
    rw [values_sample_dense] at values
    simp only [Except.map, Outcome.ok_bind, Flat.check_flat]
    exact values

/-- The nonzero entries that are gathered are the sample on their pattern. -/
theorem nonzeros_eq (m : DenseMatrix α) :
    nonzeros m = ((ofNonzeros m).pattern.flat, (ofNonzeros m).values) := by
  have wide : (ofNonzeros m).pattern.ncols = m.ncols := by
    simp [ofNonzeros, sample, Pattern.ofTest, Pattern.ncols]
  have columns (j : Nat) (inside : j < (ofNonzeros m).pattern.ncols) :
      nonzeroColumn m j = ((ofNonzeros m).pattern.col j).map fun i => (i, m.entry i j) := by
    have inside : j < m.ncols := wide ▸ inside
    rw [nonzeroColumn, List.filter_map]
    simp [ofNonzeros, sample, Pattern.ofTest, Pattern.col, Array.getD, inside, Function.comp_def]
  have listed (j : Nat) (inside : j < (ofNonzeros m).pattern.ncols) :
      (nonzeroColumn m j).map Prod.fst = (ofNonzeros m).pattern.col j := by
    rw [columns j inside, List.map_map]
    exact List.map_id _
  have form := Flat.gather_columns listed
  have values := gather_sample columns
  rw [wide] at form values
  exact Prod.ext form values

theorem gatherNonzeros?_eq (m : DenseMatrix α) : gatherNonzeros? m = ofNonzeros? m := by
  rw [gatherNonzeros?, ofNonzeros?, nonzeros_eq]
  cases checkRoom (m.ncols + 1) with
  | error e => rfl
  | ok _ =>
    rw [Outcome.ok_bind, Flat.check_flat, Outcome.ok_bind, ofValues_self]
    rfl

end SparseMatrix

end Cotangent
