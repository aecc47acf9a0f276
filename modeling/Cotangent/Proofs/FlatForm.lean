import Mathlib.Data.Nat.Find
import Cotangent.Proofs.FillPattern

/-! The flat form of a pattern. Reading it back is a decision: a pattern comes out exactly where the
pointers and the rows are those of one, and then they are its own. The pointers are only compared as
their columns are reached, so a column may be sliced before a later pointer shows that the row indices
do not reach as far; such a form has no answer. -/
namespace Cotangent.Pattern

variable {nrows ncols j : Nat} {colPtrs rowIndices : Array Nat}

/-- Pointers that start at zero, do not decrease and end at the number of row indices, and rows that are
inside the matrix and increase within every column. -/
structure IsFlat (nrows ncols : Nat) (colPtrs rowIndices : Array Nat) : Prop where
  count : colPtrs.size = ncols + 1
  first : colPtrs.getD 0 0 = 0
  last : colPtrs.getD ncols 0 = rowIndices.size
  ordered : ∀ j < ncols, colPtrs.getD j 0 ≤ colPtrs.getD (j + 1) 0
  inside : ∀ j < ncols, ∀ k, colPtrs.getD j 0 ≤ k → k < colPtrs.getD (j + 1) 0 →
    rowIndices.getD k 0 < nrows
  increasing : ∀ j < ncols, ∀ k, colPtrs.getD j 0 ≤ k → k + 1 < colPtrs.getD (j + 1) 0 →
    rowIndices.getD k 0 < rowIndices.getD (k + 1) 0

/-! ### One column -/

/-- The rows of column `j`. -/
def flatColumn (colPtrs rowIndices : Array Nat) (j : Nat) : List Nat :=
  (rowIndices.extract (colPtrs.getD j 0) (colPtrs.getD (j + 1) 0)).toList

/-- Column `j` starts before it stops, stops within the row indices, and has the rows of a column. -/
structure HasColumn (nrows : Nat) (colPtrs rowIndices : Array Nat) (j : Nat) : Prop where
  ordered : colPtrs.getD j 0 ≤ colPtrs.getD (j + 1) 0
  stop_le : colPtrs.getD (j + 1) 0 ≤ rowIndices.size
  isColumn : IsColumn nrows (flatColumn colPtrs rowIndices j)

/-- Column `j` starts before it stops, but there are not as many row indices. -/
def Overruns (colPtrs rowIndices : Array Nat) (j : Nat) : Prop :=
  colPtrs.getD j 0 ≤ colPtrs.getD (j + 1) 0 ∧ rowIndices.size < colPtrs.getD (j + 1) 0

/-- A row of a column stands at its place behind the first one. -/
theorem getElem?_flatColumn {t : Nat} (stop_le : colPtrs.getD (j + 1) 0 ≤ rowIndices.size)
    (within : colPtrs.getD j 0 + t < colPtrs.getD (j + 1) 0) :
    (flatColumn colPtrs rowIndices j)[t]? = some (rowIndices.getD (colPtrs.getD j 0 + t) 0) := by
  have stored : colPtrs.getD j 0 + t < rowIndices.size := within.trans_le stop_le
  simp only [flatColumn, Array.getElem?_toList, Array.getElem?_extract]
  rw [if_pos (by omega), Array.getElem?_eq_getElem stored]
  exact congrArg some (dif_pos stored).symm

theorem length_flatColumn (stop_le : colPtrs.getD (j + 1) 0 ≤ rowIndices.size) :
    (flatColumn colPtrs rowIndices j).length = colPtrs.getD (j + 1) 0 - colPtrs.getD j 0 := by
  simp only [flatColumn, Array.length_toList, Array.size_extract, Nat.min_eq_left stop_le]

/-- The rows of a column are compared at their places. -/
theorem isColumn_flatColumn_iff (stop_le : colPtrs.getD (j + 1) 0 ≤ rowIndices.size) :
    IsColumn nrows (flatColumn colPtrs rowIndices j) ↔
      (∀ k, colPtrs.getD j 0 ≤ k → k < colPtrs.getD (j + 1) 0 → rowIndices.getD k 0 < nrows) ∧
      ∀ k, colPtrs.getD j 0 ≤ k → k + 1 < colPtrs.getD (j + 1) 0 →
        rowIndices.getD k 0 < rowIndices.getD (k + 1) 0 := by
  have length := length_flatColumn (j := j) stop_le
  have row {t : Nat} (small : t < (flatColumn colPtrs rowIndices j).length) :
      (flatColumn colPtrs rowIndices j)[t] = rowIndices.getD (colPtrs.getD j 0 + t) 0 :=
    Option.some.inj ((List.getElem?_eq_getElem small).symm.trans
      (getElem?_flatColumn stop_le (by omega)))
  constructor
  · rintro ⟨pairwise, below⟩
    refine ⟨fun k start stop => ?_, fun k start stop => ?_⟩
    · obtain ⟨t, rfl⟩ := Nat.exists_eq_add_of_le start
      have small : t < (flatColumn colPtrs rowIndices j).length := by omega
      exact row small ▸ below _ (List.getElem_mem small)
    · obtain ⟨t, rfl⟩ := Nat.exists_eq_add_of_le start
      have small : t + 1 < (flatColumn colPtrs rowIndices j).length := by omega
      have less := List.pairwise_iff_getElem.mp pairwise t (t + 1) (by omega) small t.lt_succ_self
      rwa [row, row small] at less
  · rintro ⟨below, increasing⟩
    refine ⟨List.pairwise_iff_getElem.mpr fun t t' ht ht' less => ?_, fun i member => ?_⟩
    · induction t', less using Nat.le_induction with
      | base =>
        rw [row ht, row ht']
        exact increasing _ (Nat.le_add_right _ _) (by omega)
      | succ t' _ ih =>
        refine (ih (by omega)).trans ?_
        rw [row (by omega), row ht']
        exact increasing _ (Nat.le_add_right _ _) (by omega)
    · obtain ⟨t, small, rfl⟩ := List.mem_iff_getElem.mp member
      rw [row small]
      exact below _ (Nat.le_add_right _ _) (by omega)

/-- Column `j` as it is read. -/
def readColumn (nrows : Nat) (colPtrs rowIndices : Array Nat) (j : Nat) :
    Except Error { rows : List Nat // IsColumn nrows rows } :=
  stretch colPtrs rowIndices j >>= checkColumn nrows j

variable (nrows rowIndices) in
/-- A column is read, or it overruns the row indices, or its fault is found. -/
theorem readColumn_cases (inside : j + 1 < colPtrs.size) :
    (∃ h : HasColumn nrows colPtrs rowIndices j,
      readColumn nrows colPtrs rowIndices j = .ok ⟨_, h.isColumn⟩) ∨
    (¬ HasColumn nrows colPtrs rowIndices j ∧
      ((Overruns colPtrs rowIndices j ∧
        readColumn nrows colPtrs rowIndices j = .error .outOfRange) ∨
      (¬ Overruns colPtrs rowIndices j ∧
        ∃ fault, readColumn nrows colPtrs rowIndices j = .error (.invalidArgument fault)))) := by
  have start : colPtrs[j]? = some (colPtrs.getD j 0) := by
    simp [Array.getD, Nat.lt_of_succ_lt inside]
  have stop : colPtrs[j + 1]? = some (colPtrs.getD (j + 1) 0) := by
    simp [Array.getD, inside]
  simp only [readColumn, stretch, start, stop]
  by_cases less : colPtrs.getD (j + 1) 0 < colPtrs.getD j 0
  · rw [if_pos less, Outcome.error_bind]
    exact .inr ⟨fun has => absurd has.ordered (Nat.not_le.mpr less),
      .inr ⟨fun overrun => absurd overrun.1 (Nat.not_le.mpr less), _, rfl⟩⟩
  rw [if_neg less]
  by_cases short : rowIndices.size < colPtrs.getD (j + 1) 0
  · rw [if_pos short, Outcome.error_bind]
    exact .inr ⟨fun has => absurd has.stop_le (Nat.not_le.mpr short),
      .inl ⟨⟨Nat.not_lt.mp less, short⟩, rfl⟩⟩
  rw [if_neg short, Outcome.ok_bind, checkColumn]
  by_cases column : IsColumn nrows (flatColumn colPtrs rowIndices j)
  · exact .inl ⟨⟨Nat.not_lt.mp less, Nat.not_lt.mp short, column⟩, dif_pos column⟩
  · exact .inr ⟨fun has => column has.isColumn,
      .inr ⟨fun overrun => short overrun.2, _, dif_neg column⟩⟩

/-! ### All columns -/

variable (nrows) in
/-- A form whose pointers have the right ends is flat if each of its columns is there. -/
theorem isFlat_iff (count : colPtrs.size = ncols + 1) (first : colPtrs.getD 0 0 = 0)
    (last : colPtrs.getD ncols 0 = rowIndices.size) :
    IsFlat nrows ncols colPtrs rowIndices ↔
      ∀ j < ncols, HasColumn nrows colPtrs rowIndices j := by
  constructor
  · intro flat j inside
    have stop_le : colPtrs.getD (j + 1) 0 ≤ rowIndices.size := by
      rw [← flat.last]
      refine Nat.le_induction (P := fun k _ => k ≤ ncols → colPtrs.getD (j + 1) 0 ≤ colPtrs.getD k 0)
        (fun _ => le_rfl) (fun k _ ih within => ?_) ncols inside le_rfl
      exact (ih (Nat.le_of_succ_le within)).trans (flat.ordered k within)
    exact ⟨flat.ordered j inside, stop_le,
      (isColumn_flatColumn_iff stop_le).mpr ⟨flat.inside j inside, flat.increasing j inside⟩⟩
  · intro all
    have rows (j : Nat) (inside : j < ncols) :=
      (isColumn_flatColumn_iff (all j inside).stop_le).mp (all j inside).isColumn
    exact ⟨count, first, last, fun j inside => (all j inside).ordered,
      fun j inside => (rows j inside).1, fun j inside => (rows j inside).2⟩

/-- The columns before column `j` are the row indices before its pointer. -/
theorem flatten_flatColumns (first : colPtrs.getD 0 0 = 0)
    (all : ∀ i < j, HasColumn nrows colPtrs rowIndices i) :
    ((List.range j).map (flatColumn colPtrs rowIndices)).flatten =
      rowIndices.toList.take (colPtrs.getD j 0) := by
  induction j with
  | zero => simp [first]
  | succ j ih =>
    have last := all j j.lt_succ_self
    rw [List.range_succ, List.map_append, List.flatten_append, ih fun i less => all i (by omega)]
    have column : flatColumn colPtrs rowIndices j = (rowIndices.toList.drop (colPtrs.getD j 0)).take
        (colPtrs.getD (j + 1) 0 - colPtrs.getD j 0) := by
      rw [flatColumn, Array.toList_extract, List.extract_eq_take_drop]
    rw [List.map_singleton, List.flatten_singleton, column, ← List.take_add,
      Nat.add_sub_cancel' last.ordered]

/-- The columns of a form make the pattern that has its pointers and rows. -/
theorem colPtrs_of_columns {p : Pattern} (count : colPtrs.size = ncols + 1)
    (first : colPtrs.getD 0 0 = 0) (last : colPtrs.getD ncols 0 = rowIndices.size)
    (all : ∀ j < ncols, HasColumn nrows colPtrs rowIndices j)
    (columns : p.columns.toList = (List.range ncols).map (flatColumn colPtrs rowIndices)) :
    p.ncols = ncols ∧ p.colPtrs = colPtrs.toList ∧ p.rowIndices = rowIndices.toList := by
  have wide : p.ncols = ncols := by
    rw [Pattern.ncols, ← Array.length_toList, columns, List.length_map, List.length_range]
  have before (j : Nat) (within : j ≤ ncols) :
      (p.columns.toList.take j).flatten = rowIndices.toList.take (colPtrs.getD j 0) := by
    rw [columns, ← List.map_take, List.take_range, Nat.min_eq_left within]
    exact flatten_flatColumns first fun i less => all i (less.trans_le within)
  have offset (j : Nat) (within : j ≤ ncols) : p.offset j = colPtrs.getD j 0 := by
    have stored : colPtrs.getD j 0 ≤ rowIndices.size := by
      cases j with
      | zero => rw [first]; exact Nat.zero_le _
      | succ j => exact (all j within).stop_le
    rw [Pattern.offset, before j within, List.length_take, Array.length_toList, Nat.min_eq_left stored]
  refine ⟨wide, ?_, ?_⟩
  · refine List.ext_getElem (by simp [Pattern.colPtrs, wide, count]) fun j inside _ => ?_
    have within : j ≤ ncols := by
      simp only [Pattern.colPtrs, List.length_map, List.length_range, wide] at inside
      omega
    have stored : j < colPtrs.size := by omega
    simp [Pattern.colPtrs, offset j within, stored]
  · have whole := before ncols le_rfl
    rw [last, ← Array.length_toList, List.take_length, ← wide, Pattern.ncols,
      ← Array.length_toList, List.take_length] at whole
    exact whole

/-! ### The reader -/

variable (nrows rowIndices) in
/-- Every column is read, or the first one that is not there decides. -/
theorem readColumns_cases (count : colPtrs.size = ncols + 1) :
    (∃ _ : ∀ j < ncols, HasColumn nrows colPtrs rowIndices j,
      ∃ columns, (List.range ncols).mapM (readColumn nrows colPtrs rowIndices) = .ok columns ∧
        columns.map Subtype.val = (List.range ncols).map (flatColumn colPtrs rowIndices)) ∨
    ∃ j < ncols, (∀ i < j, HasColumn nrows colPtrs rowIndices i) ∧
      ¬ HasColumn nrows colPtrs rowIndices j ∧ ∀ e,
        readColumn nrows colPtrs rowIndices j = .error e →
          (List.range ncols).mapM (readColumn nrows colPtrs rowIndices) = .error e := by
  have read {j : Nat} (inside : j < ncols) (has : HasColumn nrows colPtrs rowIndices j) :
      readColumn nrows colPtrs rowIndices j = .ok ⟨_, has.isColumn⟩ := by
    have stored : j + 1 < colPtrs.size := by omega
    rcases readColumn_cases nrows rowIndices stored with ⟨_, done⟩ | ⟨missing, -⟩
    · exact done
    · exact absurd has missing
  by_cases all : ∀ j < ncols, HasColumn nrows colPtrs rowIndices j
  · obtain ⟨columns, done⟩ := Outcome.mapM_ok_of_all (f := readColumn nrows colPtrs rowIndices)
      fun j (member : j ∈ List.range ncols) =>
        ⟨_, read (List.mem_range.mp member) (all j (List.mem_range.mp member))⟩
    refine .inl ⟨all, columns, done, ?_⟩
    have each := Outcome.mapM_eq_ok.mp done
    rw [← List.forall₂_eq_eq_eq, List.forall₂_map_left_iff, List.forall₂_map_right_iff]
    refine (List.forall₂_iff_get.mpr ⟨each.length_eq.symm, fun j inside inside' => ?_⟩)
    have here := each.get inside' inside
    simp only [List.get_eq_getElem, List.getElem_range] at here ⊢
    rw [read (by simpa using inside') (all j (by simpa using inside'))] at here
    exact congrArg Subtype.val (Except.ok.inj here).symm
  · classical
    push Not at all
    obtain ⟨inside, missing⟩ := Nat.find_spec all
    have earlier (i : Nat) (less : i < Nat.find all) : HasColumn nrows colPtrs rowIndices i := by
      by_contra missing'
      exact Nat.find_min all less ⟨less.trans inside, missing'⟩
    refine .inr ⟨Nat.find all, inside, earlier, missing, fun e failed => ?_⟩
    refine Outcome.mapM_error_at (i := Nat.find all) (x := Nat.find all) (by simp [inside]) failed ?_
    intro i y less at_i
    obtain ⟨within, rfl⟩ := List.getElem?_eq_some_iff.mp at_i
    rw [List.getElem_range]
    exact ⟨_, read (less.trans inside) (earlier i less)⟩

/-- Pointers of the right number run from zero to the number of row indices, and the first column that is
not there overruns the row indices. -/
def Overreaches (nrows ncols : Nat) (colPtrs rowIndices : Array Nat) : Prop :=
  colPtrs.size = ncols + 1 ∧ colPtrs.getD 0 0 = 0 ∧ colPtrs.getD ncols 0 = rowIndices.size ∧
    ∃ j < ncols, (∀ i < j, HasColumn nrows colPtrs rowIndices i) ∧ Overruns colPtrs rowIndices j

/-- The number of pointers that is asked for is no size, and there are not as many. -/
def Immense (ncols : Nat) (colPtrs : Array Nat) : Prop :=
  colPtrs.size ≠ ncols + 1 ∧ sizeLimit ≤ ncols + 1

theorem IsFlat.not_overreaches (flat : IsFlat nrows ncols colPtrs rowIndices) :
    ¬ Overreaches nrows ncols colPtrs rowIndices := by
  rintro ⟨count, first, last, j, inside, -, overrun⟩
  have has := (isFlat_iff _ count first last).mp flat j inside
  exact absurd has.stop_le (Nat.not_le.mpr overrun.2)

/-- What comes of pointers with the right ends. -/
theorem ofArrays_eq (count : colPtrs.size = ncols + 1)
    (ends : colPtrs.getD 0 0 = 0 ∧ colPtrs.getD ncols 0 = rowIndices.size) :
    ofArrays nrows ncols colPtrs rowIndices =
      ofChecked <$> (List.range ncols).mapM (readColumn nrows colPtrs rowIndices) := by
  rw [ofArrays, if_neg (not_not_intro count)]
  exact if_neg (by simp [ends])

/-- A flat form is read, it overreaches, it asks for too many pointers, or it has a fault. -/
theorem ofArrays_cases (nrows ncols : Nat) (colPtrs rowIndices : Array Nat) :
    (IsFlat nrows ncols colPtrs rowIndices ∧ ∃ p, ofArrays nrows ncols colPtrs rowIndices = .ok p ∧
      p.nrows = nrows ∧ p.ncols = ncols ∧ p.colPtrs = colPtrs.toList ∧
      p.rowIndices = rowIndices.toList) ∨
    (¬ IsFlat nrows ncols colPtrs rowIndices ∧
      ((Overreaches nrows ncols colPtrs rowIndices ∧
        ofArrays nrows ncols colPtrs rowIndices = .error .outOfRange) ∨
      (¬ Overreaches nrows ncols colPtrs rowIndices ∧
        ((Immense ncols colPtrs ∧
          ofArrays nrows ncols colPtrs rowIndices = .error .sizeOverflow) ∨
        (¬ Immense ncols colPtrs ∧
          ∃ fault, ofArrays nrows ncols colPtrs rowIndices = .error (.invalidArgument fault)))))) := by
  by_cases count : colPtrs.size = ncols + 1
  case neg =>
    refine .inr ⟨fun flat => count flat.count, .inr ⟨fun overrun => count overrun.1, ?_⟩⟩
    rw [ofArrays, if_pos count, sizeFault]
    by_cases small : ncols + 1 < sizeLimit
    · rw [if_pos small]
      exact .inr ⟨fun immense => absurd small (Nat.not_lt.mpr immense.2), _, rfl⟩
    · rw [if_neg small]
      exact .inl ⟨⟨count, Nat.not_lt.mp small⟩, rfl⟩
  have sized : ¬ Immense ncols colPtrs := fun immense => immense.1 count
  by_cases ends : colPtrs.getD 0 0 = 0 ∧ colPtrs.getD ncols 0 = rowIndices.size
  case neg =>
    refine .inr ⟨fun flat => ends ⟨flat.first, flat.last⟩,
      .inr ⟨fun overrun => ends ⟨overrun.2.1, overrun.2.2.1⟩, .inr ⟨sized,
        .pointerSpan rowIndices.size (colPtrs.getD 0 0) (colPtrs.getD ncols 0), ?_⟩⟩⟩
    rw [ofArrays, if_neg (not_not_intro count)]
    exact if_pos (not_and_or.mp ends)
  rw [ofArrays_eq count ends]
  have decided := isFlat_iff nrows count ends.1 ends.2
  rcases readColumns_cases nrows rowIndices count
    with ⟨all, columns, done, values⟩ | ⟨j, inside, earlier, missing, stops⟩
  · refine .inl ⟨decided.mpr all, ofChecked columns, by rw [done]; rfl, rfl, ?_⟩
    exact colPtrs_of_columns count ends.1 ends.2 all (by simpa [ofChecked] using values)
  · refine .inr ⟨fun flat => missing (decided.mp flat j inside), ?_⟩
    have stored : j + 1 < colPtrs.size := by omega
    rcases readColumn_cases nrows rowIndices stored
      with ⟨has, -⟩ | ⟨-, ⟨overrun, failed⟩ | ⟨fits, fault, failed⟩⟩
    · exact absurd has missing
    · exact .inl ⟨⟨count, ends.1, ends.2, j, inside, earlier, overrun⟩, by rw [stops _ failed]; rfl⟩
    · refine .inr ⟨?_, .inr ⟨sized, fault, by rw [stops _ failed]; rfl⟩⟩
      rintro ⟨-, -, -, i, -, before, overrun⟩
      rcases Nat.lt_trichotomy i j with less | rfl | more
      · exact absurd (earlier i less).stop_le (Nat.not_le.mpr overrun.2)
      · exact fits overrun
      · exact missing (before j more)

/-- Reading a flat form gives the pattern with these pointers and rows, if they are those of a pattern.
There is no answer if the number of pointers that is asked for is no size, or if the first column that is
not there overruns the row indices; every other form is refused as an invalid argument. -/
theorem ofArrays_decides (nrows ncols : Nat) (colPtrs rowIndices : Array Nat) :
    ((∃ p, ofArrays nrows ncols colPtrs rowIndices = .ok p) ↔
      IsFlat nrows ncols colPtrs rowIndices) ∧
    (∀ p, ofArrays nrows ncols colPtrs rowIndices = .ok p → p.nrows = nrows ∧ p.ncols = ncols ∧
      p.colPtrs = colPtrs.toList ∧ p.rowIndices = rowIndices.toList) ∧
    (ofArrays nrows ncols colPtrs rowIndices = .error .sizeOverflow ↔ Immense ncols colPtrs) ∧
    (ofArrays nrows ncols colPtrs rowIndices = .error .outOfRange ↔
      Overreaches nrows ncols colPtrs rowIndices) ∧
    ((∃ fault, ofArrays nrows ncols colPtrs rowIndices = .error (.invalidArgument fault)) ↔
      ¬ IsFlat nrows ncols colPtrs rowIndices ∧ ¬ Overreaches nrows ncols colPtrs rowIndices ∧
        ¬ Immense ncols colPtrs) := by
  have counted : Overreaches nrows ncols colPtrs rowIndices → ¬ Immense ncols colPtrs :=
    fun overrun immense => immense.1 overrun.1
  rcases ofArrays_cases nrows ncols colPtrs rowIndices with ⟨flat, p, done, parts⟩ |
    ⟨other, ⟨overrun, done⟩ | ⟨fits, ⟨immense, done⟩ | ⟨sized, fault, done⟩⟩⟩
  · have sized : ¬ Immense ncols colPtrs := fun immense => immense.1 flat.count
    have fits := flat.not_overreaches
    simp_all
  · simp_all
  · simp_all
  · simp_all

/-- Pointers that overrun the two row indices before they come back to them have no answer, where a form
that is not flat should be refused as an invalid argument. -/
theorem ofArrays_overreaches : ¬ IsFlat 2 2 #[0, 5, 2] #[0, 1] ∧
    ¬ ∃ fault, ofArrays 2 2 #[0, 5, 2] #[0, 1] = .error (.invalidArgument fault) := by
  refine ⟨fun flat => absurd (flat.ordered 1 Nat.one_lt_two) (by decide), ?_⟩
  have none : ofArrays 2 2 #[0, 5, 2] #[0, 1] = .error .outOfRange := by decide
  rw [none]
  exact nofun

end Cotangent.Pattern
