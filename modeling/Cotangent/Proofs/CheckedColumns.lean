import Cotangent.Factor.CheckedLU
import Cotangent.Proofs.RowSearch
import Cotangent.Proofs.TransposedPatterns
import Cotangent.Scalar.Binary64

/-! No index of a column is out of range. Between two columns every step belongs to a column of `L`, and
every row of such a column is a row of the matrix; the search adds none but these to the rows that the
column starts with. So a column with every index checked has the outcome of the column and leads to the
same state. A row's entry of `L` may be taken and its place cleared in one loop because the search lists
every row once. -/
namespace Cotangent.SparseLU

variable {α : Type} [Scalar α] {a : SparseMatrix α} {s : Partial α} {n k row : Nat}

namespace Partial.Sound

/-- The rows of a column of `L` are rows of the matrix. -/
theorem next_lt (sound : s.Sound n k) : ∀ w ∈ s.next row, w < n :=
  sound.acyclic.inside row

theorem reach?_eq (sound : s.Sound n k) {starts : List Nat} (inside : ∀ row ∈ starts, row < n) :
    s.reach? k starts = .ok (s.reach k starts) :=
  sound.forward.fromStarts?_eq sound.size_mark inside fun row _ stamped =>
    Nat.not_succ_le_self k (sound.marks row (k + 1) stamped)

/-! ### The dense column -/

/-- The values of a column are there, and its rows are rows of the matrix. -/
theorem load?_eq (sound : s.Sound n k) (square : a.nrows = n) (inside : k < a.ncols) :
    s.load? a.values (a.pattern.offset k) (a.pattern.col k) = .ok (s.loaded a k) := by
  have turn : ∀ cell ∈ (a.pattern.col k).zipIdx, ∀ work : Array α, work.size = n →
      (do writeAt work cell.1 (← readAt a.values (a.pattern.offset k + cell.2)) : Except Error _) =
        .ok (work.setIfInBounds cell.1 (a.values.getD (a.pattern.offset k + cell.2) 0)) ∧
      (work.setIfInBounds cell.1 (a.values.getD (a.pattern.offset k + cell.2) 0)).size = n := by
    intro cell member work size
    have row : cell.1 < n :=
      square ▸ Pattern.lt_nrows_of_mem_col (List.fst_mem_of_mem_zipIdx member)
    have place := List.snd_lt_of_mem_zipIdx member
    have last := a.pattern.offset_add_length_le inside
    have stored : a.pattern.offset k + cell.2 < a.values.size := by
      rw [a.size_values]
      omega
    rw [readAt_eq stored 0, Outcome.ok_bind, writeAt_eq (size.symm ▸ row)]
    exact ⟨rfl, Array.size_setIfInBounds.trans size⟩
  have shifted : (a.pattern.col k).zipIdx (a.pattern.offset k) = _ := List.zipIdx_eq_map_add
  refine (Outcome.foldlM_eq_ok_of_keeps turn sound.size_work).1.trans (congrArg Except.ok ?_)
  rw [Partial.loaded, SparseMatrix.col, shifted, List.map_map, List.foldl_map]
  rfl

/-- Every row that a pivot changes is a row of the matrix. -/
theorem substitute?_eq (sound : s.Sound n k) {acc : Array α × List (Nat × α)}
    (size : acc.1.size = n) (inside : row < n) :
    s.substitute? acc row = .ok (s.substitute acc row) := by
  have known : s.step? row = s.step.getD row none := join_getElem? s.step row
  rw [Partial.substitute?, readAt_eq (sound.size_step.symm ▸ inside) none, Outcome.ok_bind, ← known,
    Partial.substitute]
  cases pivoted : s.step? row with
  | none => rfl
  | some j =>
    dsimp only
    rw [readAt_eq (size.symm ▸ inside) 0, Outcome.ok_bind]
    by_cases zero : Scalar.isZero (acc.1.getD row 0) = true
    · rw [if_pos zero, if_pos zero]
      rfl
    · have column : j < s.lower.size := sound.size_lower.symm ▸ sound.step_lt row j pivoted
      have turn : ∀ cell ∈ s.lowerOf row, ∀ work : Array α, work.size = n →
          (do writeAt work cell.1 ((← readAt work cell.1) - cell.2 * acc.1.getD row 0) :
              Except Error _) = .ok (work.modify cell.1 (· - cell.2 * acc.1.getD row 0)) ∧
          (work.modify cell.1 (· - cell.2 * acc.1.getD row 0)).size = n := by
        intro cell member work size
        have listed : cell.1 ∈ s.next row := List.mem_map_of_mem member
        have place : cell.1 < work.size := size.symm ▸ sound.next_lt cell.1 listed
        have held : work[cell.1]? = some (work.getD cell.1 0) := by simp [Array.getD, place]
        rw [readAt_eq place 0, Outcome.ok_bind, writeAt_eq place,
          setIfInBounds_eq_modify held (· - cell.2 * acc.1.getD row 0)]
        exact ⟨rfl, Array.size_modify.trans size⟩
      rw [if_neg zero, if_neg zero, readAt_eq column [], Outcome.ok_bind, ← lowerOf_eq pivoted,
        (Outcome.foldlM_eq_ok_of_keeps turn size).1]
      rfl

/-- The solve with every index checked. -/
theorem solve?_eq (sound : s.Sound n k) (square : a.nrows = n) :
    (s.rows a k).foldlM s.substitute? (s.loaded a k, []) = .ok (s.solved a k) := by
  have size : (s.loaded a k).size = n := by
    rw [← sound.size_work]
    exact size_foldl fun _ _ => Array.size_setIfInBounds
  have turn : ∀ row ∈ s.rows a k, ∀ acc : Array α × List (Nat × α), acc.1.size = n →
      s.substitute? acc row = .ok (s.substitute acc row) ∧ (s.substitute acc row).1.size = n :=
    fun row member acc size => ⟨sound.substitute?_eq size (sound.rows_lt square row member),
      (size_substitute acc row).trans size⟩
  exact (Outcome.foldlM_eq_ok_of_keeps (b := (s.loaded a k, [])) turn size).1

theorem pivot?_eq (sound : s.Sound n k) {work : Array α} {rows : List Nat} (size : work.size = n)
    (inside : ∀ row ∈ rows, row < n) : s.pivot? work rows = .ok (s.pivot work rows) := by
  refine Outcome.foldlM_eq_ok fun row member best => ?_
  have known : s.step? row = s.step.getD row none := join_getElem? s.step row
  rw [readAt_eq (sound.size_step.symm ▸ inside row member) none, Outcome.ok_bind, ← known]
  cases s.step? row with
  | some j => rfl
  | none =>
    dsimp only
    rw [readAt_eq (size.symm ▸ inside row member) 0, Outcome.ok_bind]
    simp only [Option.isNone_none, Bool.true_and]
    split <;> rfl

end Partial.Sound

/-! ### The end of a column -/

/-- Places cleared one after another. -/
theorem clear?_eq {work : Array α} {rows : List Nat} (inside : ∀ row ∈ rows, row < work.size) :
    rows.foldlM (fun work row => writeAt work row 0) work =
      .ok (rows.foldl (fun work row => work.setIfInBounds row 0) work) := by
  have turn : ∀ row ∈ rows, ∀ w : Array α, w.size = work.size →
      writeAt w row 0 = .ok (w.setIfInBounds row 0) ∧ (w.setIfInBounds row 0).size = work.size :=
    fun row member w size => ⟨writeAt_eq (size.symm ▸ inside row member) 0,
      Array.size_setIfInBounds.trans size⟩
  exact (Outcome.foldlM_eq_ok_of_keeps turn rfl).1

/-- One loop takes the entries of `L` and clears the column: a row that is listed once still has its
entry when its turn comes. -/
theorem collect?_eq {step : Array (Option Nat)} {pivot : α} {solved work : Array α} {rows : List Nat}
    {lower : List (Nat × α)} (nodup : rows.Nodup) (size : work.size = step.size)
    (inside : ∀ row ∈ rows, row < step.size)
    (untouched : ∀ row ∈ rows, work.getD row 0 = solved.getD row 0) :
    rows.foldlM (collect? step pivot) (work, lower) =
      .ok (rows.foldl (fun work row => work.setIfInBounds row 0) work,
        lower ++ rows.filterMap fun r =>
          if ((step[r]?).join).isNone && !Scalar.isZero (solved.getD r 0) then
            some (r, solved.getD r 0 / pivot) else none) := by
  induction rows generalizing work lower with
  | nil => simp; rfl
  | cons row rows ih =>
    obtain ⟨others, nodup⟩ := List.nodup_cons.mp nodup
    obtain ⟨here, below⟩ := List.forall_mem_cons.mp inside
    obtain ⟨entry, rest⟩ := List.forall_mem_cons.mp untouched
    have place : row < work.size := size.symm ▸ here
    have later : ∀ r ∈ rows, (work.setIfInBounds row 0).getD r 0 = solved.getD r 0 := by
      intro r member
      have other : row ≠ r := fun same => others (same ▸ member)
      rw [getD_setIfInBounds_of_ne other]
      exact rest r member
    have turn (lower' : List (Nat × α)) := @ih (work.setIfInBounds row 0) lower' nodup
      (Array.size_setIfInBounds.trans size) below later
    rw [List.foldlM_cons, collect?, readAt_eq here none, Outcome.ok_bind, ← join_getElem?,
      List.filterMap_cons, List.foldl_cons]
    cases pivoted : (step[row]?).join with
    | some j =>
      dsimp only
      rw [writeAt_eq place]
      exact turn lower
    | none =>
      dsimp only
      rw [readAt_eq place 0, Outcome.ok_bind, writeAt_eq place, entry]
      by_cases zero : Scalar.isZero (solved.getD row 0) = true
      · rw [if_pos zero, zero]
        exact turn lower
      · rw [if_neg zero, Bool.eq_false_iff.mpr zero]
        refine (turn _).trans ?_
        rw [List.append_assoc]
        rfl

/-- No index is out of range in a column of a square matrix. -/
theorem Partial.Sound.eliminate?_eq (sound : s.Sound n k) (square : a.nrows = n)
    (inside : k < a.ncols) (tolerance : α) :
    eliminate? a tolerance k s = .ok (SparseLU.eliminate a tolerance k s) := by
  have pointer : k < a.pattern.colPtrs.toArray.size := by
    rw [a.pattern.isFlat.count]
    exact Nat.lt_succ_of_lt inside
  have starts : ∀ row ∈ (a.col k).map (·.1), row < n := by
    rw [a.map_fst_col]
    exact fun row member => square ▸ Pattern.lt_nrows_of_mem_col member
  have rows := sound.rows_lt (k := k) square
  have size := sound.size_solved (k := k) square
  have places : ∀ row ∈ s.rows a k, row < (s.solved a k).1.size := fun row member =>
    size.symm ▸ rows row member
  have listed : (s.reach k ((a.col k).map (·.1))).finished = s.rows a k := rfl
  rw [eliminate?, Pattern.stretch_colPtrs inside, Outcome.ok_bind, readAt_eq pointer 0, Outcome.ok_bind,
    a.pattern.getD_colPtrs inside.le, sound.load?_eq square inside, ← a.map_fst_col,
    sound.reach?_eq starts, Outcome.ok_bind, Outcome.ok_bind, listed, sound.solve?_eq square,
    Outcome.ok_bind]
  dsimp only
  rw [sound.pivot?_eq size rows, Outcome.ok_bind]
  have picked : s.pivot (s.solved a k).1 (s.rows a k) = s.chosen a k := rfl
  rw [picked]
  rcases eliminate_cases a tolerance k s with ⟨row, chosen, large, ran⟩ | ⟨rejected, ran⟩
  · have accepted : ((s.chosen a k).1.filter fun _ => Scalar.lt tolerance (s.chosen a k).2) = some row :=
      Option.filter_eq_some_iff.mpr ⟨chosen, large⟩
    have member : row ∈ s.rows a k := (Partial.mem_rows_of_chosen chosen).1
    have place : row < s.step.size := sound.size_step.symm ▸ rows row member
    have steps : (s.step.setIfInBounds row (some k)).size = n :=
      Array.size_setIfInBounds.trans sound.size_step
    rw [accepted]
    dsimp only
    rw [readAt_eq (places row member) 0, Outcome.ok_bind, writeAt_eq place, Outcome.ok_bind,
      collect?_eq (sound.rows_nodup square) (size.trans steps.symm) (steps.symm ▸ rows) fun _ _ => rfl,
      Outcome.ok_bind, ran]
    rfl
  · have refused : ((s.chosen a k).1.filter fun _ => Scalar.lt tolerance (s.chosen a k).2) = none := by
      refine Option.filter_eq_none_iff.mpr fun row found => ?_
      rcases rejected with vacant | small
      · cases vacant.symm.trans found
      · exact Bool.eq_false_iff.mp small
    rw [refused]
    dsimp only
    rw [clear?_eq places, Outcome.ok_bind, ran]
    rfl

/-- A step whose column of `L` is missing ends the column. -/
example : eliminate? (.ofDense (.ofFn 1 1 fun _ _ => (1 : Binary64))) 0 0
    { Partial.start 1 with step := #[some 0] } = .error .outOfRange := by
  decide +kernel

end Cotangent.SparseLU
