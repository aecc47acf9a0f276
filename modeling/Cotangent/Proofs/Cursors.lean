import Cotangent.Proofs.Coefficients
import Cotangent.Proofs.FillPattern

/-! Rows of a Cholesky factor, for numbers without laws. A cursor in every column stands at the first
position that no row has filled yet. Because the rows of the factor are those that the analysis found,
the position under a cursor belongs to the row that fills it. An entry of the row that is eliminated
changes rows further up the tree only, so when the row is finished the dense row is zero again. -/
namespace Cotangent.Cholesky

open EliminationTree Pattern

variable {α : Type} [Scalar α] {p : Pattern} {a : Analysis} {m : SparseMatrix α}
  {s t : Partial α} {i j k : Nat}

/-- The entry of the factor in row `i` and column `j`, as far as it is known. -/
def Partial.entry (a : Analysis) (s : Partial α) (i j : Nat) : α :=
  match a.lower.position? i j with
  | some q => s.values.getD q 0
  | none => 0

theorem Partial.entry_of_position? {q : Nat} (found : a.lower.position? i j = some q) :
    s.entry a i j = s.values.getD q 0 := by
  simp only [Partial.entry, found]

theorem Partial.entry_of_not_fill (fills : a.Fills p) (outside : ¬ p.Fill i j) :
    s.entry a i j = 0 := by
  have none := position?_eq_none (mt (fills.mem_iff i j).mp outside)
  simp only [Partial.entry, none]

/-- One value stored is one entry. -/
theorem Partial.entry_set {x : α} (size : s.values.size = a.lower.nnz) (fills : a.Fills p)
    (fill : p.Fill k j) (values : t.values = s.values.setIfInBounds (a.lower.cursor j k) x)
    (i j' : Nat) : t.entry a i j' = if i = k ∧ j' = j then x else s.entry a i j' := by
  have here := position?_of_mem ((fills.mem_iff k j).mpr fill)
  cases found : a.lower.position? i j' with
  | none =>
    have other : ¬ (i = k ∧ j' = j) := by
      rintro ⟨rfl, rfl⟩
      cases found.symm.trans here
    simp only [Partial.entry, found, if_neg other]
  | some q =>
    have inside : q < s.values.size := size.symm ▸ position?_lt found
    rw [entry_of_position? found, entry_of_position? found, values, getD_setIfInBounds inside]
    refine if_congr ⟨?_, ?_⟩ rfl rfl
    · rintro rfl
      exact position?_inj found here
    · rintro ⟨rfl, rfl⟩
      exact Option.some.inj (found.symm.trans here)

/-! ### Columns of a factor -/

section Columns

variable {l : SparseMatrix α}

/-- An entry of the solution of the system of `Lᵀ`. -/
def columnRule (l : SparseMatrix α) (b : Nat → α) (j : Nat) (x : Nat → α) : α :=
  match l.col j with
  | [] => b j
  | (_, d) :: below => below.foldl (fun s (i, v) => s - v * x i) (b j) / d

theorem solveUpper_eq (l : SparseMatrix α) (b : Array α) :
    solveUpper l b = Triangular.descending l.ncols (columnRule l (b.getD · 0)) :=
  rfl

variable (fills : a.Fills p) (pattern : l.pattern = a.lower)

include fills pattern

/-- A column of a factor starts with the diagonal. -/
theorem exists_col_cons (inside : j < p.nrows) : ∃ d below, l.col j = (j, d) :: below ∧
    ∀ cell ∈ below, j < cell.1 ∧ cell.1 < p.nrows := by
  have rows : (l.col j).map (·.1) = a.lower.col j := pattern ▸ l.map_fst_col j
  obtain ⟨later, listed⟩ := fills.exists_below inside
  obtain ⟨cell, below, column, first, others⟩ := List.map_eq_cons_iff.mp (rows.trans listed)
  have increasing := listed ▸ (a.lower.isColumn_col j).1
  refine ⟨cell.2, below, by rw [column, ← first], fun c member => ⟨?_, ?_⟩⟩
  · exact (List.pairwise_cons.mp increasing).1 c.1 (others ▸ List.mem_map_of_mem member)
  · have held : c.1 ∈ a.lower.col j :=
      rows ▸ column ▸ List.mem_map_of_mem (List.mem_cons_of_mem cell member)
    exact ((fills.mem_iff c.1 j).mp held).lt_nrows

theorem tail_col_lt (j : Nat) : ∀ cell ∈ (l.col j).tail, j < cell.1 ∧ cell.1 < p.nrows := by
  by_cases inside : j < p.nrows
  · obtain ⟨d, below, column, after⟩ := exists_col_cons fills pattern inside
    rwa [column, List.tail_cons]
  · intro cell held
    have listed : cell.1 ∈ a.lower.col j :=
      pattern ▸ l.map_fst_col j ▸ List.mem_map_of_mem (List.mem_of_mem_tail held)
    have fill := (fills.mem_iff cell.1 j).mp listed
    exact absurd (fill.le.trans_lt fill.lt_nrows) inside

end Columns

/-! ### The state between two rows -/

/-- What holds when the rows before `k` are finished. -/
structure Partial.Sound (a : Analysis) (n k : Nat) (s : Partial α) : Prop where
  size_values : s.values.size = a.lower.nnz
  size_next : s.next.size = n
  size_work : s.work.size = n
  size_mark : s.mark.size = n
  next : ∀ j < n, s.next.getD j 0 = a.lower.cursor j k
  clear : ∀ i, s.work.getD i 0 = 0
  marks : ∀ v m : Nat, s.mark[v]? = some m → m ≤ k

theorem Partial.sound_start (fills : a.Fills p) :
    (Partial.start a : Partial α).Sound a p.nrows 0 := by
  have columns := fills.columns
  constructor
  case size_next => simp [Partial.start, colPtrs, columns]
  case next =>
    intro j inside
    simp [Partial.start, colPtrs, columns, cursor_zero, Array.getD_eq_getD_getElem?, inside]
  case clear =>
    intro i
    simp only [Partial.start, Array.getD_eq_getD_getElem?, Array.getElem?_replicate]
    split <;> rfl
  case marks =>
    intro v m found
    simp only [Partial.start, Array.getElem?_replicate] at found
    split at found <;> simp_all
  all_goals simp [Partial.start, columns]

/-! ### Loading a row -/

/-- A row of the lower triangle in a dense row. -/
def Partial.loaded (a : Analysis) (m : SparseMatrix α) (k : Nat) (s : Partial α) : Array α :=
  (a.upper.col k).foldl (fun work i => work.setIfInBounds i (m.entry k i)) s.work

omit [Scalar α] in
/-- The analysis has a number for everything that is loaded. -/
theorem exists_source_eq (fills : a.Fills p) {number : Nat}
    (member : (i, number) ∈ (a.upper.col k).zipIdx (a.upper.offset k)) :
    ∃ q, p.position? k i = some q ∧ a.source[number]? = some q := by
  have place : a.upper.position? i k = some number := by
    obtain ⟨start, found⟩ := List.mem_zipIdx_iff_le_and_getElem?_sub.mp member
    exact position?_eq_some_iff.mpr ⟨_, found, by omega⟩
  have given : i ∈ p.lower.transpose.col k := fills.upper ▸ mem_of_position? place
  obtain ⟨q, found⟩ := exists_position? (mem_col_upper.mp given).1
  exact ⟨q, found, (fills.source i k number place).trans found⟩

/-- The numbers found by the analysis are those of the values. -/
theorem load_eq (fills : a.Fills m.pattern) (k : Nat) (s : Partial α) :
    load a m.values k s.work = .ok (s.loaded a m k) := by
  have rows : (a.upper.col k).foldl (fun work i => work.setIfInBounds i (m.entry k i)) s.work =
      ((a.upper.col k).zipIdx (a.upper.offset k)).foldl
        (fun work cell => work.setIfInBounds cell.1 (m.entry k cell.1)) s.work := by
    rw [← List.foldl_map (f := fun cell : Nat × Nat => cell.1)
      (g := fun work i => Array.setIfInBounds work i (m.entry k i)), List.zipIdx_map_fst]
  rw [Partial.loaded, rows]
  refine Outcome.foldlM_eq_ok fun cell member work => ?_
  obtain ⟨i, number⟩ := cell
  obtain ⟨q, found, source⟩ := exists_source_eq fills member
  have known : a.source.getD number m.values.size = q := by
    rw [Array.getD_eq_getD_getElem?, source, Option.getD_some]
  have inside : q < m.values.size := m.size_values.symm ▸ position?_lt found
  have value : m.entry k i = m.values[q] := by
    simp only [SparseMatrix.entry, found, Array.getD, inside, dite_true]
    rfl
  simp only [known, Array.getElem?_eq_getElem inside, value]

theorem size_loaded (s : Partial α) : (s.loaded a m k).size = s.work.size :=
  foldl_keeps (P := fun _ (w : Array α) => w.size = s.work.size) rfl
    fun _ _ _ _ _ same => Array.size_setIfInBounds.trans same

/-- A loaded row has the entries of the matrix up to the diagonal. -/
theorem getD_loaded (fills : a.Fills m.pattern) (clear : s.work.getD i 0 = 0)
    (inside : i < s.work.size) :
    (s.loaded a m k).getD i 0 = if i ≤ k then m.entry k i else 0 := by
  have written : ∀ {rows : List Nat} {w : Array α}, i < w.size →
      (rows.foldl (fun work i => work.setIfInBounds i (m.entry k i)) w).getD i 0 =
        if i ∈ rows then m.entry k i else w.getD i 0 := by
    intro rows
    induction rows with
    | nil => simp
    | cons r rows ih =>
      intro w within
      rw [List.foldl_cons, ih (by simpa using within), getD_setIfInBounds within]
      by_cases same : i = r <;> simp [same]
  rw [Partial.loaded, written inside, clear, fills.upper]
  by_cases given : i ∈ m.pattern.lower.transpose.col k
  · rw [if_pos given, if_pos (mem_col_upper.mp given).2]
  · rw [if_neg given]
    split
    next before =>
      have none : m.pattern.position? k i = none :=
        position?_eq_none fun held => given (mem_col_upper.mpr ⟨held, before⟩)
      simp only [SparseMatrix.entry, none]
    next => rfl

/-! ### One column of a row -/

theorem cursor_self (fills : a.Fills p) (j : Nat) : a.lower.cursor j j = a.lower.offset j := by
  have none : (a.lower.col j).countP (· < j) = 0 := by
    refine List.countP_eq_zero.mpr fun i held => ?_
    simpa using ((fills.mem_iff i j).mp held).le
  rw [cursor, none, Nat.add_zero]

/-- The positions between the diagonal and the cursor are those of the rows between. -/
theorem mem_between_iff (fills : a.Fills p) (inside : j < p.nrows) {q : Nat} :
    q ∈ List.range' (a.lower.offset j + 1) (a.lower.cursor j k - (a.lower.offset j + 1)) ↔
      ∃ r ∈ a.lower.col j, j < r ∧ r < k ∧ q = a.lower.cursor j r := by
  have self := cursor_self fills j
  have next := a.lower.cursor_succ j j
  rw [if_pos ((fills.mem_iff j j).mpr (fills.fill_self inside)), self] at next
  rw [List.mem_range'_1]
  constructor
  · intro within
    have low : a.lower.offset j ≤ q := by omega
    have high : q < a.lower.cursor j k := by omega
    obtain ⟨r, held, before, rfl⟩ := exists_row_of_lt_cursor low high
    have after : ¬ r < j + 1 := by
      rw [← cursor_lt_iff held]
      omega
    exact ⟨r, held, by omega, before, rfl⟩
  · rintro ⟨r, held, after, before, rfl⟩
    have low := (cursor_lt_iff held).mpr before
    have high : ¬ a.lower.cursor j r < a.lower.cursor j (j + 1) := by
      rw [cursor_lt_iff held]
      omega
    omega

theorem row_cursor (held : i ∈ a.lower.col j) :
    a.lower.rowIndices.toArray.getD (a.lower.cursor j i) 0 = i := by
  rw [Array.getD_eq_getD_getElem?, List.getElem?_toArray,
    getElem?_rowIndices (position?_of_mem held), Option.getD_some]

/-- What the elimination of column `i` from row `k` does: its entry is stored at the cursor, its place
in the dense row is cleared, and the entry times the column is taken off. -/
structure Turn (a : Analysis) (k i : Nat) (before after : Partial α × α) (x : α) : Prop where
  values : after.1.values = before.1.values.setIfInBounds (a.lower.cursor i k) x
  next : after.1.next = before.1.next.modify i (· + 1)
  mark : after.1.mark = before.1.mark
  size_work : after.1.work.size = before.1.work.size
  diagonal : after.2 = before.2 - x * x
  work : ∀ r < before.1.work.size, after.1.work.getD r 0 =
    if r = i then 0
    else if i < r ∧ r < k ∧ r ∈ a.lower.col i then
      before.1.work.getD r 0 - before.1.entry a r i * x
    else before.1.work.getD r 0

theorem turn_eliminate (fills : a.Fills p) (inside : i < p.nrows) {acc : Partial α × α}
    (next : acc.1.next.getD i 0 = a.lower.cursor i k) :
    Turn a k i acc (eliminate a.lower.colPtrs.toArray a.lower.rowIndices.toArray acc i)
      (acc.1.work.getD i 0 / acc.1.entry a i i) := by
  have columns := fills.columns
  have first : a.lower.colPtrs.toArray.getD i 0 = a.lower.offset i := by
    simp [colPtrs, columns, Array.getD_eq_getD_getElem?, Nat.lt_succ_of_lt inside]
  have diagonal : acc.1.entry a i i = acc.1.values.getD (a.lower.offset i) 0 := by
    have held := position?_of_mem ((fills.mem_iff i i).mpr (fills.fill_self inside))
    rw [Partial.entry_of_position? held, cursor_self fills]
  rw [diagonal]
  constructor
  case values => simp only [eliminate, first, next]
  case next => rfl
  case mark => rfl
  case size_work =>
    simp only [eliminate]
    refine (size_foldl fun c q => Array.size_modify).trans Array.size_setIfInBounds
  case diagonal => simp only [eliminate, first]
  case work =>
    intro r within
    simp only [eliminate, first, next]
    by_cases same : r = i
    · subst same
      rw [if_pos rfl, getD_foldl_modify_of_forall_ne, getD_setIfInBounds within, if_pos rfl]
      intro q listed hit
      obtain ⟨r', held, after, -, rfl⟩ := (mem_between_iff fills inside).mp listed
      rw [row_cursor held] at hit
      exact Nat.ne_of_gt after hit
    have kept : (acc.1.work.setIfInBounds i 0).getD r 0 = acc.1.work.getD r 0 :=
      getD_setIfInBounds_of_ne (Ne.symm same)
    rw [if_neg same]
    by_cases between : i < r ∧ r < k ∧ r ∈ a.lower.col i
    · obtain ⟨after, before, held⟩ := between
      have listed := (mem_between_iff fills inside).mpr ⟨r, held, after, before, rfl⟩
      rw [if_pos ⟨after, before, held⟩, Partial.entry_of_position? (position?_of_mem held),
        getD_foldl_modify_of_unique List.nodup_range' listed (row_cursor held), kept]
      · intro q listed hit
        obtain ⟨r', held', -, -, rfl⟩ := (mem_between_iff fills inside).mp listed
        rw [row_cursor held'] at hit
        rw [hit]
      · simpa using within
    · rw [if_neg between, getD_foldl_modify_of_forall_ne, kept]
      intro q listed hit
      obtain ⟨r', held, after, before, rfl⟩ := (mem_between_iff fills inside).mp listed
      rw [row_cursor held] at hit
      subst hit
      exact between ⟨after, before, held⟩

/-! ### A whole row -/

/-- The columns of row `k`, in the order in which they are eliminated. -/
def Partial.row (a : Analysis) (k : Nat) (s : Partial α) : List Nat :=
  (rowReach a.upper a.parent k s.mark).1

/-- The state with row `k` in the dense row, apart from the diagonal. -/
def Partial.opened (a : Analysis) (m : SparseMatrix α) (k : Nat) (s : Partial α) : Partial α :=
  { s with
    work := (s.loaded a m k).setIfInBounds k 0
    mark := (rowReach a.upper a.parent k s.mark).2 }

/-- The state and the diagonal entry after all columns of row `k` are eliminated. -/
def Partial.reduced (a : Analysis) (m : SparseMatrix α) (k : Nat) (s : Partial α) : Partial α × α :=
  (s.row a k).foldl (eliminate a.lower.colPtrs.toArray a.lower.rowIndices.toArray)
    (s.opened a m k, (s.loaded a m k).getD k 0)

/-- The state with the diagonal entry of row `k` stored. -/
def Partial.closed (a : Analysis) (m : SparseMatrix α) (k : Nat) (s : Partial α) : Partial α :=
  { (s.reduced a m k).1 with
    values := (s.reduced a m k).1.values.setIfInBounds ((s.reduced a m k).1.next.getD k 0)
      (Scalar.sqrt (s.reduced a m k).2)
    next := (s.reduced a m k).1.next.modify k (· + 1) }

/-- A row is finished or rejected. -/
theorem factorRow_cases (fills : a.Fills m.pattern) (tolerance : α) (k : Nat) (s : Partial α) :
    (Scalar.le (s.reduced a m k).2 tolerance = false ∧
      factorRow a m.values tolerance k s = (.ok (), s.closed a m k)) ∨
    (Scalar.le (s.reduced a m k).2 tolerance = true ∧
      (factorRow a m.values tolerance k s).1 = .error (.factorization .numeric
        (.notPositiveDefinite k (Scalar.scientific (s.reduced a m k).2)))) := by
  unfold factorRow
  simp only [load_eq fills]
  by_cases small : Scalar.le (s.reduced a m k).2 tolerance = true
  · exact .inr ⟨small, congrArg Prod.fst (if_pos small)⟩
  · exact .inl ⟨Bool.eq_false_iff.mpr small, if_neg small⟩

/-- What holds when some columns of row `k` are eliminated. -/
structure Reduced (a : Analysis) (p : Pattern) (k : Nat) (reach : List Nat) (start : Partial α)
    (done : List Nat) (acc : Partial α × α) : Prop where
  size_values : acc.1.values.size = a.lower.nnz
  size_next : acc.1.next.size = p.nrows
  size_work : acc.1.work.size = p.nrows
  mark : acc.1.mark = start.mark
  next : ∀ j < p.nrows,
    acc.1.next.getD j 0 = a.lower.cursor j k + if j ∈ done then 1 else 0
  /-- Only entries of row `k` in eliminated columns are new. -/
  frame : ∀ i j, (i = k → j ∉ done) → acc.1.entry a i j = start.entry a i j
  clear : ∀ i, (i ∈ reach → i ∈ done) → acc.1.work.getD i 0 = 0

namespace Reduced

variable {reach done rest : List Nat} {start : Partial α} {acc acc' : Partial α × α} {x : α}

/-- The cursor of the column in turn has not moved yet. -/
theorem cursor (row : EliminationTree.Row p k reach) (split : reach = done ++ j :: rest)
    (reduced : Reduced a p k reach start done acc) :
    acc.1.next.getD j 0 = a.lower.cursor j k := by
  have fill := ((row.mem_iff j).mp (by simp [split])).2
  rw [reduced.next j (fill.le.trans_lt fill.lt_nrows), if_neg (notMem_of_split row.nodup split),
    Nat.add_zero]

/-- A column that is eliminated changes no column that was eliminated before it. -/
theorem step (fills : a.Fills p) (row : EliminationTree.Row p k reach)
    (split : reach = done ++ j :: rest) (reduced : Reduced a p k reach start done acc)
    (turn : Turn a k j acc acc' x) : Reduced a p k reach start (done ++ [j]) acc' := by
  have member : j ∈ reach := by simp [split]
  obtain ⟨below, fill⟩ := (row.mem_iff j).mp member
  have small : j < p.nrows := fill.le.trans_lt fill.lt_nrows
  have new := notMem_of_split row.nodup split
  have entries := Partial.entry_set reduced.size_values fills fill turn.values
  constructor
  case size_values => simp [turn.values, reduced.size_values]
  case size_next => simp [turn.next, reduced.size_next]
  case size_work => exact turn.size_work.trans reduced.size_work
  case mark => exact turn.mark.trans reduced.mark
  case next =>
    intro i inside
    rw [turn.next, getD_modify (inside.trans_eq reduced.size_next.symm), reduced.next i inside]
    by_cases same : i = j
    · subst same
      simp [new]
    · simp [same]
  case frame =>
    intro i i' other
    rw [entries, if_neg, reduced.frame i i' fun here member => other here (by simp [member])]
    rintro ⟨here, rfl⟩
    exact other here (by simp)
  case clear =>
    intro i finished
    by_cases inside : i < acc.1.work.size
    · rw [turn.work i inside]
      by_cases same : i = j
      · rw [if_pos same]
      have before : i ∈ reach → i ∈ done := fun member => by simpa [same] using finished member
      -- a row that the column reaches is above it, so it is not among those done
      have apart : ¬ (j < i ∧ i < k ∧ i ∈ a.lower.col j) := by
        rintro ⟨after, first, held⟩
        have above := (fills.mem_iff i j).mp held
        have earlier := before ((row.mem_iff i).mpr ⟨first, fill.join above after first.le⟩)
        have ordered := row.ordered
        rw [split] at ordered
        exact (List.pairwise_append.mp ordered).2.2 i earlier j List.mem_cons_self above.above
      rw [if_neg same, if_neg apart, reduced.clear i before]
    · simp [Array.getD, turn.size_work, inside]

end Reduced

namespace Partial.Sound

variable {n : Nat}

theorem row (sound : s.Sound a p.nrows k) (fills : a.Fills p) (inside : k < p.nrows) :
    EliminationTree.Row p k (s.row a k) ∧
      (s.opened a m k).mark.size = p.nrows ∧
      ∀ v b : Nat, (s.opened a m k).mark[v]? = some b → b ≤ k + 1 := by
  have found := row_rowReach fills.parent (fills.size_parent.trans sound.size_mark.symm)
    (inside.trans_eq sound.size_mark.symm) sound.marks
  rw [← fills.upper, sound.size_mark] at found
  exact found

/-- The dense row holds row `k` of the matrix before the diagonal. -/
theorem getD_opened (sound : s.Sound a m.pattern.nrows k) (fills : a.Fills m.pattern)
    (inside : k < m.pattern.nrows) (i : Nat) :
    (s.opened a m k).work.getD i 0 = if i < k then m.entry k i else 0 := by
  have size : (s.loaded a m k).size = m.pattern.nrows := (size_loaded s).trans sound.size_work
  by_cases within : i < m.pattern.nrows
  · rw [Partial.opened, getD_setIfInBounds (size.symm ▸ within),
      getD_loaded fills (sound.clear i) (sound.size_work.symm ▸ within)]
    by_cases same : i = k
    · simp [same]
    · have less : i ≤ k ↔ i < k := ⟨fun le => le.lt_of_ne same, Nat.le_of_lt⟩
      simp [same, less]
  · have outside : ¬ i < (s.opened a m k).work.size := by
      simpa [Partial.opened, size] using within
    rw [if_neg fun less => within (less.trans inside), Array.getD, dif_neg outside]

/-- The row as it is opened. -/
theorem reduced_nil (sound : s.Sound a m.pattern.nrows k) (fills : a.Fills m.pattern)
    (inside : k < m.pattern.nrows) (d : α) :
    Reduced a m.pattern k (s.row a k) (s.opened a m k) [] (s.opened a m k, d) := by
  constructor
  case size_values => exact sound.size_values
  case size_next => exact sound.size_next
  case size_work => simp [Partial.opened, size_loaded, sound.size_work]
  case mark => rfl
  case next =>
    intro j within
    rw [if_neg List.not_mem_nil, Nat.add_zero]
    exact sound.next j within
  case frame => exact fun i j _ => rfl
  case clear =>
    intro i outside
    have missing : i ∉ s.row a k := fun member => List.not_mem_nil (outside member)
    rw [sound.getD_opened fills inside]
    split
    next before =>
      have none : m.pattern.position? k i = none := position?_eq_none fun held =>
        missing (((sound.row (m := m) fills inside).1.mem_iff i).mpr ⟨before, .entry held before.le⟩)
      simp only [SparseMatrix.entry, none]
    next => rfl

/-- What holds of the opened row and is kept by every column that is eliminated holds at the end. -/
theorem induction_row (sound : s.Sound a m.pattern.nrows k) (fills : a.Fills m.pattern)
    (inside : k < m.pattern.nrows) {P : List Nat → Partial α × α → Prop}
    (start : P [] (s.opened a m k, (s.loaded a m k).getD k 0))
    (step : ∀ done j rest acc acc', s.row a k = done ++ j :: rest →
      Reduced a m.pattern k (s.row a k) (s.opened a m k) done acc →
      Turn a k j acc acc' (acc.1.work.getD j 0 / acc.1.entry a j j) → P done acc →
      P (done ++ [j]) acc') :
    Reduced a m.pattern k (s.row a k) (s.opened a m k) (s.row a k) (s.reduced a m k) ∧
      P (s.row a k) (s.reduced a m k) := by
  have row := (sound.row (m := m) fills inside).1
  refine foldl_keeps (P := fun done acc =>
    Reduced a m.pattern k (s.row a k) (s.opened a m k) done acc ∧ P done acc)
    ⟨sound.reduced_nil fills inside _, start⟩ ?_
  rintro done j rest acc split ⟨reduced, kept⟩
  have member : j ∈ s.row a k := by simp [split]
  have small : j < m.pattern.nrows := ((row.mem_iff j).mp member).1.trans inside
  have turn := turn_eliminate fills small (reduced.cursor row split)
  exact ⟨reduced.step fills row split turn, step done j rest acc _ split reduced turn kept⟩

theorem reduced (sound : s.Sound a m.pattern.nrows k) (fills : a.Fills m.pattern)
    (inside : k < m.pattern.nrows) :
    Reduced a m.pattern k (s.row a k) (s.opened a m k) (s.row a k) (s.reduced a m k) :=
  (sound.induction_row fills inside (P := fun _ _ => True) trivial
    fun _ _ _ _ _ _ _ _ _ => trivial).1

/-- The cursor of column `k` has not moved when the diagonal entry is stored. -/
theorem next_reduced (sound : s.Sound a m.pattern.nrows k) (fills : a.Fills m.pattern)
    (inside : k < m.pattern.nrows) :
    (s.reduced a m k).1.next.getD k 0 = a.lower.cursor k k := by
  have row := (sound.row (m := m) fills inside).1
  have apart : k ∉ s.row a k := fun member => Nat.lt_irrefl k ((row.mem_iff k).mp member).1
  rw [(sound.reduced fills inside).next k inside, if_neg apart, Nat.add_zero]

theorem entry_closed (sound : s.Sound a m.pattern.nrows k) (fills : a.Fills m.pattern)
    (inside : k < m.pattern.nrows) (i j : Nat) : (s.closed a m k).entry a i j =
      if i = k ∧ j = k then Scalar.sqrt (s.reduced a m k).2 else (s.reduced a m k).1.entry a i j := by
  refine Partial.entry_set (sound.reduced fills inside).size_values fills (fills.fill_self inside) ?_ i j
  rw [Partial.closed, sound.next_reduced fills inside]

/-- A finished row leaves a state as it was found. -/
theorem closed (sound : s.Sound a m.pattern.nrows k) (fills : a.Fills m.pattern)
    (inside : k < m.pattern.nrows) : (s.closed a m k).Sound a m.pattern.nrows (k + 1) := by
  have reduced := sound.reduced fills inside
  obtain ⟨row, size_mark, marks⟩ := sound.row (m := m) fills inside
  constructor
  case size_values => simp [Partial.closed, reduced.size_values]
  case size_next => simp [Partial.closed, reduced.size_next]
  case size_work => exact reduced.size_work
  case size_mark => exact (congrArg Array.size reduced.mark).trans size_mark
  case next =>
    intro j small
    have met : k ∈ a.lower.col j ↔ j = k ∨ j ∈ s.row a k := by
      rw [fills.mem_iff, row.mem_iff]
      constructor
      · exact fun fill => fill.le.eq_or_lt.imp_right fun less => ⟨less, fill⟩
      · rintro (rfl | ⟨-, fill⟩)
        · exact fills.fill_self inside
        · exact fill
    rw [Partial.closed, getD_modify (small.trans_eq reduced.size_next.symm), reduced.next j small,
      cursor_succ]
    by_cases same : j = k
    · subst same
      have apart : j ∉ s.row a j := fun member => Nat.lt_irrefl j ((row.mem_iff j).mp member).1
      simp [met, apart]
    · simp [met, same]
  case clear => exact fun i => reduced.clear i id
  case marks =>
    intro v b found
    rw [Partial.closed, reduced.mark] at found
    exact marks v b found

end Partial.Sound

/-! ### The backend -/

/-- On values for every position of the analysed pattern, the factorization decides. -/
theorem numeric_eq (fills : a.Fills m.pattern) (square : m.pattern.ncols = m.pattern.nrows)
    (options : Options α) : numeric m.pattern m.values ⟨options, some a, none⟩ =
      match factorize options a m.values with
      | .ok l => (.ok (), ⟨options, some a, some l⟩)
      | .error e => (.error e, ⟨options, some a, none⟩) := by
  have checked : Factor.accept (some a.lower.ncols) m.pattern m.values = .ok m := by
    simp [Factor.accept, fills.columns, square, SparseMatrix.ofValues, m.size_values]
  cases done : factorize options a m.values <;>
    simp only [numeric, Option.map_some, checked, Outcome.ok_bind, done]

/-- Values are refused if there is not one for every position. -/
theorem numeric_of_size_ne (fills : a.Fills p) (square : p.ncols = p.nrows) (options : Options α)
    {values : Array α} (size : values.size ≠ p.nnz) : numeric p values ⟨options, some a, none⟩ =
      (.error (.shapeMismatch [p.nnz] [values.size]), ⟨options, some a, none⟩) := by
  have refused : Factor.accept (some a.lower.ncols) p values =
      .error (.shapeMismatch [p.nnz] [values.size]) := by
    simp [Factor.accept, fills.columns, square, SparseMatrix.ofValues, size]
  simp only [numeric, Option.map_some, refused, Outcome.error_bind]

/-- Values are accepted if there is one for every position and the factorization succeeds. -/
theorem numeric_eq_ok (fills : a.Fills p) (square : p.ncols = p.nrows) (options : Options α)
    (values : Array α) : (numeric p values ⟨options, some a, none⟩).1 = .ok () ↔
      ∃ m : SparseMatrix α, m.pattern = p ∧ m.values = values ∧
        ∃ l, factorize options a m.values = .ok l := by
  by_cases size : values.size = p.nnz
  · have decided := numeric_eq (m := ⟨p, values, size⟩) fills square options
    constructor
    · intro succeeded
      rw [decided] at succeeded
      cases done : factorize options a values with
      | ok l => exact ⟨⟨p, values, size⟩, rfl, rfl, l, done⟩
      | error e =>
        rw [done] at succeeded
        cases succeeded
    · rintro ⟨⟨_, _, _⟩, rfl, rfl, l, done⟩
      rw [decided, done]
  · rw [numeric_of_size_ne fills square options size]
    constructor
    · intro succeeded
      cases succeeded
    · rintro ⟨m, rfl, rfl, -⟩
      exact absurd m.size_values size

end Cotangent.Cholesky
