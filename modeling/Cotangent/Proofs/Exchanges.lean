import Cotangent.Proofs.MaximumMatching

/-! One search of a phase is all or nothing. The searches before it have moved pairs and taken levels away,
but the levels that are left are those of the breadth-first search, and columns whose turn is to come still
have level zero. So the search climbs from level to level and ends, with the matching as it was or with one
column and one row more; and in a phase with a level for unmatched rows some search succeeds. -/
namespace Cotangent.Matching

variable {rows : Nat → List Nat} {nrows ncols : Nat} {m m' : Matching} {levels levels₁ : Levels}
  {c i j k l top fuel : Nat}

/-! ### A search that refuses to stay on a level -/

/-- The depth-first search from column `j` of level `l` (`dfs`). It goes on from a column of a higher level,
`top` at most, and gives up when it should go on from any other. -/
def climb? (rows : Nat → List Nat) (top l j : Nat) (s : Matching × Levels) :
    Option (Bool × Matching × Levels) := do
  let (done, m, levels) ← (rows j).foldlM (fun acc i =>
    let (done, m, levels) := acc
    if done then some acc
    else if level levels (m.levelIndex i) = (level levels j).map (· + 1) then
      match m.col? i with
      | none => some (true, m.pair j i, levels)
      | some c =>
        match level levels c with
        | none => none
        | some l' =>
          if _rises : l < l' ∧ l' ≤ top then do
            let (found, m, levels) ← climb? rows top l' c (m, levels)
            return (found, if found then m.pair j i else m, levels)
          else none
    else some acc) (false, s)
  return (done, m, if done then levels else levels.setIfInBounds j none)
termination_by top - l

/-- A row tried from column `j` of level `l`, where `go` searches from the column of the row. -/
def climbRow? (go : Nat → Nat → Matching × Levels → Option (Bool × Matching × Levels)) (top l j : Nat)
    (acc : Bool × Matching × Levels) (i : Nat) : Option (Bool × Matching × Levels) :=
  if acc.1 then some acc
  else if level acc.2.2 (acc.2.1.levelIndex i) = (level acc.2.2 j).map (· + 1) then
    match acc.2.1.col? i with
    | none => some (true, acc.2.1.pair j i, acc.2.2)
    | some c =>
      match level acc.2.2 c with
      | none => none
      | some l' =>
        if l < l' ∧ l' ≤ top then do
          let (found, m, levels) ← go l' c acc.2
          return (found, if found then m.pair j i else m, levels)
        else none
  else some acc

theorem climb?_eq (s : Matching × Levels) :
    climb? rows top l j s = do
      let (done, m, levels) ← (rows j).foldlM (climbRow? (climb? rows top) top l j) (false, s)
      return (done, m, if done then levels else levels.setIfInBounds j none) := by
  rw [climb?]
  rfl

/-- The steps of a search are enough when its levels rise to `top` at most, and then they do rise. -/
theorem climb?_eq_some (valid : m.Valid rows nrows ncols) (bound : ∀ j, ∀ i ∈ rows j, i < nrows)
    (inside : j < ncols) (size : levels.size = ncols + 1) (here : level levels j = some l)
    (most : ∀ k l', level levels k = some l' → l' ≤ top) (enough : top < l + fuel) :
    climb? rows top l j (m, levels) = some (augment rows fuel j (m, levels)) := by
  induction fuel generalizing j l levels with
  | zero => exact absurd (most j l here) (by omega)
  | succ fuel ih =>
    have next (c : Nat) (levels₁ : Levels) (inside' : c < ncols)
        (above : level levels₁ c = some (l + 1)) (faded : Faded ncols j l levels levels₁) :
        climb? rows top (l + 1) c (m, levels₁) = some (augment rows fuel c (m, levels₁)) :=
      ih inside' (faded.size.trans size) above
        (fun k l' known => most k l' (faded.extends k l' known)) (by omega)
    have ended (c : Nat) (levels₁ : Levels) (inside' : c < ncols)
        (above : level levels₁ c = some (l + 1)) (faded : Faded ncols j l levels levels₁) :
        Ended rows nrows ncols m levels₁ c (l + 1) (augment rows fuel c (m, levels₁)) :=
      (valid.augment bound inside' (faded.size.trans size) above fun k l' known => by
        have low := most k l' (faded.extends k l' known)
        omega).1
    have start : Tried rows nrows ncols m levels j l [] (false, m, levels) :=
      ⟨.refl _ _ _ _, rfl, here, .refl _ _, fun _ member => nomatch member⟩
    have tried : (rows j).foldlM (climbRow? (climb? rows top) top l j) (false, m, levels) =
        some ((rows j).foldl (tryRow (augment rows fuel) j) (false, m, levels)) := by
      refine foldlM_eq_some (P := Tried rows nrows ncols m levels j l) start ?_
      intro done i rest acc split tried
      have edge : i ∈ rows j := split ▸ List.mem_append_right done List.mem_cons_self
      refine ⟨?_, tried.step valid inside (bound j) ended edge⟩
      obtain ⟨found, m₁, levels₁⟩ := acc
      cases found with
      | true => rfl
      | false =>
        obtain ⟨faded, same, here', -⟩ := tried
        obtain rfl : m = m₁ := same.symm
        simp only [climbRow?, tryRow, here', Bool.false_eq_true, ↓reduceIte, Option.map_some]
        by_cases above : level levels₁ (m.levelIndex i) = some (l + 1)
        · rw [if_pos above, if_pos above]
          cases matched : m.col? i with
          | none => rfl
          | some c =>
            rw [levelIndex_of_matched matched] at above
            have low := most c (l + 1) (faded.extends c (l + 1) above)
            have rises : l < l + 1 ∧ l + 1 ≤ top := ⟨Nat.lt_succ_self l, low⟩
            simp only [above]
            rw [if_pos rises, next c levels₁ (valid.size_rowOf ▸ valid.lt_of_col? matched) above faded]
            rfl
        · rw [if_neg above, if_neg above]
    rw [climb?_eq, augment_succ, tried]
    rfl

/-! ### The rows of a matching -/

/-- The matched rows. -/
def matchedRows (m : Matching) : Finset Nat :=
  (Finset.range m.colOf.size).filter fun i => (m.col? i).isSome

theorem mem_matchedRows : i ∈ m.matchedRows ↔ ∃ j, m.col? i = some j := by
  rw [matchedRows, Finset.mem_filter, Finset.mem_range, Option.isSome_iff_exists]
  refine and_iff_right_of_imp fun ⟨j, matched⟩ => ?_
  have at_i := Option.join_eq_some_iff.mp matched
  exact (Array.getElem?_eq_some_iff.mp at_i).1

/-- There are as many matched rows as matched columns. -/
theorem Valid.card_matchedRows (valid : m.Valid rows nrows ncols) :
    m.matchedRows.card = m.columns.card := by
  refine Finset.card_nbij' (fun i => (m.col? i).getD 0) (fun j => (m.row? j).getD 0) ?_ ?_ ?_ ?_
  · intro i member
    obtain ⟨j, matched⟩ := mem_matchedRows.mp member
    simpa [matched, mem_columns] using ⟨i, (valid.inverse j i).mpr matched⟩
  · intro j member
    obtain ⟨i, matched⟩ := mem_columns.mp member
    simpa [matched, mem_matchedRows] using ⟨j, (valid.inverse j i).mp matched⟩
  · intro i member
    obtain ⟨j, matched⟩ := mem_matchedRows.mp member
    simp [matched, (valid.inverse j i).mpr matched]
  · intro j member
    obtain ⟨i, matched⟩ := mem_columns.mp member
    simp [matched, (valid.inverse j i).mp matched]

theorem isSome_col?_pair (matched : (m.col? k).isSome = true) :
    ((m.pair j i).col? k).isSome = true := by
  by_cases inside : i < m.colOf.size
  · rw [col?_pair inside]
    split
    · rfl
    · exact matched
  · have same : (m.pair j i).colOf = m.colOf :=
      Array.setIfInBounds_eq_of_size_le (Nat.not_lt.mp inside)
    rwa [col?, same]

/-- No search leaves a row without a column. -/
theorem isSome_col?_augment (fuel j : Nat) (s : Matching × Levels)
    (matched : (s.1.col? k).isSome = true) :
    ((augment rows fuel j s).2.1.col? k).isSome = true := by
  induction fuel generalizing j s with
  | zero => exact matched
  | succ fuel ih =>
    have tried : (((rows j).foldl (tryRow (augment rows fuel) j) (false, s)).2.1.col? k).isSome =
        true := by
      refine foldl_keeps (P := fun _ (acc : Bool × Matching × Levels) => (acc.2.1.col? k).isSome = true)
        matched ?_
      intro done i rest acc _ kept
      unfold tryRow
      split
      · exact kept
      split
      · split
        · exact isSome_col?_pair kept
        · next c _ =>
          have later := ih c acc.2 kept
          dsimp only
          split
          · exact isSome_col?_pair later
          · exact later
      · exact kept
    rw [augment_succ]
    exact tried

/-- A path that is exchanged ends in one row that was unmatched. -/
theorem exists_matchedRows_eq (valid : m.Valid rows nrows ncols) (valid' : m'.Valid rows nrows ncols)
    (free : m.row? j = none) (columns : m'.columns = insert j m.columns)
    (kept : ∀ k, (m.col? k).isSome = true → (m'.col? k).isSome = true) :
    ∃ i ∉ m.matchedRows, m'.matchedRows = insert i m.matchedRows := by
  have inside : m.matchedRows ⊆ m'.matchedRows := by
    intro k member
    have matched := Option.isSome_iff_exists.mpr (mem_matchedRows.mp member)
    exact mem_matchedRows.mpr (Option.isSome_iff_exists.mp (kept k matched))
  have new : j ∉ m.columns := by
    rw [mem_columns, free]
    rintro ⟨i, ⟨⟩⟩
  have count : m.matchedRows.card + 1 = m'.matchedRows.card := by
    rw [valid.card_matchedRows, valid'.card_matchedRows, columns, Finset.card_insert_of_notMem new]
  obtain ⟨i, unmatched, same⟩ := Finset.exists_eq_insert_iff.mpr ⟨inside, count⟩
  exact ⟨i, unmatched, same.symm⟩

/-! ### The searches of a phase -/

/-- The turn of a column: it is searched if it is unmatched. -/
def turn (rows : Nat → List Nat) (s : Matching × Levels) (j : Nat) : Matching × Levels :=
  if (s.1.row? j).isNone then (augment rows (s.1.rowOf.size + 1) j s).2 else s

/-- The state of the phase that starts from a matching, when the turn of column `j` comes. -/
def beforeTurn (rows : Nat → List Nat) (m : Matching) (j : Nat) : Matching × Levels :=
  (List.range j).foldl (turn rows) (m, m.levels rows)

/-- A search in a phase finds all levels as it needs them. -/
theorem Phased.search {done : List Nat} {s : Matching × Levels} (bound : ∀ j, ∀ i ∈ rows j, i < nrows)
    (phased : Phased rows nrows ncols m levels done s) (searching : Searching rows m [] levels)
    (width : m.rowOf.size = ncols) (inside : j < ncols) (here : level s.2 j = some 0) :
    Ended rows nrows ncols s.1 s.2 j 0 (augment rows (ncols + 1) j s) ∧
      (∀ extra, augment rows (ncols + 1 + extra) j s = augment rows (ncols + 1) j s) ∧
      climb? rows ncols 0 j s = some (augment rows (ncols + 1) j s) := by
  have most (k l : Nat) (known : level s.2 k = some l) : l ≤ ncols :=
    phased.level_le searching width known
  have enough (k l : Nat) (known : level s.2 k = some l) : l < 0 + (ncols + 1) := by
    have low := most k l known
    omega
  obtain ⟨ended, same⟩ := phased.valid.augment bound inside phased.size here enough
  exact ⟨ended, same, climb?_eq_some phased.valid bound inside phased.size here most (by omega)⟩

/-- What a phase keeps, turn after turn. -/
theorem phased_beforeTurn (bound : ∀ j, ∀ i ∈ rows j, i < nrows) (valid : m.Valid rows nrows ncols)
    (within : j ≤ ncols) :
    Phased rows nrows ncols m (m.levels rows) (List.range j) (beforeTurn rows m j) := by
  have searching := valid.searched.1
  induction j with
  | zero => exact .start valid searching
  | succ j ih =>
    have phased := ih (by omega)
    rw [beforeTurn, List.range_succ, List.foldl_append]
    change Phased rows nrows ncols m _ _ (turn rows (beforeTurn rows m j) j)
    cases unmatched : (beforeTurn rows m j).1.row? j with
    | some i =>
      rw [turn, unmatched]
      exact phased.pass (by simp [unmatched])
    | none =>
      have here := phased.free j (by simp) within unmatched
      rw [turn, unmatched, phased.valid.size_rowOf]
      exact (phased.turn unmatched
        (phased.search bound searching valid.size_rowOf within here).1).1

/-- If no search before column `j` has succeeded there is no new pair. -/
theorem size_beforeTurn (bound : ∀ j, ∀ i ∈ rows j, i < nrows) (valid : m.Valid rows nrows ncols)
    (failed : ∀ k < ncols, (beforeTurn rows m k).1.row? k = none →
      (augment rows (ncols + 1) k (beforeTurn rows m k)).1 = false)
    (within : j ≤ ncols) : (beforeTurn rows m j).1.size = m.size := by
  have searching := valid.searched.1
  induction j with
  | zero => rfl
  | succ j ih =>
    have phased := phased_beforeTurn bound valid (Nat.le_of_succ_le within)
    have before := ih (by omega)
    rw [beforeTurn, List.range_succ, List.foldl_append]
    change (turn rows (beforeTurn rows m j) j).1.size = _
    cases unmatched : (beforeTurn rows m j).1.row? j with
    | some i =>
      rw [turn, unmatched]
      exact before
    | none =>
      have here := phased.free j (by simp) within unmatched
      have counted := (phased.turn unmatched
        (phased.search bound searching valid.size_rowOf within here).1).2
      rw [failed j within unmatched] at counted
      rw [turn, unmatched, phased.valid.size_rowOf]
      exact counted.trans before

/-- A search from column `j` has added the column and one row to a valid matching, or nothing. -/
def AllOrNothing (rows : Nat → List Nat) (nrows ncols : Nat) (m : Matching) (j : Nat)
    (out : Bool × Matching × Levels) : Prop :=
  if out.1 then
    out.2.1.Valid rows nrows ncols ∧ out.2.1.columns = insert j m.columns ∧
      ∃ i ∉ m.matchedRows, out.2.1.matchedRows = insert i m.matchedRows
  else out.2.1 = m

theorem Ended.allOrNothing {s : Matching × Levels} {fuel : Nat} (valid : s.1.Valid rows nrows ncols)
    (free : s.1.row? j = none) (ended : Ended rows nrows ncols s.1 s.2 j l (augment rows fuel j s)) :
    AllOrNothing rows nrows ncols s.1 j (augment rows fuel j s) := by
  have kept (k : Nat) : (s.1.col? k).isSome = true →
      ((augment rows fuel j s).2.1.col? k).isSome = true := isSome_col?_augment fuel j s
  unfold AllOrNothing
  obtain ⟨-, ended⟩ := ended
  split at ended
  · next found =>
    rw [if_pos found]
    have valid' := ended.valid free
    exact ⟨valid', ended.columns_eq, exists_matchedRows_eq valid valid' free ended.columns_eq kept⟩
  · next found =>
    rw [if_neg found]
    exact ended.1

/-- One search of a phase is all or nothing. A phase takes the columns in order, from the levels that the
breadth-first search has given to the matching it starts from. When the turn of an unmatched column comes,
the column has level zero, and the search from it ends whatever it is allowed; it only goes on to columns
of higher levels. If it succeeds the matching is valid again and has the column and exactly one row more,
if not the matching is as before. If unmatched rows have a level, some search of the phase succeeds. -/
theorem search_all_or_nothing (bound : ∀ j, ∀ i ∈ rows j, i < nrows)
    (valid : m.Valid rows nrows ncols) :
    exchange rows (m, m.levels rows) = beforeTurn rows m ncols ∧
    (∀ j < ncols, (beforeTurn rows m j).1.row? j = none →
      ∃ out, (∀ extra, augment rows (ncols + 1 + extra) j (beforeTurn rows m j) = out) ∧
        level (beforeTurn rows m j).2 j = some 0 ∧
        climb? rows ncols 0 j (beforeTurn rows m j) = some out ∧
        AllOrNothing rows nrows ncols (beforeTurn rows m j).1 j out) ∧
    (level (m.levels rows) ncols ≠ none → ∃ j < ncols, (beforeTurn rows m j).1.row? j = none ∧
      (augment rows (ncols + 1) j (beforeTurn rows m j)).1 = true) := by
  have searching := valid.searched.1
  have whole : exchange rows (m, m.levels rows) = beforeTurn rows m ncols := by
    rw [exchange, valid.size_rowOf]
    rfl
  refine ⟨whole, fun j inside unmatched => ?_, fun open_ => ?_⟩
  · have phased := phased_beforeTurn bound valid inside.le
    have here := phased.free j (by simp) inside unmatched
    obtain ⟨ended, same, climbed⟩ := phased.search bound searching valid.size_rowOf inside here
    exact ⟨_, same, here, climbed, ended.allOrNothing phased.valid unmatched⟩
  · by_contra nowhere
    have failed (j : Nat) (inside : j < ncols) (unmatched : (beforeTurn rows m j).1.row? j = none) :
        (augment rows (ncols + 1) j (beforeTurn rows m j)).1 = false := by
      by_contra found
      exact nowhere ⟨j, inside, unmatched, Bool.eq_true_of_not_eq_false found⟩
    have phased := phased_beforeTurn bound valid (Nat.le_refl ncols)
    have more := phased.size_lt searching valid.size_rowOf open_
    rw [size_beforeTurn bound valid failed (Nat.le_refl ncols)] at more
    exact Nat.lt_irrefl _ more

/-- Column 0 has two rows, column 1 has the first of them. -/
def shared (j : Nat) : List Nat := if j = 0 then [0, 1] else if j = 1 then [0] else []

/-- The first phase pairs column 0 with row 0. In the second the search from column 1 moves it to row 1. -/
theorem search_all_or_nothing_shared :
    let m := (beforeTurn shared (empty 2 2) 2).1
    m.rowOf = #[some 0, none] ∧
      ∃ out, climb? shared 2 0 1 (beforeTurn shared m 1) = some out ∧
        out.2.1.rowOf = #[some 1, some 0] ∧ AllOrNothing shared 2 2 (beforeTurn shared m 1).1 1 out := by
  have bound (j : Nat) : ∀ i ∈ shared j, i < 2 := by
    unfold shared
    split
    · simp
    · split <;> simp
  have valid := (phased_beforeTurn bound (valid_empty shared 2 2) (Nat.le_refl 2)).valid
  obtain ⟨out, same, -, climbed, settled⟩ :=
    (search_all_or_nothing bound valid).2.1 1 (by omega) (by decide +kernel)
  have found : out.2.1.rowOf = #[some 1, some 0] := by
    rw [← same 0]
    decide +kernel
  exact ⟨by decide +kernel, out, climbed, found, settled⟩

end Cotangent.Matching
