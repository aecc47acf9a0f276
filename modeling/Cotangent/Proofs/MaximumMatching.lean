import Cotangent.Proofs.Augmentation
import Cotangent.Proofs.TransposedPatterns

/-! A maximum matching. A phase that starts with a level for unmatched rows adds at least one pair:
if all its searches failed, dead ends would follow from level to level up to a column that has an
unmatched row of the next level. So there are no more phases than columns, and they end when
unmatched rows have no level, when the columns with a level show that no matching is larger. -/
namespace Cotangent.Matching

variable {rows : Nat → List Nat} {nrows ncols : Nat} {m : Matching} {levels levels' : Levels}
  {i j k l fuel : Nat}

/-! ### The loops with their counter -/

/-- One phase that counts its successful searches, with so many more steps for each search. -/
def exchangeCounting (extra : Nat) (rows : Nat → List Nat) (s : Nat × Matching × Levels) :
    Nat × Matching × Levels :=
  (List.range s.2.1.rowOf.size).foldl
    (fun s j =>
      if (s.2.1.row? j).isNone then
        let (found, t) := augment rows (s.2.1.rowOf.size + 1 + extra) j s.2
        (if found then s.1 + 1 else s.1, t)
      else s) s

/-- Phases until no unmatched row has a level, with the successful searches counted. -/
def growCounting (extra : Nat) (rows : Nat → List Nat) : Nat → Nat × Matching → Nat × Matching
  | 0, s => s
  | fuel + 1, (count, m) =>
    let levels := spread rows m (m.rowOf.size + 1 + extra) m.freeColumns m.startLevels
    if (level levels m.rowOf.size).isSome then
      let (count, m, _) := exchangeCounting extra rows (count, m, levels)
      growCounting extra rows fuel (count, m)
    else (count, m)

/-- The number of successful searches and the matching they lead to, when every loop may take so
many more steps. -/
def maximumCounting (extra nrows ncols : Nat) (rows : Nat → List Nat) : Nat × Matching :=
  if nrows = 0 ∨ ncols = 0 then (0, empty nrows ncols)
  else growCounting extra rows (ncols + 1 + extra) (0, empty nrows ncols)

/-! ### One phase -/

/-- What holds in a phase when the turns of some columns are over: nothing has changed but for dead
ends, or there are more pairs. -/
structure Phased (rows : Nat → List Nat) (nrows ncols : Nat) (m : Matching) (levels : Levels)
    (done : List Nat) (s : Matching × Levels) : Prop where
  valid : s.1.Valid rows nrows ncols
  size : s.2.size = ncols + 1
  older : Extends s.2 levels
  sentinel : level s.2 ncols = level levels ncols
  free : ∀ j, j ∉ done → j < ncols → s.1.row? j = none → level s.2 j = some 0
  progress : (s.1 = m ∧ DeadEnds rows m levels s.2 ∧
    ∀ j ∈ done, m.row? j = none → level s.2 j = none) ∨ m.size < s.1.size

theorem Phased.size_le {done : List Nat} {s : Matching × Levels}
    (phased : Phased rows nrows ncols m levels done s) : m.size ≤ s.1.size := by
  rcases phased.progress with ⟨same, -⟩ | more
  · rw [same]
  · exact more.le

theorem Phased.level_le {done : List Nat} {s : Matching × Levels}
    (phased : Phased rows nrows ncols m levels done s) (searching : Searching rows m [] levels)
    (size : m.rowOf.size = ncols) (known : level s.2 k = some l) : l ≤ ncols :=
  size ▸ searching.level_le (phased.older k l known)

/-- Searches do not touch the levels of columns whose turn is still to come. -/
theorem Phased.free_of_faded {done : List Nat} {s : Matching × Levels}
    (phased : Phased rows nrows ncols m levels done s) (faded : Faded ncols j 0 s.2 levels')
    (k : Nat) (later : k ∉ done ++ [j]) (inside : k < ncols) (unmatched : s.1.row? k = none) :
    level levels' k = some 0 := by
  obtain ⟨later, apart⟩ : k ∉ done ∧ k ≠ j := by simpa using later
  have here := phased.free k later inside unmatched
  rcases faded.fades k with same | ⟨-, -, rfl | ⟨l, positive, known⟩⟩
  · exact same.trans here
  · exact absurd rfl apart
  · rw [here] at known
    cases known
    exact absurd positive (Nat.lt_irrefl 0)

theorem Faded.sentinel (faded : Faded ncols j l levels levels') :
    level levels' ncols = level levels ncols := by
  rcases faded.fades ncols with same | ⟨-, absurd, -⟩
  · exact same
  · exact (Nat.lt_irrefl ncols absurd).elim

/-- The turn of an unmatched column. -/
theorem Phased.turn {done : List Nat} {s : Matching × Levels} {out : Bool × Matching × Levels}
    (phased : Phased rows nrows ncols m levels done s) (unmatched : s.1.row? j = none)
    (ended : Ended rows nrows ncols s.1 s.2 j 0 out) :
    Phased rows nrows ncols m levels (done ++ [j]) out.2 ∧
      out.2.1.size = s.1.size + if out.1 then 1 else 0 := by
  obtain ⟨found, m', levels'⟩ := out
  obtain ⟨faded, ended⟩ := ended
  have older : Extends levels' levels := fun k l known => phased.older k l (faded.extends k l known)
  have sentinel := faded.sentinel.trans phased.sentinel
  have size := faded.size.trans phased.size
  cases found with
  | true =>
    have counted := Augmented.size_eq ended unmatched
    refine ⟨⟨ended.valid unmatched, size, older, sentinel, fun k later inside free => ?_, ?_⟩,
      counted⟩
    · refine phased.free_of_faded faded k later inside ?_
      rw [← Option.not_isSome_iff_eq_none, Option.isSome_iff_exists] at free ⊢
      exact fun paired => free ((ended.matched k).mpr (.inr paired))
    · have before := phased.size_le
      right
      simp only at counted ⊢
      omega
  | false =>
    obtain ⟨same, lost, dead⟩ := ended
    obtain rfl : m' = s.1 := same
    refine ⟨⟨phased.valid, size, older, sentinel, phased.free_of_faded faded, ?_⟩, rfl⟩
    rcases phased.progress with ⟨same, dead', ended⟩ | more
    · rw [same] at dead
      refine .inl ⟨same, dead'.trans phased.older faded.extends dead, fun k member free => ?_⟩
      rcases List.mem_append.mp member with earlier | last
      · exact faded.extends.of_none (ended k earlier free)
      · cases List.mem_singleton.mp last
        exact lost
    · exact .inr more

/-- The turn of a matched column. -/
theorem Phased.pass {done : List Nat} {s : Matching × Levels}
    (phased : Phased rows nrows ncols m levels done s) (matched : s.1.row? j ≠ none) :
    Phased rows nrows ncols m levels (done ++ [j]) s := by
  refine { phased with
    free := fun k later => phased.free k fun earlier => later (by simp [earlier])
    progress := ?_ }
  rcases phased.progress with ⟨same, dead, ended⟩ | more
  · refine .inl ⟨same, dead, fun k member free => ?_⟩
    rcases List.mem_append.mp member with earlier | last
    · exact ended k earlier free
    · cases List.mem_singleton.mp last
      exact absurd (same ▸ free) matched
  · exact .inr more

theorem Phased.start (valid : m.Valid rows nrows ncols)
    (searching : Searching rows m [] levels) : Phased rows nrows ncols m levels [] (m, levels) where
  valid := valid
  size := valid.size_rowOf ▸ searching.size
  older _ _ := id
  sentinel := rfl
  free j _ inside free := searching.free j (valid.size_rowOf.symm ▸ inside) free
  progress := .inl ⟨rfl, .refl m levels, fun _ member => nomatch member⟩

/-- A phase with its counter, side by side with the phase. -/
theorem Valid.phase (valid : m.Valid rows nrows ncols) (bound : ∀ j, ∀ i ∈ rows j, i < nrows)
    (searching : Searching rows m [] levels) (extra count : Nat) :
    Phased rows nrows ncols m levels (List.range ncols) (exchange rows (m, levels)) ∧
      exchangeCounting extra rows (count, m, levels) =
        (count + ((exchange rows (m, levels)).1.size - m.size), exchange rows (m, levels)) := by
  rw [exchange, exchangeCounting, valid.size_rowOf]
  refine foldl_relates (List.range ncols) (R := fun done s t =>
    Phased rows nrows ncols m levels done s ∧ t = (count + (s.1.size - m.size), s))
    ⟨.start valid searching, by simp⟩ ?_
  rintro done j rest s t split ⟨phased, rfl⟩
  have inside : j < ncols := by
    have member : j ∈ List.range ncols := split ▸ List.mem_append_right done List.mem_cons_self
    exact List.mem_range.mp member
  have first := notMem_of_split List.nodup_range split
  cases unmatched : s.1.row? j with
  | some i => exact ⟨phased.pass (by simp [unmatched]), rfl⟩
  | none =>
    have enough (k l : Nat) (known : level s.2 k = some l) : l < 0 + (ncols + 1) := by
      have far := phased.level_le searching valid.size_rowOf known
      omega
    obtain ⟨ended, same⟩ := phased.valid.augment bound inside phased.size
      (phased.free j first inside unmatched) enough
    obtain ⟨next, counted⟩ := phased.turn unmatched ended
    have before := phased.size_le
    simp only [Option.isNone_none, ↓reduceIte, phased.valid.size_rowOf, same extra, Prod.mk.eta]
    refine ⟨next, Prod.ext ?_ rfl⟩
    rw [counted]
    split <;> omega

/-- A phase that starts with a level for unmatched rows adds a pair. -/
theorem Phased.size_lt (searching : Searching rows m [] levels) (size : m.rowOf.size = ncols)
    (open_ : level levels ncols ≠ none) {s : Matching × Levels}
    (phased : Phased rows nrows ncols m levels (List.range ncols) s) : m.size < s.1.size := by
  rcases phased.progress with ⟨-, dead, ended⟩ | more
  · -- the level is lost from column to column, at last for the unmatched rows
    have lost (l k : Nat) (known : level levels k = some l) : level s.2 k = none := by
      induction l generalizing k with
      | zero =>
        rcases searching.came k 0 known with ⟨-, inside, free⟩ | ⟨l, j, i, positive, -⟩
        · exact ended k (List.mem_range.mpr (size ▸ inside)) free
        · cases positive
      | succ l ih =>
        rcases searching.came k _ known with ⟨zero, -⟩ | ⟨l', j, i, same, -, before, edge, rfl⟩
        · cases zero
        · cases same
          exact dead j l before (ih j before) i edge known
    obtain ⟨l, known⟩ := Option.ne_none_iff_exists'.mp open_
    rw [← phased.sentinel, lost l ncols known] at open_
    exact absurd rfl open_
  · exact more

/-! ### All phases -/

/-- Phases end by themselves: unmatched rows have no level in the end, and further steps of any loop
change nothing. The successful searches are as many as the pairs that were added. -/
theorem Valid.grow (bound : ∀ j, ∀ i ∈ rows j, i < nrows) (valid : m.Valid rows nrows ncols)
    (enough : ncols < m.size + fuel) :
    (grow rows fuel m).Valid rows nrows ncols ∧
      level ((grow rows fuel m).levels rows) ncols = none ∧ m.size ≤ (grow rows fuel m).size ∧
      ∀ extra count, growCounting extra rows (fuel + extra) (count, m) =
        (count + ((grow rows fuel m).size - m.size), grow rows fuel m) := by
  induction fuel generalizing m with
  | zero =>
    have most := m.size_le
    rw [valid.size_rowOf] at most
    omega
  | succ fuel ih =>
    obtain ⟨searching, same⟩ := valid.searched
    rw [valid.size_rowOf] at same
    simp only [Matching.grow, Nat.add_right_comm fuel 1, growCounting, valid.size_rowOf, same]
    cases found : level (m.levels rows) ncols with
    | none => simpa using ⟨valid, found⟩
    | some l =>
      have phase := valid.phase bound searching
      have more := (phase 0 0).1.size_lt searching valid.size_rowOf (by simp [found])
      obtain ⟨valid', stopped, most, counting⟩ := ih (phase 0 0).1.valid (by omega)
      refine ⟨valid', stopped, more.le.trans most, fun extra count => ?_⟩
      simp only [Option.isSome_some, ↓reduceIte, (phase extra count).2, counting]
      refine Prod.ext ?_ rfl
      omega

theorem valid_empty (rows : Nat → List Nat) (nrows ncols : Nat) :
    (empty nrows ncols).Valid rows nrows ncols := by
  have row (j : Nat) : (empty nrows ncols).row? j = none := by
    simp only [row?, empty, Array.getElem?_replicate]
    split <;> rfl
  have col (i : Nat) : (empty nrows ncols).col? i = none := by
    simp only [col?, empty, Array.getElem?_replicate]
    split <;> rfl
  exact ⟨by simp [empty], by simp [empty], by simp [row], by simp [row, col]⟩

theorem size_empty (nrows ncols : Nat) : (empty nrows ncols).size = 0 := by
  simp [size, empty, Array.countP_replicate]

/-- The matching of a pattern pairs along it, and some closed set of columns shows that none is
larger. -/
theorem ofPattern_closed (p : Pattern) : (ofPattern p).Valid p.col p.nrows p.ncols ∧
    ∃ reached, (ofPattern p).Closed p.col reached := by
  by_cases none : p.nrows = 0 ∨ p.ncols = 0
  · have found : ofPattern p = empty p.nrows p.ncols := by simp [ofPattern, maximum, none]
    rw [found]
    refine ⟨valid_empty .., fun _ => True, fun _ _ _ => trivial, fun j _ i edge => ?_⟩
    have row := Pattern.lt_nrows_of_mem_col edge
    have column := Pattern.lt_ncols_of_mem_col edge
    omega
  · have found : ofPattern p = grow p.col (p.ncols + 1) (empty p.nrows p.ncols) := by
      simp [ofPattern, maximum, none]
    have enough : p.ncols < (empty p.nrows p.ncols).size + (p.ncols + 1) := by
      rw [size_empty]
      omega
    obtain ⟨valid, stopped, -⟩ := (valid_empty p.col p.nrows p.ncols).grow
      (fun _ _ => Pattern.lt_nrows_of_mem_col) enough
    rw [← found] at valid stopped
    exact ⟨valid, _, valid.searched.1.closed valid (valid.size_rowOf ▸ stopped)⟩

/-- The search on the columns of a pattern. -/
theorem ofPattern_maximum (p : Pattern) :
    (∀ extra, maximumCounting extra p.nrows p.ncols p.col = (p.structuralRank, ofPattern p)) ∧
    ((ofPattern p).rowOf.size = p.ncols ∧ (ofPattern p).colOf.size = p.nrows) ∧
    (∀ j i, (ofPattern p).row? j = some i → i ∈ p.col j) ∧
    (∀ j i, (ofPattern p).row? j = some i ↔ (ofPattern p).col? i = some j) ∧
    p.structuralRank =
      ((Finset.range p.ncols).filter fun j => ((ofPattern p).row? j).isSome).card ∧
    ∀ pairs, IsMatching p.col pairs → pairs.card ≤ p.structuralRank := by
  have counted : p.structuralRank = (ofPattern p).columns.card := size_eq_card
  have beyond (j : Nat) (outside : p.ncols ≤ j) : p.col j = [] :=
    List.eq_nil_iff_forall_not_mem.mpr fun i edge =>
      absurd (Pattern.lt_ncols_of_mem_col edge) (Nat.not_lt.mpr outside)
  by_cases none : p.nrows = 0 ∨ p.ncols = 0
  · have found : ofPattern p = empty p.nrows p.ncols := by simp [ofPattern, maximum, none]
    have valid := valid_empty p.col p.nrows p.ncols
    have rank : p.structuralRank = 0 := by rw [Pattern.structuralRank, found, size_empty]
    refine ⟨fun extra => by simp [maximumCounting, none, rank, found], ?_⟩
    rw [found] at counted ⊢
    refine ⟨⟨valid.size_rowOf, valid.size_colOf⟩, valid.edge, valid.inverse, ?_, ?_⟩
    · rw [counted, columns, valid.size_rowOf]
    · intro pairs independent
      have vacant : pairs = ∅ := by
        refine Finset.eq_empty_of_forall_notMem fun c member => ?_
        have edge := independent.mem c member
        have row := Pattern.lt_nrows_of_mem_col edge
        have column := Pattern.lt_ncols_of_mem_col edge
        omega
      simp [vacant]
  · have bound (j : Nat) : ∀ i ∈ p.col j, i < p.nrows := fun _ => Pattern.lt_nrows_of_mem_col
    have found : ofPattern p = grow p.col (p.ncols + 1) (empty p.nrows p.ncols) := by
      simp [ofPattern, maximum, none]
    have enough : p.ncols < (empty p.nrows p.ncols).size + (p.ncols + 1) := by
      rw [size_empty]
      omega
    obtain ⟨valid, stopped, -, counting⟩ := (valid_empty p.col p.nrows p.ncols).grow bound enough
    rw [← found] at valid stopped counting
    refine ⟨fun extra => ?_, ⟨valid.size_rowOf, valid.size_colOf⟩, valid.edge, valid.inverse, ?_,
      fun pairs independent => ?_⟩
    · simpa [maximumCounting, none, size_empty, Pattern.structuralRank] using counting extra 0
    · rw [counted, columns, valid.size_rowOf]
    · have searching := valid.searched.1
      exact valid.card_le_size (searching.closed valid (valid.size_rowOf ▸ stopped)) beyond
        independent

/-! ### The flat form -/

/-- The pointers of a pattern lead to its columns. -/
theorem rowsAt_colPtrs {p : Pattern} (inside : j < p.ncols) :
    rowsAt p.nrows p.colPtrs.toArray p.rowIndices.toArray j = .ok (p.col j) := by
  have count : p.colPtrs.length = p.ncols + 1 := p.isFlat.count
  have start : p.colPtrs.toArray[j]? = some (p.colPtrs.toArray.getD j 0) := by
    simp [Array.getD, count, Nat.lt_succ_of_lt inside]
  have stop : p.colPtrs.toArray[j + 1]? = some (p.colPtrs.toArray.getD (j + 1) 0) := by
    simp [Array.getD, count, inside]
  have column := Pattern.flatColumn_colPtrs inside
  rw [rowsAt, start, stop]
  dsimp only
  rw [Pattern.flatColumn] at column
  rw [column, if_pos ⟨p.isFlat.ordered j inside, Pattern.colPtrs_succ_le inside, fun _ =>
    Pattern.lt_nrows_of_mem_col⟩]

/-- On the arrays of a pattern, the search is the one on its columns, if there is room for it. -/
theorem ofArrays_colPtrs (p : Pattern) :
    ofArrays p.nrows p.ncols p.colPtrs.toArray p.rowIndices.toArray =
      (checkPartners p.nrows p.ncols).map fun _ => ofPattern p := by
  rw [ofArrays]
  cases checkPartners p.nrows p.ncols with
  | error e => rfl
  | ok u =>
    rw [Outcome.ok_bind, Except.map]
    by_cases none : p.nrows = 0 ∨ p.ncols = 0
    · rw [if_pos none, ofPattern, maximum, if_pos none]
      rfl
    · have columns : (List.range p.ncols).mapM
          (rowsAt p.nrows p.colPtrs.toArray p.rowIndices.toArray) = .ok p.columns.toList := by
        refine Outcome.mapM_eq_ok.mpr (List.forall₂_iff_get.mpr ⟨by simp [Pattern.ncols], ?_⟩)
        intro j inside inside'
        simp only [List.get_eq_getElem, List.getElem_range]
        rw [rowsAt_colPtrs inside']
        simp [Pattern.col, Array.getD, show j < p.columns.size from inside']
      rw [if_neg none, columns, Outcome.ok_bind, Array.toArray_toList]
      rfl

/-- Maximum matchings. On the arrays of every pattern the search finds a matching, as long as there is
room for it: both sides take two words for each partner. It pairs along the pattern, its two arrays are
inverse to each other, the structural rank is the number of its pairs, and no set of positions without a
common row or column is larger. No loop is cut short: with any number of further steps the search makes
the same searches, as many of them successful as there are pairs, and finds the same matching. -/
theorem ofArrays_maximum (p : Pattern) :
    (wordLimit ≤ 2 * max p.nrows p.ncols →
      ofArrays p.nrows p.ncols p.colPtrs.toArray p.rowIndices.toArray = .error .sizeOverflow ∧
        p.structuralRank? = .error .sizeOverflow) ∧
    (2 * max p.nrows p.ncols < wordLimit → ∃ m : Matching,
      ofArrays p.nrows p.ncols p.colPtrs.toArray p.rowIndices.toArray = .ok m ∧
        p.structuralRank? = .ok m.size ∧
        (∀ extra, maximumCounting extra p.nrows p.ncols p.col = (m.size, m)) ∧
        (m.rowOf.size = p.ncols ∧ m.colOf.size = p.nrows) ∧
        (∀ j i, m.row? j = some i → i ∈ p.col j) ∧
        (∀ j i, m.row? j = some i ↔ m.col? i = some j) ∧
        m.size = ((Finset.range p.ncols).filter fun j => (m.row? j).isSome).card ∧
        ∀ pairs, IsMatching p.col pairs → pairs.card ≤ m.size) := by
  rw [ofArrays_colPtrs, Pattern.structuralRank?, checkPartners_eq]
  refine ⟨fun crowded => ?_, fun room => ⟨ofPattern p, ?_, ?_, ofPattern_maximum p⟩⟩
  · rw [checkRoom_of_le crowded]
    exact ⟨rfl, rfl⟩
  · rw [checkRoom_of_lt room]
    rfl
  · rw [checkRoom_of_lt room]
    rfl

/-- One position in a column of `2 ^ 59` rows is a pattern, but there is no room for the partners of its
rows. -/
theorem partners_without_room :
    ∃ p, Pattern.ofArrays 576460752303423488 1 #[0, 1] #[0] = .ok p ∧
      ofArrays 576460752303423488 1 #[0, 1] #[0] = .error .sizeOverflow ∧
      p.structuralRank? = .error .sizeOverflow :=
  ⟨_, rfl, rfl, rfl⟩

end Cotangent.Matching
