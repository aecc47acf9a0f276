import Cotangent.Proofs.Pairing

/-! The levels of a breadth-first search. Every level comes from the level before along an edge, down
to the unmatched columns, which have level zero. If no unmatched row gets a level, the columns with
a level are a closed set, so the matching is as large as it can be. The queue never holds a column
twice, which is why the steps it is given are enough. -/
namespace Cotangent.Matching

variable {rows : Nat → List Nat} {nrows ncols : Nat} {m : Matching} {levels levels' : Levels}
  {i j k l : Nat}

theorem level_setIfInBounds (inside : k < levels.size) (x : Option Nat) :
    level (levels.setIfInBounds k x) j = if j = k then x else level levels j := by
  unfold level
  rw [Array.getElem?_setIfInBounds]
  by_cases same : k = j
  · subst same
    simp [inside]
  · simp [same, Ne.symm same]

theorem Valid.lt_of_col? (valid : m.Valid rows nrows ncols) {c : Nat} (matched : m.col? i = some c) :
    c < m.rowOf.size :=
  lt_of_row? ((valid.inverse c i).mpr matched)

theorem levelIndex_of_free (free : m.col? i = none) : m.levelIndex i = m.rowOf.size := by
  simp [levelIndex, free]

theorem levelIndex_of_matched {c : Nat} (matched : m.col? i = some c) : m.levelIndex i = c := by
  simp [levelIndex, matched]

theorem Valid.levelIndex_le (valid : m.Valid rows nrows ncols) (i : Nat) :
    m.levelIndex i ≤ m.rowOf.size := by
  cases matched : m.col? i with
  | none => exact (levelIndex_of_free matched).le
  | some c => exact levelIndex_of_matched matched ▸ (valid.lt_of_col? matched).le

/-- How an index has come to its level: as an unmatched column, or as the index of a row of a column
of the level before. -/
def Came (rows : Nat → List Nat) (m : Matching) (levels : Levels) (k l : Nat) : Prop :=
  (l = 0 ∧ k < m.rowOf.size ∧ m.row? k = none) ∨
    ∃ l' j i, l = l' + 1 ∧ j < m.rowOf.size ∧ level levels j = some l' ∧ i ∈ rows j ∧
      m.levelIndex i = k

/-- All rows of a column have been looked at. -/
def Looked (rows : Nat → List Nat) (m : Matching) (levels : Levels) (j : Nat) : Prop :=
  ∀ i ∈ rows j, level levels (m.levelIndex i) ≠ none

/-- Levels are only added. -/
def Extends (levels levels' : Levels) : Prop :=
  ∀ k l, level levels k = some l → level levels' k = some l

theorem Extends.ne_none (more : Extends levels levels') (known : level levels k ≠ none) :
    level levels' k ≠ none := by
  obtain ⟨l, known⟩ := Option.ne_none_iff_exists'.mp known
  simp [more k l known]

/-- An index without a level gets one. -/
theorem extends_setIfInBounds (inside : k < levels.size) (new : level levels k = none) (x : Option Nat) :
    Extends levels (levels.setIfInBounds k x) := by
  intro j l known
  rw [level_setIfInBounds inside, if_neg]
  · exact known
  · rintro rfl
    rw [new] at known
    cases known

/-- The search with some columns pending. As long as no unmatched row has a level, a column with a
level is pending or has been looked at. -/
structure Searching (rows : Nat → List Nat) (m : Matching) (pending : List Nat) (levels : Levels) :
    Prop where
  size : levels.size = m.rowOf.size + 1
  came : ∀ k l, level levels k = some l → Came rows m levels k l
  free : ∀ j, j < m.rowOf.size → m.row? j = none → level levels j = some 0
  pending_lt : ∀ j ∈ pending, j < m.rowOf.size
  pending_level : ∀ j ∈ pending, level levels j ≠ none
  frontier : level levels m.rowOf.size = none → ∀ j, j < m.rowOf.size → level levels j ≠ none →
    j ∈ pending ∨ Looked rows m levels j

/-- The columns without a level. -/
def unreached (n : Nat) (levels : Levels) : Finset Nat :=
  (Finset.range n).filter fun k => level levels k = none

/-- An upper bound for the columns that the search still takes from the queue. -/
def work (n : Nat) (queue : List Nat) (levels : Levels) : Nat :=
  queue.length + (unreached n levels).card

theorem unreached_set (inside : k < levels.size) {n : Nat} (l : Nat) :
    unreached n (levels.setIfInBounds k (some l)) = (unreached n levels).erase k := by
  ext j
  simp only [unreached, Finset.mem_filter, Finset.mem_range, Finset.mem_erase,
    level_setIfInBounds inside]
  by_cases same : j = k <;> simp [same]

/-- An index that gets a level is no longer without one, and the column of its row is pending. -/
theorem work_reach (valid : m.Valid rows nrows ncols) (inside : m.levelIndex i < levels.size)
    (new : level levels (m.levelIndex i) = none) (queue : List Nat) (l : Nat) :
    work m.rowOf.size (queue ++ (m.col? i).toList)
      (levels.setIfInBounds (m.levelIndex i) (some l)) = work m.rowOf.size queue levels := by
  unfold work
  rw [unreached_set inside]
  cases matched : m.col? i with
  | none =>
    rw [levelIndex_of_free matched, Finset.erase_eq_of_notMem (by simp [unreached])]
    simp
  | some c =>
    rw [levelIndex_of_matched matched] at new ⊢
    have member : c ∈ unreached m.rowOf.size levels := by
      simp [unreached, new, valid.lt_of_col? matched]
    have positive := Finset.card_pos.mpr ⟨c, member⟩
    rw [Finset.card_erase_of_mem member]
    simp only [Option.toList_some, List.length_append, List.length_singleton]
    omega

/-! ### One step -/

/-- Looking at a row of the column in hand gives the row's index a level. -/
theorem Searching.reachRow (valid : m.Valid rows nrows ncols) {queue : List Nat}
    (searching : Searching rows m (j :: queue) levels) (here : level levels j = some l)
    (edge : i ∈ rows j) :
    Searching rows m (j :: (m.reachRow (some l) (levels, queue) i).2)
        (m.reachRow (some l) (levels, queue) i).1 ∧
      Extends levels (m.reachRow (some l) (levels, queue) i).1 ∧
      level (m.reachRow (some l) (levels, queue) i).1 (m.levelIndex i) ≠ none ∧
      work m.rowOf.size (m.reachRow (some l) (levels, queue) i).2
        (m.reachRow (some l) (levels, queue) i).1 = work m.rowOf.size queue levels := by
  unfold Matching.reachRow
  by_cases new : level levels (m.levelIndex i) = none
  swap
  · simp only [new, ↓reduceIte]
    exact ⟨searching, fun _ _ => id, new, trivial⟩
  have inside : m.levelIndex i < levels.size := by
    rw [searching.size]
    exact Nat.lt_succ_of_le (valid.levelIndex_le i)
  have reads (k : Nat) := level_setIfInBounds (j := k) inside (some (l + 1))
  have more := extends_setIfInBounds inside new (some (l + 1))
  have in_hand := searching.pending_lt j (by simp)
  simp only [new, ↓reduceIte, Option.map_some]
  refine ⟨⟨by simpa using searching.size, ?_, ?_, ?_, ?_, ?_⟩, more, by simp [reads],
    work_reach valid inside new queue (l + 1)⟩
  · intro k l' known
    rw [reads] at known
    split at known
    · next same =>
      cases known
      exact .inr ⟨l, j, i, rfl, in_hand, more j l here, edge, same.symm⟩
    · rcases searching.came k l' known with start | ⟨l'', j', i', rfl, less, before, edge', index⟩
      · exact .inl start
      · exact .inr ⟨l'', j', i', rfl, less, more _ _ before, edge', index⟩
  · exact fun k less unmatched => more k 0 (searching.free k less unmatched)
  · intro k member
    rw [← List.cons_append, List.mem_append, Option.mem_toList] at member
    rcases member with old | matched
    · exact searching.pending_lt k old
    · exact valid.lt_of_col? matched
  · intro k member
    rw [← List.cons_append, List.mem_append, Option.mem_toList] at member
    rcases member with old | matched
    · exact more.ne_none (searching.pending_level k old)
    · rw [reads, levelIndex_of_matched matched, if_pos rfl]
      exact Option.some_ne_none _
  · intro blocked k less known
    rw [reads] at blocked known
    split at blocked
    · cases blocked
    · next apart =>
      cases matched : m.col? i with
      | none => exact absurd (levelIndex_of_free matched).symm apart
      | some c =>
        rw [levelIndex_of_matched matched] at known
        split at known
        · next same => simp [same]
        · rcases searching.frontier blocked k less known with pending | looked
          · exact .inl (List.mem_append_left [c] pending)
          · exact .inr fun i' edge' => more.ne_none (looked i' edge')

/-- Looking at rows of the column in hand. -/
theorem Searching.reachRows (valid : m.Valid rows nrows ncols) (here : level levels j = some l)
    {queue : List Nat} (searching : Searching rows m (j :: queue) levels) {rest : List Nat}
    (edges : ∀ i ∈ rest, i ∈ rows j) :
    Searching rows m (j :: (rest.foldl (m.reachRow (some l)) (levels, queue)).2)
        (rest.foldl (m.reachRow (some l)) (levels, queue)).1 ∧
      Extends levels (rest.foldl (m.reachRow (some l)) (levels, queue)).1 ∧
      (∀ i ∈ rest, level (rest.foldl (m.reachRow (some l)) (levels, queue)).1
        (m.levelIndex i) ≠ none) ∧
      work m.rowOf.size (rest.foldl (m.reachRow (some l)) (levels, queue)).2
        (rest.foldl (m.reachRow (some l)) (levels, queue)).1 = work m.rowOf.size queue levels := by
  induction rest generalizing levels queue with
  | nil => exact ⟨searching, fun _ _ => id, by simp, rfl⟩
  | cons i rest ih =>
    obtain ⟨first, more, looked, same⟩ := searching.reachRow valid here (edges i (by simp))
    obtain ⟨last, more', looked', same'⟩ := ih (more j l here) first
      fun i' member => edges i' (List.mem_cons_of_mem i member)
    refine ⟨last, fun k l' known => more' k l' (more k l' known), ?_, same'.trans same⟩
    intro i' member
    rcases List.mem_cons.mp member with rfl | later
    · exact more'.ne_none looked
    · exact looked' i' later

/-- A column that has been looked at, or comes too late, is no longer pending. -/
theorem Searching.drop {queue : List Nat} (searching : Searching rows m (j :: queue) levels)
    (done : level levels m.rowOf.size = none → Looked rows m levels j) :
    Searching rows m queue levels where
  size := searching.size
  came := searching.came
  free := searching.free
  pending_lt k member := searching.pending_lt k (List.mem_cons_of_mem j member)
  pending_level k member := searching.pending_level k (List.mem_cons_of_mem j member)
  frontier blocked k less known := by
    rcases searching.frontier blocked k less known with pending | looked
    · rcases List.mem_cons.mp pending with rfl | pending
      · exact .inr (done blocked)
      · exact .inl pending
    · exact .inr looked

/-! ### The whole search -/

/-- The search ends with nothing pending when its steps are enough, and further steps change
nothing. -/
theorem Searching.spread (valid : m.Valid rows nrows ncols) {fuel : Nat} {queue : List Nat}
    (searching : Searching rows m queue levels) (enough : work m.rowOf.size queue levels < fuel) :
    Searching rows m [] (spread rows m fuel queue levels) ∧
      ∀ extra, spread rows m (fuel + extra) queue levels = spread rows m fuel queue levels := by
  induction fuel generalizing queue levels with
  | zero => exact absurd enough (Nat.not_lt_zero _)
  | succ fuel ih =>
    cases queue with
    | nil => exact ⟨searching, fun extra => by rw [Nat.add_right_comm]; rfl⟩
    | cons j queue =>
      have enough' : work m.rowOf.size queue levels < fuel := by
        simp only [work, List.length_cons] at enough ⊢
        omega
      obtain ⟨l, here⟩ := Option.ne_none_iff_exists'.mp (searching.pending_level j (by simp))
      simp only [Nat.add_right_comm fuel 1, Matching.spread, here]
      by_cases near : nearer (some l) (level levels m.rowOf.size) = true
      · obtain ⟨reached, -, looked, same⟩ := searching.reachRows valid here fun _ => id
        simp only [if_pos near]
        exact ih (reached.drop fun _ => looked) (same.trans_lt enough')
      · have late : level levels m.rowOf.size ≠ none := by
          intro blocked
          simp [blocked, nearer] at near
        simp only [if_neg near]
        exact ih (searching.drop fun blocked => absurd blocked late) enough'

theorem mem_freeColumns : j ∈ m.freeColumns ↔ j < m.rowOf.size ∧ m.row? j = none := by
  simp [freeColumns]

theorem level_startLevels : level m.startLevels k = some l ↔
    k < m.rowOf.size ∧ m.row? k = none ∧ l = 0 := by
  unfold level startLevels row?
  rw [Array.getElem?_push, Array.size_map, Array.getElem?_map]
  by_cases last : k = m.rowOf.size
  · simp [last]
  · rw [if_neg last]
    cases known : m.rowOf[k]? with
    | none =>
      have outside := Array.getElem?_eq_none_iff.mp known
      simp [Nat.not_lt.mpr outside]
    | some r =>
      have inside := (Array.getElem?_eq_some_iff.mp known).1
      cases r with
      | none => simpa [inside] using eq_comm
      | some i => simp

theorem searching_start : Searching rows m m.freeColumns m.startLevels where
  size := by simp [startLevels]
  came k l known := by
    obtain ⟨inside, free, rfl⟩ := level_startLevels.mp known
    exact .inl ⟨rfl, inside, free⟩
  free j inside free := level_startLevels.mpr ⟨inside, free, rfl⟩
  pending_lt j member := (mem_freeColumns.mp member).1
  pending_level j member := by
    obtain ⟨inside, free⟩ := mem_freeColumns.mp member
    simp [level_startLevels.mpr ⟨inside, free, rfl⟩]
  frontier _ j inside known := by
    obtain ⟨l, known⟩ := Option.ne_none_iff_exists'.mp known
    exact .inl (mem_freeColumns.mpr ⟨inside, (level_startLevels.mp known).2.1⟩)

/-- The queue and the columns without a level are all columns. -/
theorem work_start : work m.rowOf.size m.freeColumns m.startLevels ≤ m.rowOf.size := by
  have none_iff (k : Nat) : level m.startLevels k = none ↔
      ¬ (k < m.rowOf.size ∧ m.row? k = none) := by
    rw [← not_iff_not, not_not, ← ne_eq, Option.ne_none_iff_exists']
    simp [level_startLevels]
  have nodup : m.freeColumns.Nodup := List.nodup_range.filter _
  rw [work, ← List.toFinset_card_of_nodup nodup, ← Finset.card_union_of_disjoint]
  · refine (Finset.card_le_card ?_).trans (Finset.card_range _).le
    intro k member
    simp only [Finset.mem_union, List.mem_toFinset, mem_freeColumns, unreached, Finset.mem_filter]
      at member
    rcases member with ⟨inside, -⟩ | ⟨inside, -⟩
    · exact Finset.mem_range.mpr inside
    · exact inside
  · refine Finset.disjoint_left.mpr ?_
    intro k free known
    simp only [unreached, Finset.mem_filter, none_iff] at known
    exact known.2 (mem_freeColumns.mp (List.mem_toFinset.mp free))

theorem Valid.searched (valid : m.Valid rows nrows ncols) :
    Searching rows m [] (m.levels rows) ∧
      ∀ extra, Matching.spread rows m (m.rowOf.size + 1 + extra) m.freeColumns m.startLevels =
        m.levels rows :=
  searching_start.spread valid (Nat.lt_succ_of_le work_start)

/-- Without a level for unmatched rows the columns with a level are a closed set. -/
theorem Searching.closed (valid : m.Valid rows nrows ncols) (searching : Searching rows m [] levels)
    (blocked : level levels m.rowOf.size = none) :
    m.Closed rows fun j => j < m.rowOf.size ∧ level levels j ≠ none where
  free j inside free := ⟨inside, by simp [searching.free j inside free]⟩
  next j reached i edge := by
    obtain ⟨inside, known⟩ := reached
    rcases searching.frontier blocked j inside known with pending | looked
    · cases pending
    · have there := looked i edge
      cases matched : m.col? i with
      | none =>
        rw [levelIndex_of_free matched] at there
        exact absurd blocked there
      | some c =>
        rw [levelIndex_of_matched matched] at there
        exact ⟨c, rfl, valid.lt_of_col? matched, there⟩

/-- Below every level there is a column of every smaller level. -/
theorem Searching.exists_of_lt {pending : List Nat} (searching : Searching rows m pending levels)
    (known : level levels k = some l) {l' : Nat} (less : l' < l) :
    ∃ j, j < m.rowOf.size ∧ level levels j = some l' := by
  induction l generalizing k with
  | zero => exact absurd less (Nat.not_lt_zero _)
  | succ l ih =>
    rcases searching.came k _ known with ⟨zero, -⟩ | ⟨l'', j, i, same, inside, before, -⟩
    · cases zero
    · cases same
      rcases Nat.lt_succ_iff_lt_or_eq.mp less with earlier | rfl
      · exact ih before earlier
      · exact ⟨j, inside, before⟩

/-- There are no more levels than columns. -/
theorem Searching.level_le {pending : List Nat} (searching : Searching rows m pending levels)
    (known : level levels k = some l) : l ≤ m.rowOf.size := by
  have onto : Set.SurjOn (fun j => (level levels j).getD 0) (Finset.range m.rowOf.size : Set Nat)
      (Finset.range l : Set Nat) := by
    intro l' less
    obtain ⟨j, inside, there⟩ := searching.exists_of_lt known (Finset.mem_range.mp less)
    exact ⟨j, Finset.mem_coe.mpr (Finset.mem_range.mpr inside), by simp [there]⟩
  simpa using Finset.card_le_card_of_surjOn _ onto

end Cotangent.Matching
