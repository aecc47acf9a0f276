import Cotangent.Proofs.AugmentingPaths

/-! The levels of a breadth-first search are distances. The queue holds its columns in the order of their
levels, and no index has a level more than one above that of a column in the queue. So levels grow by one at
most along the rows of every column that is nearer than the unmatched rows, and no path reaches an unmatched
row before its level; and as every level comes from the one before, some path does reach one at its level. -/
namespace Cotangent.Matching

variable {rows : Nat → List Nat} {nrows ncols : Nat} {m : Matching} {levels levels' : Levels}
  {path : List (Nat × Nat)} {queue : List Nat} {i j k l n : Nat}

/-- If a column of level `l` is nearer than the unmatched rows, the indices of its rows have the next level at
most. -/
def GentleAt (rows : Nat → List Nat) (m : Matching) (levels : Levels) (j l : Nat) : Prop :=
  nearer (some l) (level levels m.rowOf.size) = true →
    ∀ i ∈ rows j, ∃ l' ≤ l + 1, level levels (m.levelIndex i) = some l'

/-- Levels grow by one at most along the rows of every column nearer than the unmatched rows. -/
def Gentle (rows : Nat → List Nat) (m : Matching) (levels : Levels) : Prop :=
  ∀ j l, level levels j = some l → GentleAt rows m levels j l

theorem nearer_some : nearer (some l) (some n) = true ↔ l < n := by
  simp [nearer]

theorem GentleAt.extends (more : Extends levels levels') (gentle : GentleAt rows m levels j l) :
    GentleAt rows m levels' j l := by
  intro near i entry
  have before : nearer (some l) (level levels m.rowOf.size) = true := by
    cases known : level levels m.rowOf.size with
    | none => rfl
    | some n => rwa [more _ n known] at near
  obtain ⟨l', most, known⟩ := gentle before i entry
  exact ⟨l', most, more _ l' known⟩

/-! ### The queue of the search -/

/-- The queue goes from level to level: its columns are in the order of their levels, no level is more than
one above that of a column in the queue, and a column that has left the queue is gentle. -/
structure Layered (rows : Nat → List Nat) (m : Matching) (pending : List Nat) (levels : Levels) : Prop where
  sorted : pending.Pairwise fun a b =>
    ∀ l l', level levels a = some l → level levels b = some l' → l ≤ l'
  narrow : ∀ j ∈ pending, ∀ l, level levels j = some l → ∀ k l', level levels k = some l' → l' ≤ l + 1
  left : ∀ j l, level levels j = some l → j ∈ pending ∨ GentleAt rows m levels j l

theorem layered_start : Layered rows m m.freeColumns m.startLevels where
  sorted := by
    refine List.pairwise_of_forall fun a b l l' known known' => ?_
    rw [(level_startLevels.mp known).2.2]
    exact Nat.zero_le l'
  narrow j _ l _ k l' known := by
    rw [(level_startLevels.mp known).2.2]
    exact Nat.zero_le (l + 1)
  left j l known := by
    obtain ⟨inside, free, -⟩ := level_startLevels.mp known
    exact .inl (mem_freeColumns.mpr ⟨inside, free⟩)

/-- The column in hand is of the lowest level in the queue. -/
theorem Layered.le (layered : Layered rows m (j :: queue) levels) (here : level levels j = some l)
    (member : k ∈ j :: queue) {l' : Nat} (known : level levels k = some l') : l ≤ l' := by
  rcases List.mem_cons.mp member with rfl | later
  · cases here.symm.trans known
    exact Nat.le_refl l
  · exact (List.pairwise_cons.mp layered.sorted).1 k later l l' here known

/-- A row of the column in hand joins the queue behind columns of levels that are not higher. -/
theorem Layered.reachRow (valid : m.Valid rows nrows ncols)
    (searching : Searching rows m (j :: queue) levels) (layered : Layered rows m (j :: queue) levels)
    (here : level levels j = some l) :
    Layered rows m (j :: (m.reachRow (some l) (levels, queue) i).2)
      (m.reachRow (some l) (levels, queue) i).1 := by
  unfold Matching.reachRow
  by_cases new : level levels (m.levelIndex i) = none
  swap
  · simp only [new, ↓reduceIte]
    exact layered
  have inside : m.levelIndex i < levels.size := by
    rw [searching.size]
    exact Nat.lt_succ_of_le (valid.levelIndex_le i)
  simp only [new, ↓reduceIte, Option.map_some]
  have reads (k : Nat) := level_setIfInBounds (j := k) inside (some (l + 1))
  have more := extends_setIfInBounds inside new (some (l + 1))
  generalize levels.setIfInBounds (m.levelIndex i) (some (l + 1)) = levels' at reads more ⊢
  have held (k : Nat) (member : k ∈ j :: queue) : level levels' k = level levels k := by
    obtain ⟨l', known⟩ := Option.ne_none_iff_exists'.mp (searching.pending_level k member)
    exact (more k l' known).trans known.symm
  have low (k l' : Nat) (known : level levels' k = some l') : l' ≤ l + 1 := by
    rw [reads] at known
    split at known
    · cases known
      exact Nat.le_refl (l + 1)
    · exact layered.narrow j List.mem_cons_self l here k l' known
  have joined (k : Nat) (member : k ∈ (m.col? i).toList) : level levels' k = some (l + 1) := by
    rw [reads, if_pos (levelIndex_of_matched (Option.mem_toList.mp member)).symm]
  rw [← List.cons_append]
  refine ⟨List.pairwise_append.mpr ⟨?_, ?_, ?_⟩, ?_, ?_⟩
  · refine layered.sorted.imp_of_mem fun first second le l₁ l₂ known known' => ?_
    rw [held _ first] at known
    rw [held _ second] at known'
    exact le l₁ l₂ known known'
  · cases m.col? i <;> simp
  · intro a member c new_ l₁ l₂ known known'
    rw [joined c new_] at known'
    cases known'
    exact low a l₁ known
  · intro k member l₁ known k' l₂ known'
    have most := low k' l₂ known'
    rcases List.mem_append.mp member with old | new_
    · have above := layered.le here old (held k old ▸ known)
      omega
    · rw [joined k new_] at known
      cases known
      omega
  · intro k l' known
    have known' := known
    rw [reads] at known'
    split at known'
    · next same =>
      cases known'
      cases matched : m.col? i with
      | some c =>
        rw [levelIndex_of_matched matched] at same
        exact .inl (by simp [same])
      | none =>
        -- unmatched rows are not nearer than themselves
        rw [levelIndex_of_free matched] at same
        refine .inr fun near => ?_
        rw [← same, known, nearer_some] at near
        exact absurd near (Nat.lt_irrefl _)
    · rcases layered.left k l' known' with pending | gentle
      · exact .inl (List.mem_append_left _ pending)
      · exact .inr (gentle.extends more)

theorem Layered.reachRows (valid : m.Valid rows nrows ncols) (here : level levels j = some l)
    (searching : Searching rows m (j :: queue) levels) (layered : Layered rows m (j :: queue) levels)
    {rest : List Nat} (entries : ∀ i ∈ rest, i ∈ rows j) :
    Layered rows m (j :: (rest.foldl (m.reachRow (some l)) (levels, queue)).2)
      (rest.foldl (m.reachRow (some l)) (levels, queue)).1 := by
  induction rest generalizing levels queue with
  | nil => exact layered
  | cons i rest ih =>
    obtain ⟨next, more, -⟩ := searching.reachRow valid here (entries i List.mem_cons_self)
    exact ih (more j l here) next (layered.reachRow valid searching here)
      fun i' member => entries i' (List.mem_cons_of_mem i member)

/-- The column in hand leaves the queue when it is gentle. -/
theorem Layered.drop (layered : Layered rows m (j :: queue) levels) (here : level levels j = some l)
    (gentle : GentleAt rows m levels j l) : Layered rows m queue levels where
  sorted := (List.pairwise_cons.mp layered.sorted).2
  narrow k member := layered.narrow k (List.mem_cons_of_mem j member)
  left k l' known := by
    rcases layered.left k l' known with pending | gentle'
    · rcases List.mem_cons.mp pending with rfl | later
      · cases here.symm.trans known
        exact .inr gentle
      · exact .inl later
    · exact .inr gentle'

/-- With steps enough the search leaves gentle levels. -/
theorem Layered.spread (valid : m.Valid rows nrows ncols) {fuel : Nat}
    (searching : Searching rows m queue levels) (layered : Layered rows m queue levels)
    (enough : work m.rowOf.size queue levels < fuel) :
    Layered rows m [] (spread rows m fuel queue levels) := by
  induction fuel generalizing queue levels with
  | zero => exact absurd enough (Nat.not_lt_zero _)
  | succ fuel ih =>
    cases queue with
    | nil => exact layered
    | cons j queue =>
      have enough' : work m.rowOf.size queue levels < fuel := by
        simp only [work, List.length_cons] at enough ⊢
        omega
      obtain ⟨l, here⟩ :=
        Option.ne_none_iff_exists'.mp (searching.pending_level j List.mem_cons_self)
      simp only [Matching.spread, here]
      by_cases near : nearer (some l) (level levels m.rowOf.size) = true
      · obtain ⟨reached, more, looked, same⟩ := searching.reachRows valid here fun _ => id
        have layered' := layered.reachRows valid here searching fun _ => id
        have gentle : GentleAt rows m ((rows j).foldl (m.reachRow (some l)) (levels, queue)).1 j l := by
          intro _ i entry
          obtain ⟨l', known⟩ := Option.ne_none_iff_exists'.mp (looked i entry)
          exact ⟨l', layered'.narrow j List.mem_cons_self l (more j l here) _ l' known, known⟩
        simp only [if_pos near]
        exact ih (reached.drop fun _ => looked) (layered'.drop (more j l here) gentle)
          (same.trans_lt enough')
      · have late : level levels m.rowOf.size ≠ none := by
          intro blocked
          simp [blocked, nearer] at near
        simp only [if_neg near]
        exact ih (searching.drop fun blocked => absurd blocked late)
          (layered.drop here fun near' => absurd near' near) enough'

theorem Valid.gentle_levels (valid : m.Valid rows nrows ncols) : Gentle rows m (m.levels rows) := by
  have layered : Layered rows m [] (m.levels rows) :=
    layered_start.spread valid searching_start (Nat.lt_succ_of_le work_start)
  intro j l known
  rcases layered.left j l known with pending | gentle
  · cases pending
  · exact gentle

/-! ### Shortest paths -/

/-- A path that is not longer than the levels allow rises by one with every edge. -/
theorem Gentle.rises (gentle : Gentle rows m levels) (leads : Leads rows m path)
    (here : level levels ((firstColumn? path).getD m.rowOf.size) = some l)
    (short : ∀ n, level levels m.rowOf.size = some n → l + path.length ≤ n) :
    Rises levels m.rowOf.size l path := by
  induction leads generalizing l with
  | arrived => exact here
  | @step edge path entry next onward ih =>
    rw [List.length_cons] at short
    have near : nearer (some l) (level levels m.rowOf.size) = true := by
      cases known : level levels m.rowOf.size with
      | none => rfl
      | some n =>
        have far := short n known
        exact nearer_some.mpr (by omega)
    obtain ⟨l', most, there⟩ := gentle edge.1 l here near edge.2 entry
    rw [levelIndex, next] at there
    have rises := ih there fun n known => by
      have far := short n known
      omega
    have far := short _ rises.level_last
    obtain rfl : l' = l + 1 := by omega
    exact ⟨here, rises⟩

/-- A path that is not longer than the level of the unmatched rows rises from level zero. -/
theorem Gentle.rises_augmenting (gentle : Gentle rows m levels)
    (free : ∀ j < m.rowOf.size, m.row? j = none → level levels j = some 0)
    (augmenting : Augmenting rows m path)
    (short : ∀ n, level levels m.rowOf.size = some n → path.length ≤ n) :
    Rises levels m.rowOf.size 0 path := by
  obtain ⟨j, inside, unmatched, first⟩ := augmenting.starts
  refine gentle.rises augmenting.leads ?_ fun n known => ?_
  · rw [first]
    exact free j inside unmatched
  · rw [Nat.zero_add]
    exact short n known

theorem augmenting_of_rises (leads : Leads rows m path) (rises : Rises levels m.rowOf.size 0 path)
    (inside : j < m.rowOf.size) (unmatched : m.row? j = none) (first : firstColumn? path = some j) :
    Augmenting rows m path :=
  have nodup := leads.nodup rises
  ⟨⟨j, inside, unmatched, first⟩, leads, nodup.1, nodup.2⟩

/-- Every path that rises from a level of the search can be led back to an unmatched column. -/
theorem Searching.exists_augmenting (valid : m.Valid rows nrows ncols) {pending : List Nat}
    (searching : Searching rows m pending levels) (leads : Leads rows m path)
    (rises : Rises levels m.rowOf.size l path) (known : level levels k = some l)
    (first : firstColumn? path = if k = m.rowOf.size then none else some k) :
    ∃ path', Augmenting rows m path' ∧ path'.length = l + path.length := by
  induction l generalizing k path with
  | zero =>
    rcases searching.came k 0 known with ⟨-, inside, free⟩ | ⟨l', _, _, positive, -⟩
    · rw [if_neg inside.ne] at first
      exact ⟨path, augmenting_of_rises leads rises inside free first, (Nat.zero_add _).symm⟩
    · cases positive
  | succ l ih =>
    rcases searching.came k _ known with ⟨zero, -⟩ | ⟨l', j, i, same, inside, before, entry, index⟩
    · cases zero
    · cases same
      have next : m.col? i = firstColumn? path := by
        rw [first, ← index]
        cases matched : m.col? i with
        | none => rw [levelIndex_of_free matched, if_pos rfl]
        | some c => rw [levelIndex_of_matched matched, if_neg (valid.lt_of_col? matched).ne]
      have leads' : Leads rows m ((j, i) :: path) := .step entry next leads
      obtain ⟨path', augmenting, count⟩ :=
        ih leads' ⟨before, rises⟩ before (by rw [if_neg inside.ne, firstColumn?_cons])
      refine ⟨path', augmenting, count.trans ?_⟩
      rw [List.length_cons]
      omega

/-- The level of the unmatched rows is the number of columns on a shortest augmenting path. -/
theorem Valid.shortestColumns (valid : m.Valid rows nrows ncols) :
    ShortestColumns rows m (level (m.levels rows) m.rowOf.size) := by
  have searching := valid.searched.1
  have gentle := valid.gentle_levels
  cases known : level (m.levels rows) m.rowOf.size with
  | none =>
    intro path augmenting
    have rises := gentle.rises_augmenting searching.free augmenting fun n found => by
      rw [known] at found
      cases found
    rw [rises.level_last] at known
    cases known
  | some n =>
    refine ⟨searching.exists_augmenting valid .arrived known known (if_pos rfl).symm,
      fun path augmenting => ?_⟩
    by_contra short
    have rises := gentle.rises_augmenting searching.free augmenting fun n' found => by
      cases known.symm.trans found
      omega
    cases known.symm.trans rises.level_last
    omega

end Cotangent.Matching
