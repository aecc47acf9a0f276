import Cotangent.Proofs.Exchanges
import Cotangent.Proofs.Distances

/-! The paths that the searches of a phase find. A search that succeeds exchanges a path along rising levels,
and an exchange takes the rows of the path one level down: what was one level above their columns in the
matching of the phase is now of the level of their columns. So no edge leads one level up that has not done so
before, columns without a way up keep without one, and a search never comes back to the rows and columns of an
earlier path. In the end every path of the lowest length is blocked by one that was found. -/
namespace Cotangent.Matching

variable {rows : Nat → List Nat} {nrows ncols : Nat} {m : Matching} {levels levels₁ : Levels}
  {path : List (Nat × Nat)} {edge : Nat × Nat} {found : List (List (Nat × Nat))} {done : List Nat}
  {s out : Matching × Levels} {i j k l n fuel : Nat}

/-! ### The path of one search -/

/-- What a search from column `j` of level `l` leaves when it succeeds along a path. -/
structure Followed (rows : Nat → List Nat) (m : Matching) (levels : Levels) (j l : Nat)
    (path : List (Nat × Nat)) (out : Matching × Levels) : Prop where
  first : firstColumn? path = some j
  leads : Leads rows m path
  rises : Rises levels m.rowOf.size l path
  exchanged : out.1 = m.along path
  older : Extends out.2 levels
  dead : DeadEnds rows m levels out.2

/-- What holds when some rows have been tried: a search that has succeeded has followed a path. -/
def TriedAlong (rows : Nat → List Nat) (nrows ncols : Nat) (m : Matching) (levels : Levels) (j l : Nat)
    (done : List Nat) (out : Bool × Matching × Levels) : Prop :=
  Tried rows nrows ncols m levels j l done out ∧
    (out.1 = true → ∃ path, Followed rows m levels j l path out.2)

/-- A row that is tried ends the path, or is the first step of the path found behind it. -/
theorem TriedAlong.step {go : Nat → Matching × Levels → Bool × Matching × Levels}
    {acc : Bool × Matching × Levels} (valid : m.Valid rows nrows ncols) (inside : j < ncols)
    (bound : ∀ i ∈ rows j, i < nrows)
    (ends : ∀ c levels₁, c < ncols → level levels₁ c = some (l + 1) → Faded ncols j l levels levels₁ →
      Ended rows nrows ncols m levels₁ c (l + 1) (go c (m, levels₁)))
    (goes : ∀ c levels₁, c < ncols → level levels₁ c = some (l + 1) → Faded ncols j l levels levels₁ →
      (go c (m, levels₁)).1 = true →
      ∃ path, Followed rows m levels₁ c (l + 1) path (go c (m, levels₁)).2)
    (before : level levels j = some l) (entry : i ∈ rows j)
    (tried : TriedAlong rows nrows ncols m levels j l done acc) :
    TriedAlong rows nrows ncols m levels j l (done ++ [i]) (tryRow go j acc i) := by
  refine ⟨tried.1.step valid inside bound ends entry, ?_⟩
  obtain ⟨tried, followed⟩ := tried
  obtain ⟨found, m₁, levels₁⟩ := acc
  cases found with
  | true => exact followed
  | false =>
    obtain ⟨faded, same, here, dead, -⟩ := tried
    obtain rfl : m = m₁ := same.symm
    simp only [tryRow, here, Bool.false_eq_true, ↓reduceIte, Option.map_some]
    by_cases above : level levels₁ (m.levelIndex i) = some (l + 1)
    swap
    · rw [if_neg above]
      exact fun absurd => nomatch absurd
    rw [if_pos above]
    cases matched : m.col? i with
    | none =>
      rw [levelIndex_of_free matched] at above
      exact fun _ => ⟨[(j, i)], rfl, .step entry matched .arrived,
        ⟨before, faded.extends _ _ above⟩, rfl, faded.extends, dead⟩
    | some c =>
      rw [levelIndex_of_matched matched] at above
      have went := goes c levels₁ (valid.size_rowOf ▸ valid.lt_of_col? matched) above faded
      rcases ran : go c (m, levels₁) with ⟨success, m₂, levels₂⟩
      rw [ran] at went
      simp only [ran]
      rintro rfl
      obtain ⟨path, onward⟩ := went rfl
      refine ⟨(j, i) :: path, rfl, .step entry (matched.trans onward.first.symm) onward.leads,
        ⟨before, onward.rises.extends faded.extends⟩, ?_, ?_, ?_⟩
      · have exchanged : m₂ = m.along path := onward.exchanged
        simp only [↓reduceIte, along_cons, exchanged]
      · exact fun k l' known => faded.extends k l' (onward.older k l' known)
      · exact dead.trans faded.extends onward.older onward.dead

/-- A search that succeeds exchanges a path from its column along rising levels. -/
theorem Valid.augment_follows (valid : m.Valid rows nrows ncols) (bound : ∀ j, ∀ i ∈ rows j, i < nrows)
    (inside : j < ncols) (size : levels.size = ncols + 1) (here : level levels j = some l)
    (enough : ∀ k l', level levels k = some l' → l' < l + fuel) :
    (Matching.augment rows fuel j (m, levels)).1 = true →
      ∃ path, Followed rows m levels j l path (Matching.augment rows fuel j (m, levels)).2 := by
  induction fuel generalizing j l levels with
  | zero => exact fun absurd => nomatch absurd
  | succ fuel ih =>
    have room (c : Nat) (levels₁ : Levels) (faded : Faded ncols j l levels levels₁) (k l' : Nat)
        (known : level levels₁ k = some l') : l' < l + 1 + fuel := by
      have far := enough k l' (faded.extends k l' known)
      omega
    have ends (c : Nat) (levels₁ : Levels) (inside' : c < ncols)
        (above : level levels₁ c = some (l + 1)) (faded : Faded ncols j l levels levels₁) :=
      (valid.augment bound inside' (faded.size.trans size) above (room c levels₁ faded)).1
    have goes (c : Nat) (levels₁ : Levels) (inside' : c < ncols)
        (above : level levels₁ c = some (l + 1)) (faded : Faded ncols j l levels levels₁) :=
      ih inside' (faded.size.trans size) above (room c levels₁ faded)
    have start : TriedAlong rows nrows ncols m levels j l [] (false, m, levels) :=
      ⟨⟨.refl _ _ _ _, rfl, here, .refl _ _, fun _ member => nomatch member⟩, fun absurd => nomatch absurd⟩
    have step (done : List Nat) (i : Nat) (rest : List Nat) (acc : Bool × Matching × Levels)
        (split : rows j = done ++ i :: rest)
        (tried : TriedAlong rows nrows ncols m levels j l done acc) :
        TriedAlong rows nrows ncols m levels j l (done ++ [i])
          (tryRow (Matching.augment rows fuel) j acc i) :=
      tried.step valid inside (bound j) ends goes here
        (split ▸ List.mem_append_right done List.mem_cons_self)
    rw [augment_succ]
    intro found
    simpa only [if_pos found] using (foldl_keeps start step).2 found

/-- The rows of the path have got the columns of its edges, and all others have kept theirs. -/
theorem Followed.moves (followed : Followed rows m levels j l path out)
    (bound : ∀ j, ∀ i ∈ rows j, i < nrows) (valid : m.Valid rows nrows ncols) :
    (∀ edge ∈ path, out.1.col? edge.2 = some edge.1) ∧
      ∀ i, i ∉ path.map Prod.snd → out.1.col? i = m.col? i := by
  have room (edge : Nat × Nat) (member : edge ∈ path) : edge.2 < m.colOf.size := by
    rw [valid.size_colOf]
    exact bound edge.1 edge.2 (followed.leads.climbs followed.rises member).1
  have nodup := (followed.leads.nodup followed.rises).2
  rw [followed.exchanged]
  exact ⟨fun edge member => col?_along_of_mem room nodup member, fun i off => col?_along_of_notMem room off⟩

/-! ### Exchanged rows lead no longer up -/

/-- The columns of a path of the matching that the levels belong to: none is above a column that has the row
of its edge. -/
theorem Gentle.level_le (gentle : Gentle rows m levels) (leads : Leads rows m path)
    (rises : Rises levels m.rowOf.size n path) (member : edge ∈ path) (entry : edge.2 ∈ rows k)
    (known : level levels k = some l) : ∃ a ≤ l, level levels edge.1 = some a := by
  obtain ⟨-, a, -, below, here, next⟩ := leads.climbs rises member
  refine ⟨a, ?_, here⟩
  by_contra above
  have near : nearer (some l) (level levels m.rowOf.size) = true := by
    rw [rises.level_last, nearer_some]
    omega
  obtain ⟨l', most, known'⟩ := gentle k l known near edge.2 entry
  cases next.symm.trans known'
  omega

/-- A phase that started from matching `m` and has found some paths when the turns of some columns are over.
The paths are augmenting paths of `m` apart from each other, and exactly their rows have other columns. -/
structure Traced (rows : Nat → List Nat) (m : Matching) (levels : Levels)
    (found : List (List (Nat × Nat))) (done : List Nat) (s : Matching × Levels) : Prop where
  exchanged : s.1 = found.foldl along m
  size : s.1.size = m.size + found.length
  augmenting : ∀ path ∈ found, Augmenting rows m path ∧ Rises levels m.rowOf.size 0 path
  apart : found.Pairwise Apart
  held : ∀ path ∈ found, ∀ edge ∈ path, s.1.col? edge.2 = some edge.1
  kept : ∀ i, (∀ path ∈ found, i ∉ path.map Prod.snd) → s.1.col? i = m.col? i
  free : ∀ j, s.1.row? j = none → m.row? j = none
  dead : DeadEnds rows s.1 levels s.2
  settled : ∀ j ∈ done, s.1.row? j = none → level s.2 j = none

theorem Traced.start (levels : Levels) : Traced rows m levels [] [] (m, levels) where
  exchanged := rfl
  size := rfl
  augmenting _ member := nomatch member
  apart := .nil
  held _ member := nomatch member
  kept _ _ := rfl
  free _ := id
  dead := .refl m levels
  settled _ member := nomatch member

theorem Traced.width (traced : Traced rows m levels found done s) : s.1.rowOf.size = m.rowOf.size := by
  rw [traced.exchanged]
  clear traced
  induction found generalizing m with
  | nil => rfl
  | cons path found ih => rw [List.foldl_cons, ih, size_rowOf_along]

/-- A row has the column it had, or is on a path that was found. -/
theorem Traced.row_cases (traced : Traced rows m levels found done s) (i : Nat) :
    s.1.col? i = m.col? i ∨ ∃ path ∈ found, ∃ edge ∈ path, edge.2 = i := by
  by_cases off : ∀ path ∈ found, i ∉ path.map Prod.snd
  · exact .inl (traced.kept i off)
  · push Not at off
    obtain ⟨path, among, on⟩ := off
    exact .inr ⟨path, among, List.mem_map.mp on⟩

/-- The levels of the phase are gentle for every matching in it. -/
theorem Traced.gentle (traced : Traced rows m levels found done s) (gentle : Gentle rows m levels) :
    Gentle rows s.1 levels := by
  intro k l known near i entry
  rw [traced.width] at near
  rcases traced.row_cases i with same | ⟨path, among, edge, member, rfl⟩
  · rw [levelIndex, same, traced.width]
    exact gentle k l known near i entry
  · obtain ⟨augmenting, rises⟩ := traced.augmenting path among
    obtain ⟨a, low, here⟩ := gentle.level_le augmenting.leads rises member entry known
    rw [levelIndex_of_matched (traced.held path among edge member)]
    exact ⟨a, Nat.le_succ_of_le low, here⟩

/-- A path along rising levels does not come to the rows of the paths found before. -/
theorem Traced.row_notMem (traced : Traced rows m levels found done s) (gentle : Gentle rows m levels)
    (leads : Leads rows s.1 path) (rises : Rises levels s.1.rowOf.size 0 path) (member : edge ∈ path)
    {other : List (Nat × Nat)} (among : other ∈ found) : edge.2 ∉ other.map Prod.snd := by
  intro on
  obtain ⟨edge', member', same⟩ := List.mem_map.mp on
  obtain ⟨entry, a, -, -, known, next⟩ := leads.climbs rises member
  obtain ⟨augmenting, rises'⟩ := traced.augmenting other among
  rw [← same] at entry next
  obtain ⟨a', low, here⟩ := gentle.level_le augmenting.leads rises' member' entry known
  rw [levelIndex_of_matched (traced.held other among edge' member'), here] at next
  cases next
  exact Nat.not_succ_le_self a low

/-! ### The searches of a phase -/

/-- A path along rising levels is an augmenting path of the matching that the phase started from, apart from
those found before. -/
theorem Traced.new_path (traced : Traced rows m levels found done s) (gentle : Gentle rows m levels)
    (valid : m.Valid rows nrows ncols) (valid' : s.1.Valid rows nrows ncols)
    (leads : Leads rows s.1 path) (rises : Rises levels s.1.rowOf.size 0 path) (inside : j < ncols)
    (unmatched : s.1.row? j = none) (first : firstColumn? path = some j) :
    Augmenting rows m path ∧ Rises levels m.rowOf.size 0 path ∧ ∀ other ∈ found, Apart other path := by
  have fresh (edge : Nat × Nat) (member : edge ∈ path) (other : List (Nat × Nat)) (among : other ∈ found) :
      edge.2 ∉ other.map Prod.snd := traced.row_notMem gentle leads rises member among
  have leads' : Leads rows m path := leads.of_same fun edge member =>
    (traced.kept edge.2 fun other among => fresh edge member other among).symm
  have rises' : Rises levels m.rowOf.size 0 path := traced.width ▸ rises
  refine ⟨augmenting_of_rises leads' rises' (valid.size_rowOf.symm ▸ inside) (traced.free j unmatched) first,
    rises', fun other among => ⟨?_, ?_⟩⟩
  · intro c on on'
    obtain ⟨edge, member, rfl⟩ := List.mem_map.mp on
    obtain ⟨edge', member', same⟩ := List.mem_map.mp on'
    have paired : s.1.row? edge.1 = some edge.2 :=
      (valid'.inverse _ _).mpr (traced.held other among edge member)
    rcases leads.first_or_next member' with start | ⟨before, earlier, next⟩
    · -- the path starts from an unmatched column
      cases first.symm.trans start
      rw [same, paired] at unmatched
      cases unmatched
    · -- and goes on through rows that no other path has
      rw [same] at next
      have row : edge.2 = before.2 :=
        Option.some.inj (paired.symm.trans ((valid'.inverse _ _).mpr next))
      exact fresh before earlier other among (row ▸ List.mem_map_of_mem member)
  · intro i on on'
    obtain ⟨edge, member, rfl⟩ := List.mem_map.mp on'
    exact fresh edge member other among on

/-- One more turn over: the unmatched columns among those done have no level. -/
theorem Traced.settled_append (traced : Traced rows m levels found done s) (older : Extends out.2 s.2)
    (free : ∀ k, out.1.row? k = none → s.1.row? k = none)
    (last : out.1.row? j = none → level out.2 j = none) :
    ∀ k ∈ done ++ [j], out.1.row? k = none → level out.2 k = none := by
  intro k member unmatched
  rcases List.mem_append.mp member with earlier | now
  · exact older.of_none (traced.settled k earlier (free k unmatched))
  · cases List.mem_singleton.mp now
    exact last unmatched

/-- The turn of a matched column. -/
theorem Traced.pass (traced : Traced rows m levels found done s) (matched : s.1.row? j ≠ none) :
    Traced rows m levels found (done ++ [j]) s :=
  { traced with
    settled := traced.settled_append (fun _ _ => id) (fun _ => id) fun unmatched => absurd unmatched matched }

/-- The turn of a column without a way up. -/
theorem Traced.fail (traced : Traced rows m levels found done s) (older : Extends s.2 levels)
    (older' : Extends levels₁ s.2) (lost : level levels₁ j = none) (dead : DeadEnds rows s.1 s.2 levels₁) :
    Traced rows m levels found (done ++ [j]) (s.1, levels₁) :=
  { traced with
    dead := traced.dead.trans older older' dead
    settled := traced.settled_append older' (fun _ => id) fun _ => lost }

/-- Dead ends stay dead when a path is exchanged: a row that has moved leads no column one level up. -/
theorem Traced.dead_along (traced : Traced rows m levels found done s) (gentle : Gentle rows m levels)
    (bound : ∀ j, ∀ i ∈ rows j, i < nrows) (valid' : s.1.Valid rows nrows ncols)
    (older : Extends s.2 levels) (leads : Leads rows m path) (rises : Rises levels m.rowOf.size 0 path)
    (followed : Followed rows s.1 s.2 j 0 path out) : DeadEnds rows out.1 levels out.2 := by
  obtain ⟨moved, kept⟩ := followed.moves bound valid'
  intro k l known lost i entry above
  by_cases on : i ∈ path.map Prod.snd
  · obtain ⟨edge, member, rfl⟩ := List.mem_map.mp on
    obtain ⟨a, low, here⟩ := gentle.level_le leads rises member entry known
    rw [levelIndex_of_matched (moved edge member), here] at above
    cases above
    exact absurd low (Nat.not_succ_le_self l)
  · have same : out.1.levelIndex i = s.1.levelIndex i := by
      rw [levelIndex, kept i on, followed.exchanged, size_rowOf_along]
      rfl
    rw [same] at above ⊢
    exact traced.dead.trans older followed.older followed.dead k l known lost i entry above

/-- The turn of a column from which a path is exchanged. -/
theorem Traced.succeed (traced : Traced rows m levels found done s) (gentle : Gentle rows m levels)
    (bound : ∀ j, ∀ i ∈ rows j, i < nrows) (valid : m.Valid rows nrows ncols)
    (valid' : s.1.Valid rows nrows ncols) (older : Extends s.2 levels) (inside : j < ncols)
    (unmatched : s.1.row? j = none) (followed : Followed rows s.1 s.2 j 0 path out)
    (augmented : Augmented rows nrows ncols s.1 s.2 j 0 out.1) :
    Traced rows m levels (found ++ [path]) (done ++ [j]) out := by
  obtain ⟨augmenting, rises, apart⟩ := traced.new_path gentle valid valid' followed.leads
    (followed.rises.extends older) inside unmatched followed.first
  obtain ⟨moved, kept⟩ := followed.moves bound valid'
  have unmatched_before (k : Nat) (free : out.1.row? k = none) : k ≠ j ∧ s.1.row? k = none := by
    rw [Option.eq_none_iff_forall_ne_some] at free ⊢
    have without : ¬ ∃ i, out.1.row? k = some i := fun ⟨i, matched⟩ => free i matched
    rw [augmented.matched, not_or, not_exists] at without
    exact without
  exact {
    exchanged := by
      rw [List.foldl_append, ← traced.exchanged]
      exact followed.exchanged
    size := by
      rw [augmented.size_eq unmatched, traced.size, List.length_append, List.length_singleton, Nat.add_assoc]
    augmenting := fun other among => by
      rcases List.mem_append.mp among with earlier | last
      · exact traced.augmenting other earlier
      · cases List.mem_singleton.mp last
        exact ⟨augmenting, rises⟩
    apart := by
      refine List.pairwise_append.mpr ⟨traced.apart, List.pairwise_singleton _ _, ?_⟩
      intro other among last member
      cases List.mem_singleton.mp member
      exact apart other among
    held := fun other among edge member => by
      rcases List.mem_append.mp among with earlier | last
      · rw [kept edge.2 fun on => (apart other earlier).2 (List.mem_map_of_mem member) on]
        exact traced.held other earlier edge member
      · cases List.mem_singleton.mp last
        exact moved edge member
    kept := fun i off => by
      rw [kept i (off path (List.mem_append_right found List.mem_cons_self))]
      exact traced.kept i fun other among => off other (List.mem_append_left [path] among)
    free := fun k free => traced.free k (unmatched_before k free).2
    dead := traced.dead_along gentle bound valid' older augmenting.leads rises followed
    settled := traced.settled_append followed.older (fun k free => (unmatched_before k free).2)
      fun free => absurd rfl (unmatched_before j free).1 }

/-- The paths found when the turn of column `j` comes. -/
theorem exists_traced_beforeTurn (bound : ∀ j, ∀ i ∈ rows j, i < nrows)
    (valid : m.Valid rows nrows ncols) (within : j ≤ ncols) :
    ∃ found, Traced rows m (m.levels rows) found (List.range j) (beforeTurn rows m j) := by
  have searching := valid.searched.1
  have gentle := valid.gentle_levels
  induction j with
  | zero => exact ⟨[], .start _⟩
  | succ j ih =>
    obtain ⟨found, traced⟩ := ih (Nat.le_of_succ_le within)
    have phased := phased_beforeTurn bound valid (Nat.le_of_succ_le within)
    rw [beforeTurn, List.range_succ, List.foldl_append]
    change ∃ found, Traced rows m _ found _ (Matching.turn rows (beforeTurn rows m j) j)
    cases unmatched : (beforeTurn rows m j).1.row? j with
    | some i =>
      rw [Matching.turn, unmatched]
      exact ⟨found, traced.pass (by simp [unmatched])⟩
    | none =>
      have here := phased.free j (by simp) within unmatched
      have enough (k l : Nat) (known : level (beforeTurn rows m j).2 k = some l) : l < 0 + (ncols + 1) := by
        have low := phased.level_le searching valid.size_rowOf known
        omega
      obtain ⟨⟨faded, ended⟩, -⟩ := phased.search bound searching valid.size_rowOf within here
      have follows := phased.valid.augment_follows bound within phased.size here enough
      rw [Matching.turn, unmatched, phased.valid.size_rowOf]
      split at ended
      · next success =>
        obtain ⟨path, followed⟩ := follows success
        exact ⟨found ++ [path], traced.succeed gentle bound valid phased.valid phased.older within unmatched
          followed ended⟩
      · obtain ⟨same, lost, dead⟩ := ended
        refine ⟨found, ?_⟩
        have failed := traced.fail phased.older faded.extends lost dead
        rwa [← same] at failed

/-! ### The whole phase -/

/-- A path from a dead end along rising levels ends in unmatched rows without a level. -/
theorem DeadEnds.reach_last (dead : DeadEnds rows m levels levels₁) (leads : Leads rows m path)
    (rises : Rises levels m.rowOf.size l path)
    (lost : level levels₁ ((firstColumn? path).getD m.rowOf.size) = none) :
    level levels₁ m.rowOf.size = none := by
  induction leads generalizing l with
  | arrived => exact lost
  | @step edge path entry next _ ih =>
    obtain ⟨here, onward⟩ := rises
    have index : m.levelIndex edge.2 = (firstColumn? path).getD m.rowOf.size := by rw [levelIndex, next]
    have lost' := dead edge.1 l here lost edge.2 entry (index ▸ onward.level_first)
    exact ih onward (index ▸ lost')

/-- When the turns of all columns are over, an augmenting path is longer than the level of the unmatched rows:
a path that is not would rise from a dead end. -/
theorem Traced.lt_length (traced : Traced rows m levels found (List.range ncols) s)
    (gentle : Gentle rows m levels) (searching : Searching rows m [] levels)
    (size : m.rowOf.size = ncols) (sentinel : level s.2 ncols = level levels ncols)
    (known : level levels ncols = some n) (augmenting : Augmenting rows s.1 path) : n < path.length := by
  have width : s.1.rowOf.size = ncols := traced.width.trans size
  by_contra short
  have rises := (traced.gentle gentle).rises_augmenting
    (fun j inside free => searching.free j (traced.width ▸ inside) (traced.free j free)) augmenting
    fun n' found => by
      rw [width, known] at found
      cases found
      exact Nat.not_lt.mp short
  obtain ⟨j, inside, free, first⟩ := augmenting.starts
  have lost : level s.2 ((firstColumn? path).getD s.1.rowOf.size) = none := by
    rw [first]
    exact traced.settled j (List.mem_range.mpr (width ▸ inside)) free
  have last := traced.dead.reach_last augmenting.leads rises lost
  rw [width, sentinel, known] at last
  cases last

/-- An augmenting path apart from all that were found is augmenting still. -/
theorem Traced.augmenting_of_apart (traced : Traced rows m levels found done s)
    (valid : m.Valid rows nrows ncols) (valid' : s.1.Valid rows nrows ncols)
    (augmenting : Augmenting rows m path) (apart : ∀ other ∈ found, Apart path other) :
    Augmenting rows s.1 path := by
  have kept (edge : Nat × Nat) (member : edge ∈ path) : s.1.col? edge.2 = m.col? edge.2 :=
    traced.kept edge.2 fun other among on => (apart other among).2 (List.mem_map_of_mem member) on
  obtain ⟨j, inside, free, first⟩ := augmenting.starts
  refine ⟨⟨j, traced.width.symm ▸ inside, ?_, first⟩, augmenting.leads.of_same kept,
    augmenting.columns_nodup, augmenting.rows_nodup⟩
  cases matched : s.1.row? j with
  | none => rfl
  | some i =>
    have paired := (valid'.inverse j i).mp matched
    rcases traced.row_cases i with same | ⟨other, among, edge, member, rfl⟩
    · rw [same, ← valid.inverse, free] at paired
      cases paired
    · cases (traced.held other among edge member).symm.trans paired
      have start : edge.1 ∈ path.map Prod.fst := by
        obtain ⟨head, at_head, same⟩ := Option.map_eq_some_iff.mp first
        exact List.mem_map.mpr ⟨head, List.mem_of_head? at_head, same⟩
      exact absurd (List.mem_map_of_mem member) ((apart other among).1 start)

theorem Valid.exchange_eq_beforeTurn (valid : m.Valid rows nrows ncols) :
    Matching.exchange rows (m, m.levels rows) = beforeTurn rows m ncols := by
  rw [Matching.exchange, valid.size_rowOf]
  rfl

/-- A phase with a level `n` for unmatched rows exchanges augmenting paths with `n` columns, apart from each
other, that meet every other such path, one with every new pair, and leaves only longer ones. -/
theorem Valid.exchange_exhausts (bound : ∀ j, ∀ i ∈ rows j, i < nrows) (valid : m.Valid rows nrows ncols)
    (known : level (m.levels rows) ncols = some n) :
    (∃ found, Exhausts rows m n found ∧
      (Matching.exchange rows (m, m.levels rows)).1 = found.foldl along m ∧
      (Matching.exchange rows (m, m.levels rows)).1.size = m.size + found.length) ∧
    ∀ path, Augmenting rows (Matching.exchange rows (m, m.levels rows)).1 path → n < path.length := by
  rw [valid.exchange_eq_beforeTurn]
  obtain ⟨found, traced⟩ := exists_traced_beforeTurn bound valid (Nat.le_refl ncols)
  have phased := phased_beforeTurn bound valid (Nat.le_refl ncols)
  have longer (path : List (Nat × Nat)) (augmenting : Augmenting rows (beforeTurn rows m ncols).1 path) :
      n < path.length :=
    traced.lt_length valid.gentle_levels valid.searched.1 valid.size_rowOf phased.sentinel known augmenting
  refine ⟨⟨found, ⟨fun path member => ?_, traced.apart, fun path augmenting same => ?_⟩,
    traced.exchanged, traced.size⟩, longer⟩
  · obtain ⟨augmenting, rises⟩ := traced.augmenting path member
    have last := rises.level_last
    rw [valid.size_rowOf, known, Nat.zero_add] at last
    exact ⟨augmenting, (Option.some.inj last).symm⟩
  · by_contra nowhere
    push Not at nowhere
    have left := longer path (traced.augmenting_of_apart valid phased.valid augmenting nowhere)
    omega

end Cotangent.Matching
