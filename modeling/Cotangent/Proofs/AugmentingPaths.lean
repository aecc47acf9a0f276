import Cotangent.Proofs.Levels

/-! Augmenting paths. A path is the list of its edges outside the matching, each a column with a row: the
pairs of the matching lead from the row of one edge to the column of the next. When the levels of its columns
rise one by one, a path comes to no column or row twice. Exchanging a path moves its rows, each to the column
that comes before it, and no others. -/
namespace Cotangent.Matching

variable {rows : Nat → List Nat} {m m' : Matching} {levels levels' : Levels} {path : List (Nat × Nat)}
  {edge : Nat × Nat} {i l n : Nat}

/-- The column a path starts from. -/
def firstColumn? (path : List (Nat × Nat)) : Option Nat := path.head?.map Prod.fst

@[simp] theorem firstColumn?_cons : firstColumn? (edge :: path) = some edge.1 := rfl

/-- Edges and pairs in turn: every edge goes from a column to one of its rows, the pair of the row leads to
the column of the next edge, and the row of the last edge has no column. -/
inductive Leads (rows : Nat → List Nat) (m : Matching) : List (Nat × Nat) → Prop
  | arrived : Leads rows m []
  | step {edge : Nat × Nat} {path : List (Nat × Nat)} (entry : edge.2 ∈ rows edge.1)
      (next : m.col? edge.2 = firstColumn? path) (onward : Leads rows m path) :
      Leads rows m (edge :: path)

/-- A path from an unmatched column to an unmatched row, over edges outside the matching and pairs of it in
turn, that comes to no column and no row twice. -/
structure Augmenting (rows : Nat → List Nat) (m : Matching) (path : List (Nat × Nat)) : Prop where
  starts : ∃ j < m.rowOf.size, m.row? j = none ∧ firstColumn? path = some j
  leads : Leads rows m path
  columns_nodup : (path.map Prod.fst).Nodup
  rows_nodup : (path.map Prod.snd).Nodup

/-- How many columns a shortest augmenting path has; infinity if there is no path. -/
def ShortestColumns (rows : Nat → List Nat) (m : Matching) : Option Nat → Prop
  | some n => (∃ path, Augmenting rows m path ∧ path.length = n) ∧
      ∀ path, Augmenting rows m path → n ≤ path.length
  | none => ∀ path, ¬ Augmenting rows m path

/-- No column and no row of one path is on the other. -/
def Apart (path other : List (Nat × Nat)) : Prop :=
  (path.map Prod.fst).Disjoint (other.map Prod.fst) ∧ (path.map Prod.snd).Disjoint (other.map Prod.snd)

/-- Paths that exhaust the augmenting paths with `n` columns: they are such paths, apart from each other, and
any other meets one of them. -/
structure Exhausts (rows : Nat → List Nat) (m : Matching) (n : Nat) (found : List (List (Nat × Nat))) :
    Prop where
  augmenting : ∀ path ∈ found, Augmenting rows m path ∧ path.length = n
  apart : found.Pairwise Apart
  maximal : ∀ path, Augmenting rows m path → path.length = n → ∃ other ∈ found, ¬ Apart path other

/-! ### Paths and levels -/

/-- The columns of a path have the levels from `l` on, and the unmatched rows, at index `n`, have the level
after the last of them. -/
def Rises (levels : Levels) (n : Nat) : Nat → List (Nat × Nat) → Prop
  | l, [] => level levels n = some l
  | l, edge :: path => level levels edge.1 = some l ∧ Rises levels n (l + 1) path

theorem Rises.extends (more : Extends levels levels') (rises : Rises levels n l path) :
    Rises levels' n l path := by
  induction path generalizing l with
  | nil => exact more n l rises
  | cons edge path ih => exact ⟨more edge.1 l rises.1, ih rises.2⟩

theorem Rises.level_first (rises : Rises levels n l path) :
    level levels ((firstColumn? path).getD n) = some l := by
  cases path with
  | nil => exact rises
  | cons edge path => exact rises.1

theorem Rises.level_last (rises : Rises levels n l path) : level levels n = some (l + path.length) := by
  induction path generalizing l with
  | nil => exact rises
  | cons edge path ih =>
    have last := ih rises.2
    rwa [Nat.add_right_comm] at last

/-- Levels rise along a path: the column of an edge has a level and the index of its row the next one. -/
theorem Leads.climbs (leads : Leads rows m path) (rises : Rises levels m.rowOf.size l path)
    (member : edge ∈ path) :
    edge.2 ∈ rows edge.1 ∧ ∃ a, l ≤ a ∧ a < l + path.length ∧ level levels edge.1 = some a ∧
      level levels (m.levelIndex edge.2) = some (a + 1) := by
  induction leads generalizing l with
  | arrived => cases member
  | step entry next _ ih =>
    obtain ⟨here, onward⟩ := rises
    rw [List.length_cons]
    rcases List.mem_cons.mp member with rfl | later
    · refine ⟨entry, l, Nat.le_refl l, by omega, here, ?_⟩
      rw [levelIndex, next]
      exact onward.level_first
    · obtain ⟨entry', a, above, below, known, next'⟩ := ih onward later
      exact ⟨entry', a, by omega, by omega, known, next'⟩

/-- A path along rising levels comes to no column twice and to no row twice. -/
theorem Leads.nodup (leads : Leads rows m path) (rises : Rises levels m.rowOf.size l path) :
    (path.map Prod.fst).Nodup ∧ (path.map Prod.snd).Nodup := by
  induction leads generalizing l with
  | arrived => exact ⟨List.nodup_nil, List.nodup_nil⟩
  | @step edge path _ next onward ih =>
    obtain ⟨here, later⟩ := rises
    obtain ⟨columns, rows_⟩ := ih later
    have there : level levels (m.levelIndex edge.2) = some (l + 1) := by
      rw [levelIndex, next]
      exact later.level_first
    rw [List.map_cons, List.map_cons, List.nodup_cons, List.nodup_cons]
    refine ⟨⟨fun again => ?_, columns⟩, fun again => ?_, rows_⟩
    · obtain ⟨edge', member, same⟩ := List.mem_map.mp again
      obtain ⟨-, a, above, -, known, -⟩ := onward.climbs later member
      rw [same, here] at known
      cases known
      exact Nat.not_succ_le_self l above
    · obtain ⟨edge', member, same⟩ := List.mem_map.mp again
      obtain ⟨-, a, above, -, -, known⟩ := onward.climbs later member
      rw [same, there] at known
      cases known
      exact Nat.not_succ_le_self l above

/-- A column of a path is the first, or the pair of a row of the path leads to it. -/
theorem Leads.first_or_next (leads : Leads rows m path) (member : edge ∈ path) :
    firstColumn? path = some edge.1 ∨ ∃ before ∈ path, m.col? before.2 = some edge.1 := by
  induction leads with
  | arrived => cases member
  | @step head path _ next _ ih =>
    rcases List.mem_cons.mp member with rfl | later
    · exact .inl rfl
    · right
      rcases ih later with first | ⟨before, earlier, leads_to⟩
      · exact ⟨head, List.mem_cons_self, next.trans first⟩
      · exact ⟨before, List.mem_cons_of_mem head earlier, leads_to⟩

/-- A path leads wherever its rows have the same columns. -/
theorem Leads.of_same (leads : Leads rows m path) (same : ∀ edge ∈ path, m'.col? edge.2 = m.col? edge.2) :
    Leads rows m' path := by
  induction leads with
  | arrived => exact .arrived
  | @step head path entry next _ ih =>
    exact .step entry ((same head List.mem_cons_self).trans next)
      (ih fun edge member => same edge (List.mem_cons_of_mem head member))

/-! ### Exchanged paths -/

/-- A path exchanged: its rows are paired with the columns before them, the last row first. -/
def along (m : Matching) (path : List (Nat × Nat)) : Matching :=
  path.foldr (fun edge m => m.pair edge.1 edge.2) m

theorem along_cons : m.along (edge :: path) = (m.along path).pair edge.1 edge.2 := rfl

@[simp] theorem size_rowOf_along : (m.along path).rowOf.size = m.rowOf.size := by
  induction path with
  | nil => rfl
  | cons edge path ih => rw [along_cons, size_rowOf_pair, ih]

@[simp] theorem size_colOf_along : (m.along path).colOf.size = m.colOf.size := by
  induction path with
  | nil => rfl
  | cons edge path ih => rw [along_cons, size_colOf_pair, ih]

/-- The rows of a path get the columns of their edges. -/
theorem col?_along_of_mem (bound : ∀ edge ∈ path, edge.2 < m.colOf.size)
    (nodup : (path.map Prod.snd).Nodup) (member : edge ∈ path) :
    (m.along path).col? edge.2 = some edge.1 := by
  induction path with
  | nil => cases member
  | cons head path ih =>
    rw [List.map_cons, List.nodup_cons] at nodup
    rw [along_cons, col?_pair (by simpa using bound head List.mem_cons_self)]
    rcases List.mem_cons.mp member with rfl | later
    · exact if_pos rfl
    · have apart : edge.2 ≠ head.2 := fun same => nodup.1 (same ▸ List.mem_map_of_mem later)
      rw [if_neg apart]
      exact ih (fun edge member => bound edge (List.mem_cons_of_mem head member)) nodup.2 later

/-- All other rows keep their columns. -/
theorem col?_along_of_notMem (bound : ∀ edge ∈ path, edge.2 < m.colOf.size)
    (free : i ∉ path.map Prod.snd) : (m.along path).col? i = m.col? i := by
  induction path with
  | nil => rfl
  | cons head path ih =>
    rw [List.map_cons, List.mem_cons, not_or] at free
    rw [along_cons, col?_pair (by simpa using bound head List.mem_cons_self), if_neg free.1]
    exact ih (fun edge member => bound edge (List.mem_cons_of_mem head member)) free.2

end Cotangent.Matching
