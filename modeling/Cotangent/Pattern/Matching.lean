import Cotangent.Pattern.Basic

/-!
Maximum matchings between the columns and the rows of a pattern. A phase first finds, breadth
first, the level of every column: its distance from the unmatched columns along alternating paths.
It then searches every unmatched column, depth first and along increasing levels, for a path that
ends in an unmatched row, and exchanges the edges of the paths it finds. The phases end when no
unmatched row has a level. The size of the matching is the structural rank of the pattern.
-/

namespace Cotangent

/-- A partial pairing of columns with rows (`MatchingResult`). -/
structure Matching where
  /-- The row of every column. -/
  rowOf : Array (Option Nat)
  /-- The column of every row. -/
  colOf : Array (Option Nat)
  deriving DecidableEq, Repr

namespace Matching

/-- Nothing matched. -/
def empty (nrows ncols : Nat) : Matching :=
  ⟨Array.replicate ncols none, Array.replicate nrows none⟩

/-- The number of matched columns. -/
def size (m : Matching) : Nat := m.rowOf.countP Option.isSome

def row? (m : Matching) (j : Nat) : Option Nat := (m.rowOf[j]?).join

def col? (m : Matching) (i : Nat) : Option Nat := (m.colOf[i]?).join

/-- Column `j` paired with row `i`. -/
def pair (m : Matching) (j i : Nat) : Matching :=
  ⟨m.rowOf.setIfInBounds j (some i), m.colOf.setIfInBounds i (some j)⟩

/-- The levels of the columns, and last the level of the unmatched rows; none is infinity. -/
abbrev Levels := Array (Option Nat)

/-- The level at an index. -/
def level (levels : Levels) (k : Nat) : Option Nat := (levels[k]?).join

/-- The index of the level of row `i`: that of its column, or the last one if it has none. -/
def levelIndex (m : Matching) (i : Nat) : Nat := (m.col? i).getD m.rowOf.size

/-- Strictly nearer, where infinity is nearer than nothing. -/
def nearer : Option Nat → Option Nat → Bool
  | some a, some b => a < b
  | some _, none => true
  | none, _ => false

/-- Unmatched columns have level zero, all else is not reached yet. -/
def startLevels (m : Matching) : Levels :=
  (m.rowOf.map fun r => if r.isNone then some 0 else none).push none

/-- One edge of the breadth-first search, from a column of level `here` to row `i`: a level not
reached yet becomes the next one, and the column of the row joins the queue. -/
def reachRow (m : Matching) (here : Option Nat) (found : Levels × List Nat) (i : Nat) :
    Levels × List Nat :=
  let k := m.levelIndex i
  if level found.1 k = none then
    (found.1.setIfInBounds k (here.map (· + 1)), found.2 ++ (m.col? i).toList)
  else found

/-- The breadth-first search: columns of the queue in order, as long as they are nearer than the
unmatched rows. -/
def spread (rows : Nat → List Nat) (m : Matching) : Nat → List Nat → Levels → Levels
  | 0, _, levels => levels
  | _ + 1, [], levels => levels
  | fuel + 1, j :: queue, levels =>
    if nearer (level levels j) (level levels m.rowOf.size) then
      let (levels, queue) := (rows j).foldl (m.reachRow (level levels j)) (levels, queue)
      spread rows m fuel queue levels
    else spread rows m fuel queue levels

/-- The unmatched columns. -/
def freeColumns (m : Matching) : List Nat :=
  (List.range m.rowOf.size).filter fun j => (m.row? j).isNone

/-- The level of every column, and last that of the unmatched rows (`bfs`). -/
def levels (rows : Nat → List Nat) (m : Matching) : Levels :=
  spread rows m (m.rowOf.size + 1) m.freeColumns m.startLevels

/-- The depth-first search from column `j` along rows of the next level (`dfs`). A path that ends in an
unmatched row is exchanged on the way back; a column without such a path loses its level. -/
def augment (rows : Nat → List Nat) : Nat → Nat → Matching × Levels → Bool × Matching × Levels
  | 0, _, s => (false, s)
  | fuel + 1, j, s =>
    let tryRow (acc : Bool × Matching × Levels) (i : Nat) : Bool × Matching × Levels :=
      let (done, m, levels) := acc
      if done then acc
      else if level levels (m.levelIndex i) = (level levels j).map (· + 1) then
        match m.col? i with
        | none => (true, m.pair j i, levels)
        | some c =>
          let (found, m, levels) := augment rows fuel c (m, levels)
          (found, if found then m.pair j i else m, levels)
      else acc
    let (done, m, levels) := (rows j).foldl tryRow (false, s)
    (done, m, if done then levels else levels.setIfInBounds j none)

/-- One phase after the levels are known: every column that is unmatched when its turn comes. -/
def exchange (rows : Nat → List Nat) (s : Matching × Levels) : Matching × Levels :=
  (List.range s.1.rowOf.size).foldl
    (fun s j => if (s.1.row? j).isNone then (augment rows (s.1.rowOf.size + 1) j s).2 else s) s

/-- Phases until no unmatched row has a level, `fuel` at most. -/
def grow (rows : Nat → List Nat) : Nat → Matching → Matching
  | 0, m => m
  | fuel + 1, m =>
    let levels := m.levels rows
    if (level levels m.rowOf.size).isSome then grow rows fuel (exchange rows (m, levels)).1 else m

/-- A maximum matching of the columns with these rows (`hopcroft_karp`). -/
def maximum (nrows ncols : Nat) (rows : Nat → List Nat) : Matching :=
  if nrows = 0 ∨ ncols = 0 then empty nrows ncols
  else grow rows (ncols + 1) (empty nrows ncols)

/-- A maximum matching of a pattern. -/
def ofPattern (p : Pattern) : Matching := maximum p.nrows p.ncols p.col

/-- The rows of column `j` of a flat pattern, which have to exist. -/
def rowsAt (nrows : Nat) (colPtrs rowIndices : Array Nat) (j : Nat) : Except Error (List Nat) :=
  match colPtrs[j]?, colPtrs[j + 1]? with
  | some start, some stop =>
    let rows := (rowIndices.extract start stop).toList
    if start ≤ stop ∧ stop ≤ rowIndices.size ∧ ∀ i ∈ rows, i < nrows then .ok rows
    else .error .outOfRange
  | _, _ => .error .outOfRange

/-- Refuses a matching with more partners than there is room for: each takes two words. -/
def checkPartners (nrows ncols : Nat) : Except Error Unit := do
  checkRoom (2 * ncols)
  checkRoom (2 * nrows)

/-- The longer side decides. -/
theorem checkPartners_eq (nrows ncols : Nat) :
    checkPartners nrows ncols = checkRoom (2 * max nrows ncols) := by
  unfold checkPartners
  by_cases columns : 2 * ncols < wordLimit
  · rw [checkRoom_of_lt columns]
    by_cases rows : 2 * nrows < wordLimit
    · exact (checkRoom_of_lt rows).trans (checkRoom_of_lt (by omega)).symm
    · exact (checkRoom_of_le (by omega)).trans (checkRoom_of_le (by omega)).symm
  · rw [checkRoom_of_le (Nat.not_lt.mp columns)]
    exact (checkRoom_of_le (by omega)).symm

/-- A maximum matching of a flat pattern whose columns need not be increasing (`hopcroft_karp`). A
matrix without rows or without columns has nothing to read. -/
def ofArrays (nrows ncols : Nat) (colPtrs rowIndices : Array Nat) : Except Error Matching := do
  checkPartners nrows ncols
  if nrows = 0 ∨ ncols = 0 then return empty nrows ncols
  else
    let columns ← (List.range ncols).mapM (rowsAt nrows colPtrs rowIndices)
    let columns := columns.toArray
    return maximum nrows ncols (columns.getD · [])

end Matching

/-- The largest number of positions no two of which share a row or a column. -/
def Pattern.structuralRank (p : Pattern) : Nat := (Matching.ofPattern p).size

/-- The structural rank, if there is room for a matching (`Sparsity.structural_rank`). -/
def Pattern.structuralRank? (p : Pattern) : Except Error Nat :=
  (Matching.checkPartners p.nrows p.ncols).map fun _ => p.structuralRank

/-- On a square pattern the order decides whether there is room. -/
theorem Pattern.structuralRank?_of_square {p : Pattern} (square : p.ncols = p.nrows) :
    p.structuralRank? = (checkRoom (2 * p.nrows)).map fun _ => p.structuralRank := by
  rw [structuralRank?, Matching.checkPartners_eq, square, Nat.max_self]

end Cotangent
