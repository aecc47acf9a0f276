import Mathlib.Data.List.Chain
import Cotangent.Proofs.FoundPaths

/-! Phases make progress. The level that a breadth-first search gives to the unmatched rows is the number of
columns on a shortest augmenting path of the matching at hand. The searches of the phase exchange a maximal
set of such paths, so the next level is higher, until there is no path left. -/
namespace Cotangent.Matching

variable {rows : Nat → List Nat} {nrows ncols : Nat} {m : Matching} {phases : List (Matching × Levels)}
  {result : Matching} {n fuel : Nat}

/-- Phases until no unmatched row has a level (`hopcroft_karp`). Noted are the matching and the levels after
each breadth-first search, and last the matching that is left. Every loop may take so many more steps. -/
def growNoting (extra : Nat) (rows : Nat → List Nat) : Nat → Matching → List (Matching × Levels) × Matching
  | 0, m => ([], m)
  | fuel + 1, m =>
    let levels := spread rows m (m.rowOf.size + 1 + extra) m.freeColumns m.startLevels
    if (level levels m.rowOf.size).isSome then
      let (_, m', _) := exchangeCounting extra rows (0, m, levels)
      let (later, result) := growNoting extra rows fuel m'
      ((m, levels) :: later, result)
    else ([(m, levels)], m)

/-- The breadth-first searches on the way to a maximum matching, and the matching. -/
def maximumNoting (extra nrows ncols : Nat) (rows : Nat → List Nat) : List (Matching × Levels) × Matching :=
  if nrows = 0 ∨ ncols = 0 then ([], empty nrows ncols)
  else growNoting extra rows (ncols + 1 + extra) (empty nrows ncols)

/-- From a phase to the next: the searches of the phase that succeed exchange one path each, the paths exhaust
the shortest augmenting paths, and the unmatched rows move farther away. -/
structure Lengthens (rows : Nat → List Nat) (ncols : Nat) (s t : Matching × Levels) : Prop where
  next : t.1 = (exchange rows s).1
  exhausted : ∃ n found, level s.2 ncols = some n ∧ Exhausts rows s.1 n found ∧
    (exchange rows s).1 = found.foldl along s.1 ∧ (exchangeCounting 0 rows (0, s)).1 = found.length
  farther : nearer (level s.2 ncols) (level t.2 ncols) = true

/-- The breadth-first searches of all phases from matching `m` to the result: every level of the unmatched rows
is the number of columns on a shortest augmenting path of the matching at hand, every phase lengthens it, and
the last search finds no path. -/
structure Lengthening (rows : Nat → List Nat) (ncols : Nat) (m : Matching)
    (phases : List (Matching × Levels)) (result : Matching) : Prop where
  start : phases.head? = some (m, m.levels rows)
  searched : ∀ s ∈ phases, s.2 = s.1.levels rows
  shortest : ∀ s ∈ phases, ShortestColumns rows s.1 (level s.2 ncols)
  lengthens : phases.IsChain (Lengthens rows ncols)
  last : ∃ s, phases.getLast? = some s ∧ s.1 = result ∧ level s.2 ncols = none

/-- The unmatched rows are farther away when every augmenting path is longer. -/
theorem nearer_of_longer {x : Option Nat} (shortest : ShortestColumns rows m x)
    (longer : ∀ path, Augmenting rows m path → n < path.length) : nearer (some n) x = true := by
  cases x with
  | none => rfl
  | some n' =>
    obtain ⟨⟨path, augmenting, same⟩, -⟩ := shortest
    exact nearer_some.mpr (same ▸ longer path augmenting)

/-- A search that finds no path is the last one. -/
theorem Lengthening.single (valid : m.Valid rows nrows ncols)
    (known : level (m.levels rows) ncols = none) : Lengthening rows ncols m [(m, m.levels rows)] m where
  start := rfl
  searched s member := by
    cases List.mem_singleton.mp member
    rfl
  shortest s member := by
    cases List.mem_singleton.mp member
    exact valid.size_rowOf ▸ valid.shortestColumns
  lengthens := .singleton _
  last := ⟨_, rfl, rfl, known⟩

/-- A phase that finds paths comes before phases that lengthen. -/
theorem Lengthening.cons (bound : ∀ j, ∀ i ∈ rows j, i < nrows) (valid : m.Valid rows nrows ncols)
    (known : level (m.levels rows) ncols = some n)
    (later : Lengthening rows ncols (exchange rows (m, m.levels rows)).1 phases result) :
    Lengthening rows ncols m ((m, m.levels rows) :: phases) result where
  start := rfl
  searched s member := by
    rcases List.mem_cons.mp member with rfl | member
    · rfl
    · exact later.searched s member
  shortest s member := by
    rcases List.mem_cons.mp member with rfl | member
    · exact valid.size_rowOf ▸ valid.shortestColumns
    · exact later.shortest s member
  lengthens := by
    obtain ⟨⟨found, exhausts, exchanged, more⟩, longer⟩ := valid.exchange_exhausts bound known
    have counted := congrArg Prod.fst (valid.phase bound valid.searched.1 0 0).2
    rw [more, Nat.add_sub_cancel_left, Nat.zero_add] at counted
    refine later.lengthens.cons fun t member => ?_
    have shortest := later.shortest t (List.mem_of_mem_head? member)
    cases later.start.symm.trans member
    refine ⟨rfl, ⟨n, found, known, exhausts, exchanged, counted⟩, ?_⟩
    rw [known]
    exact nearer_of_longer shortest longer
  last := by
    obtain ⟨s, last, settled⟩ := later.last
    exact ⟨s, by simp [List.getLast?_cons, last], settled⟩

/-- With steps enough the phases lengthen up to the matching that phases without notes end with. -/
theorem Valid.growNoting (bound : ∀ j, ∀ i ∈ rows j, i < nrows) (valid : m.Valid rows nrows ncols)
    (enough : ncols < m.size + fuel) (extra : Nat) :
    (Matching.growNoting extra rows (fuel + extra) m).2 = Matching.grow rows fuel m ∧
      Lengthening rows ncols m (Matching.growNoting extra rows (fuel + extra) m).1
        (Matching.grow rows fuel m) := by
  induction fuel generalizing m with
  | zero =>
    have most := m.size_le
    rw [valid.size_rowOf] at most
    omega
  | succ fuel ih =>
    obtain ⟨searching, same⟩ := valid.searched
    rw [valid.size_rowOf] at same
    have phase := valid.phase bound searching
    simp only [Matching.grow, Nat.add_right_comm fuel 1, Matching.growNoting, valid.size_rowOf, same,
      (phase extra 0).2]
    cases known : level (m.levels rows) ncols with
    | none => exact ⟨rfl, .single valid known⟩
    | some n =>
      have more := (phase 0 0).1.size_lt searching valid.size_rowOf (by simp [known])
      obtain ⟨result, later⟩ := ih (phase 0 0).1.valid (by omega)
      exact ⟨result, .cons bound valid known later⟩

/-- Phases make progress on every pattern. The breadth-first search of a phase gives to the unmatched rows the
number of columns on a shortest augmenting path of the matching at hand, or no level if there is no such path.
The depth-first searches of the phase exchange augmenting paths with so many columns, one for each search that
succeeds; the paths are apart from each other and every other one meets them, and the level of the next phase
is higher. The last search finds no path, and its matching is the maximum one. No loop is cut short: any number
of further steps leads to the same matching. A pattern without rows or columns is not searched at all. -/
theorem phases_exhaust_shortest_paths (p : Pattern) (extra : Nat) :
    (maximumNoting extra p.nrows p.ncols p.col).2 = ofPattern p ∧
      if p.nrows = 0 ∨ p.ncols = 0 then (maximumNoting extra p.nrows p.ncols p.col).1 = []
      else Lengthening p.col p.ncols (empty p.nrows p.ncols)
        (maximumNoting extra p.nrows p.ncols p.col).1 (ofPattern p) := by
  rw [ofPattern, maximum, maximumNoting]
  split
  · exact ⟨rfl, rfl⟩
  · have enough : p.ncols < (empty p.nrows p.ncols).size + (p.ncols + 1) := by
      rw [size_empty]
      omega
    exact (valid_empty p.col p.nrows p.ncols).growNoting (fun _ _ => Pattern.lt_nrows_of_mem_col) enough
      extra

/-- Three columns whose rows overlap one after the other. -/
def overlapping : Pattern := ⟨3, #[[0, 1], [1, 2], [0]], by decide⟩

/-- The first phase pairs two columns, and the only path left is through all three. -/
theorem phases_exhaust_shortest_paths_overlapping :
    (maximumNoting 0 3 3 overlapping.col).1.map (fun s => level s.2 3) = [some 1, some 3, none] ∧
      Lengthening overlapping.col 3 (empty 3 3) (maximumNoting 0 3 3 overlapping.col).1
        (ofPattern overlapping) := by
  have searched := (phases_exhaust_shortest_paths overlapping 0).2
  rw [if_neg (by decide)] at searched
  exact ⟨by decide +kernel, searched⟩

end Cotangent.Matching
