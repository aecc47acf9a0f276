import Cotangent.Factor.Workspace
import Cotangent.Proofs.Elimination

/-! What the search of a column of a sparse LU factorization finds. Steps rise along the columns of `L`, so
the graph of these columns has no cycle, and the search is the search of that graph: it keeps the number of
entries looked at where the other keeps the entries that are left. It is over in time, lists what the starts
lead to, and leaves an empty stack behind, as it has to for the search after it. -/
namespace Cotangent

variable {β : Type}

theorem readAt_eq {xs : Array β} {i : Nat} (inside : i < xs.size) (x : β) :
    readAt xs i = .ok (xs.getD i x) := by
  simp [readAt, inside, Array.getD]

theorem writeAt_eq {xs : Array β} {i : Nat} (inside : i < xs.size) (x : β) :
    writeAt xs i x = .ok (xs.setIfInBounds i x) :=
  if_pos inside

theorem join_getElem? (xs : Array (Option β)) (i : Nat) : (xs[i]?).join = xs.getD i none := by
  rw [Array.getD_eq_getD_getElem?]
  cases xs[i]? <;> rfl

namespace SparseLU

variable {α : Type} {s : Partial α} {n row stamp turns turns' : Nat} {starts : List Nat} {mark : Array Nat}
  {found : Reach.State}

/-- A stack with the successors that are left. -/
def Partial.frames (s : Partial α) (stack : List (Nat × Nat)) : List Reach.Frame :=
  stack.map fun (row, looked) => ⟨row, (s.next row).drop looked⟩

namespace Partial.Forward

/-- The column of `L` of a row is there. -/
theorem lowerOf?_eq (forward : s.Forward n) (inside : row < n) :
    s.lowerOf? row = .ok (s.lowerOf row) := by
  have known : s.step? row = s.step.getD row none := join_getElem? s.step row
  rw [Partial.lowerOf?, readAt_eq (forward.size_step.symm ▸ inside) none, Outcome.ok_bind, ← known]
  cases pivoted : s.step? row with
  | none => simp only [Partial.lowerOf, pivoted]; rfl
  | some j =>
    simp only [Partial.lowerOf, pivoted]
    exact readAt_eq (forward.step_lt row j pivoted) []

/-- A search that counts the successors it has looked at is the search that keeps those left, and it is
over in time. -/
theorem visit?_eq (forward : s.Forward n) (size : mark.size = n) (stack : List (Nat × Nat))
    (searching : Reach.Searching s.next (fun row => (s.step? row).getD s.lower.size) stamp starts mark
      (s.frames stack) found)
    (enough : Reach.work s.next stamp (s.frames stack) found ≤ turns) :
    s.visit? stamp turns stack found =
      .ok (Reach.visit s.next stamp turns (s.frames stack) found) := by
  have acyclic := size ▸ forward.acyclic
  induction turns generalizing stack found with
  | zero =>
    cases stack with
    | nil => rw [Partial.visit?]; rfl
    | cons frame stack => exact absurd enough (Nat.not_le.mpr (Reach.work_pos _ _ _))
  | succ turns ih =>
    rcases stack with _ | ⟨⟨row, looked⟩, stack⟩
    · rw [Partial.visit?]; rfl
    have here : row < n := size ▸ searching.inside row List.mem_cons_self
    have stacked : s.frames ((row, looked) :: stack) =
        ⟨row, (s.next row).drop looked⟩ :: s.frames stack := rfl
    rw [Partial.visit?, forward.lowerOf?_eq here, Outcome.ok_bind]
    rw [stacked] at searching enough ⊢
    cases left : (s.lowerOf row)[looked]? with
    | none =>
      have done : (s.next row).drop looked = [] := by
        simpa [Partial.next] using left
      rw [done] at searching enough ⊢
      rw [Reach.work_pop] at enough
      exact ih stack searching.pop (Nat.le_of_succ_le_succ enough)
    | some cell =>
      obtain ⟨child, l⟩ := cell
      have ahead : (s.next row)[looked]? = some child := by
        simp [Partial.next, left]
      obtain ⟨within, same⟩ := List.getElem?_eq_some_iff.mp ahead
      have more : (s.next row).drop looked = child :: (s.next row).drop (looked + 1) := by
        rw [List.drop_eq_getElem_cons within, same]
      have inside : child < mark.size := acyclic.inside row child (same ▸ List.getElem_mem within)
      have marked : child < found.mark.size := searching.size.symm ▸ inside
      rw [more] at searching enough ⊢
      dsimp only
      rw [Reach.visit, readAt_eq marked stamp, Outcome.ok_bind]
      by_cases met : found.mark.getD child stamp = stamp
      · have known : found.met stamp child = true := decide_eq_true met
        rw [if_pos met, if_pos known]
        rw [Reach.work_skip] at enough
        exact ih ((row, looked + 1) :: stack) (searching.skip acyclic known)
          (Nat.le_of_succ_le_succ enough)
      · have new : ¬ found.met stamp child = true := mt of_decide_eq_true met
        rw [if_neg met, if_neg new, writeAt_eq marked, Outcome.ok_bind]
        rw [Reach.work_push marked new] at enough
        exact ih ((child, 0) :: (row, looked + 1) :: stack) (searching.push acyclic new)
          (Nat.le_of_succ_le_succ enough)

/-- A search from one more start. -/
theorem fromStart?_eq (forward : s.Forward n) (size : mark.size = n) {start : Nat}
    (searching : Reach.Searching s.next (fun row => (s.step? row).getD s.lower.size) stamp starts mark []
      found)
    (given : start ∈ starts) (inside : start < mark.size) :
    s.fromStart? stamp (Reach.steps s.next mark.size) found start =
      .ok (Reach.fromStart s.next stamp (Reach.steps s.next mark.size) found start) := by
  have marked : start < found.mark.size := searching.size.symm ▸ inside
  rw [Partial.fromStart?, readAt_eq marked stamp, Outcome.ok_bind, Reach.fromStart]
  by_cases met : found.mark.getD start stamp = stamp
  · have known : found.met stamp start = true := decide_eq_true met
    rw [if_pos met, if_pos known]
    rfl
  · have new : ¬ found.met stamp start = true := mt of_decide_eq_true met
    obtain ⟨first, enough⟩ := searching.first given inside new
    rw [if_neg met, if_neg new, writeAt_eq marked, Outcome.ok_bind]
    exact forward.visit?_eq size [(start, 0)] first enough

/-- The search from all starts is the search of the graph of the columns of `L`. -/
theorem fromStarts?_eq (forward : s.Forward n) (size : mark.size = n)
    (inside : ∀ row ∈ starts, row < n) (fresh : ∀ row < mark.size, mark[row]? ≠ some stamp) :
    starts.foldlM (s.fromStart? stamp (Reach.steps s.next mark.size)) ⟨mark, []⟩ =
      .ok (Reach.reach s.next stamp starts mark) := by
  have acyclic := size ▸ forward.acyclic
  have within : ∀ row ∈ starts, row < mark.size := size.symm ▸ inside
  have turn : ∀ start ∈ starts, ∀ found,
      Reach.Searching s.next (fun row => (s.step? row).getD s.lower.size) stamp starts mark [] found →
      s.fromStart? stamp (Reach.steps s.next mark.size) found start =
        .ok (Reach.fromStart s.next stamp (Reach.steps s.next mark.size) found start) ∧
      Reach.Searching s.next (fun row => (s.step? row).getD s.lower.size) stamp starts mark []
        (Reach.fromStart s.next stamp (Reach.steps s.next mark.size) found start) :=
    fun start member found searching =>
      ⟨forward.fromStart?_eq size searching member (within start member),
        (searching.started acyclic member (within start member)).1⟩
  exact (Outcome.foldlM_eq_ok_of_keeps turn (Reach.searching_start fresh)).1

end Partial.Forward

/-! ### The workspace -/

/-- Turns on a stack in the workspace are turns of the search from that stack. -/
theorem Partial.drain?_eq (s : Partial α) (stamp turns : Nat) (found : Reach.State)
    (stack : List (Nat × Nat)) : s.drain? stamp turns ⟨found, stack⟩ =
      (s.visit? stamp turns stack found).map (Workspace.mk · []) := by
  induction turns generalizing found stack with
  | zero => cases stack <;> rfl
  | succ turns ih =>
    rcases stack with _ | ⟨⟨row, looked⟩, below⟩
    · rfl
    rw [Partial.drain?, Partial.turn?, Partial.visit?]
    cases s.lowerOf? row with
    | error e => rfl
    | ok cells =>
      rw [Outcome.ok_bind, Outcome.ok_bind]
      rcases cells[looked]? with _ | ⟨child, l⟩
      · exact ih { found with finished := row :: found.finished } below
      · dsimp only
        cases readAt found.mark child with
        | error e => rfl
        | ok marked =>
          rw [Outcome.ok_bind, Outcome.ok_bind]
          by_cases met : marked = stamp
          · rw [if_pos met, if_pos met]
            exact ih found ((row, looked + 1) :: below)
          · rw [if_neg met, if_neg met]
            cases writeAt found.mark child stamp with
            | error e => rfl
            | ok mark => exact ih { found with mark } ((child, 0) :: (row, looked + 1) :: below)

/-- A stack that is empty after some turns stays empty. -/
theorem Partial.drain?_more {ws ws' : Workspace} (ended : s.drain? stamp turns ws = .ok ws')
    (more : turns ≤ turns') : s.drain? stamp turns' ws = .ok ws' := by
  induction turns generalizing turns' ws with
  | zero =>
    obtain ⟨found, _ | ⟨top, below⟩⟩ := ws
    · cases turns' <;> exact ended
    · cases ended
  | succ turns ih =>
    obtain ⟨k, rfl⟩ := Nat.exists_eq_add_of_le' more
    obtain ⟨found, _ | ⟨⟨row, looked⟩, below⟩⟩ := ws
    · exact ended
    · obtain ⟨next, turned, rest⟩ := Outcome.bind_eq_ok.mp ended
      exact Outcome.bind_eq_ok.mpr ⟨next, turned, ih rest (Nat.le_add_left turns k)⟩

theorem Partial.enter?_more {ws ws' : Workspace} {start : Nat}
    (entered : s.enter? stamp turns ws start = .ok ws') (more : turns ≤ turns') :
    s.enter? stamp turns' ws start = .ok ws' := by
  obtain ⟨marked, looked, entered⟩ := Outcome.bind_eq_ok.mp entered
  refine Outcome.bind_eq_ok.mpr ⟨marked, looked, ?_⟩
  split at entered
  next met => rwa [if_pos met]
  next new =>
    obtain ⟨mark, written, drained⟩ := Outcome.bind_eq_ok.mp entered
    rw [if_neg new]
    exact Outcome.bind_eq_ok.mpr ⟨mark, written, Partial.drain?_more drained more⟩

/-- A start that finds the stack empty leaves it empty. -/
theorem Partial.enter?_eq (s : Partial α) (stamp turns : Nat) (found : Reach.State) (start : Nat) :
    s.enter? stamp turns ⟨found, []⟩ start =
      (s.fromStart? stamp turns found start).map (Workspace.mk · []) := by
  rw [Partial.enter?, Partial.fromStart?]
  cases readAt found.mark start with
  | error e => rfl
  | ok marked =>
    rw [Outcome.ok_bind, Outcome.ok_bind]
    by_cases met : marked = stamp
    · rw [if_pos met, if_pos met]
      rfl
    · rw [if_neg met, if_neg met]
      cases writeAt found.mark start stamp with
      | error e => rfl
      | ok mark => exact s.drain?_eq stamp turns { found with mark } [(start, 0)]

/-- A search that finds the stack empty is the search without it, and leaves it empty. -/
theorem Partial.search?_eq (s : Partial α) (stamp turns : Nat) (starts : List Nat) {ws : Workspace}
    (vacant : ws.stack = []) : s.search? stamp turns starts ws =
      (starts.foldlM (s.fromStart? stamp turns) ⟨ws.mark, []⟩).map
        fun found => (found.finished, ⟨found, []⟩) := by
  have loop : ∀ found, starts.foldlM (s.enter? stamp turns) ⟨found, []⟩ =
      (starts.foldlM (s.fromStart? stamp turns) found).map (Workspace.mk · []) := by
    induction starts with
    | nil => exact fun _ => rfl
    | cons start starts ih =>
      intro found
      rw [List.foldlM_cons, List.foldlM_cons, s.enter?_eq]
      cases s.fromStart? stamp turns found start with
      | error e => rfl
      | ok found' => exact ih found'
  obtain ⟨⟨mark, finished⟩, stack⟩ := ws
  cases vacant
  rw [Partial.search?, loop]
  cases starts.foldlM (s.fromStart? stamp turns) ⟨mark, []⟩ <;> rfl

theorem Partial.search?_more {ws : Workspace} {out : List Nat × Workspace}
    (searched : s.search? stamp turns starts ws = .ok out) (more : turns ≤ turns') :
    s.search? stamp turns' starts ws = .ok out := by
  obtain ⟨last, looped, same⟩ := Outcome.bind_eq_ok.mp searched
  refine Outcome.bind_eq_ok.mpr ⟨last, ?_, same⟩
  clear searched same
  generalize ({ ws with finished := [] } : Workspace) = first at looped ⊢
  induction starts generalizing first with
  | nil => exact looped
  | cons start starts ih =>
    rw [List.foldlM_cons] at looped ⊢
    obtain ⟨next, entered, rest⟩ := Outcome.bind_eq_ok.mp looped
    exact Outcome.bind_eq_ok.mpr ⟨next, Partial.enter?_more entered more, ih next rest⟩

/-! ### What is found -/

/-- What a search from some rows answers, and what it leaves in the workspace. -/
structure Partial.Lists (s : Partial α) (stamp : Nat) (starts : List Nat) (ws : Workspace)
    (rows : List Nat) (ws' : Workspace) : Prop where
  /-- The rows are those that the starts lead to along columns of `L`, -/
  mem_iff : ∀ row, row ∈ rows ↔
    ∃ start ∈ starts, Relation.ReflTransGen (fun v w => w ∈ s.next v) start row
  /-- each of them once, -/
  nodup : rows.Nodup
  /-- and every row before the rows of its own column. -/
  before : ∀ earlier row later, rows = earlier ++ row :: later → ∀ cell ∈ s.lowerOf row, cell.1 ∈ later
  vacant : ws'.stack = []
  marked : ∀ row : Nat, ws'.mark[row]? = some stamp ↔ row ∈ rows
  /-- Other marks are as they were. -/
  kept : ∀ row ∉ rows, ws'.mark[row]? = ws.mark[row]?

/-- What the search of the graph finds. -/
theorem Partial.Forward.lists_reach (forward : s.Forward n) {ws : Workspace} (size : ws.mark.size = n)
    (inside : ∀ row ∈ starts, row < n) (fresh : ∀ row < ws.mark.size, ws.mark[row]? ≠ some stamp) :
    s.Lists stamp starts ws (Reach.reach s.next stamp starts ws.mark).finished
      ⟨Reach.reach s.next stamp starts ws.mark, []⟩ := by
  obtain ⟨searching, given⟩ := Reach.searching_reach (size ▸ forward.acyclic)
    (size.symm ▸ inside) fresh
  generalize Reach.reach s.next stamp starts ws.mark = found at searching given
  have seen : Reach.seen [] found = found.finished := rfl
  have marked (row : Nat) : found.mark[row]? = some stamp ↔ row ∈ found.finished := by
    by_cases within : row < ws.mark.size
    · rw [← seen, ← searching.met row within, Reach.State.met, decide_eq_true_eq, Array.getD,
        dif_pos (searching.size.symm ▸ within), Array.getElem?_eq_getElem, Option.some.injEq]
      rfl
    · have outside : found.mark[row]? = none :=
        Array.getElem?_eq_none (searching.size.symm ▸ Nat.not_lt.mp within)
      rw [outside]
      exact iff_of_false (Option.some_ne_none stamp).symm fun member =>
        within (searching.inside row (seen ▸ member))
  have before : ∀ earlier row later, found.finished = earlier ++ row :: later →
      ∀ w ∈ s.next row, w ∈ later := by
    intro earlier row later split
    exact mem_of_ordered (split ▸ searching.ordered)
  constructor
  case mem_iff =>
    intro row
    constructor
    · exact fun member => searching.reached row (seen ▸ member)
    · rintro ⟨start, chosen, path⟩
      induction path with
      | refl => exact given start chosen
      | tail _ edge ih =>
        obtain ⟨earlier, later, split⟩ := List.append_of_mem ih
        have after := before earlier _ later split _ edge
        rw [split]
        exact List.mem_append_right earlier (List.mem_cons_of_mem _ after)
  case nodup => exact seen ▸ searching.nodup
  case before =>
    exact fun earlier row later split cell held =>
      before earlier row later split cell.1 (List.mem_map_of_mem held)
  case vacant => rfl
  case marked => exact marked
  case kept =>
    intro row missing
    exact (searching.marks row).resolve_right (mt (marked row).mp missing)

/-- A search along columns of `L` whose rows are pivoted later or not at all, with an empty stack and a
stamp that no mark has: it is over after a number of turns that depends on these columns only, and lists
what its starts lead to. -/
theorem search_lists_reachable {ws : Workspace} (forward : s.Forward n) (size : ws.mark.size = n)
    (vacant : ws.stack = []) (inside : ∀ row ∈ starts, row < n)
    (fresh : ∀ row : Nat, ws.mark[row]? ≠ some stamp) :
    ∃ rows ws', (∀ turns, Reach.steps s.next n ≤ turns →
        s.search? stamp turns starts ws = .ok (rows, ws')) ∧
      s.Lists stamp starts ws rows ws' ∧
      (Reach.reach s.next stamp starts ws.mark).finished = rows ∧
      (Reach.reach s.next stamp starts ws.mark).mark = ws'.mark := by
  have found := forward.fromStarts?_eq size inside fun row _ => fresh row
  have searched : s.search? stamp (Reach.steps s.next n) starts ws =
      .ok ((Reach.reach s.next stamp starts ws.mark).finished,
        ⟨Reach.reach s.next stamp starts ws.mark, []⟩) := by
    rw [s.search?_eq stamp _ starts vacant, ← size, found]
    rfl
  exact ⟨_, _, fun turns more => Partial.search?_more searched more,
    forward.lists_reach size inside fun row _ => fresh row, rfl, rfl⟩

/-- Row 1 leads to rows 3 and 2, row 0 to rows 1 and 2; the marks are those of earlier searches. -/
theorem search_lists_reachable_crossing :
    let s : Partial Nat :=
      ⟨#[[(1, 5), (2, 6)], [(3, 7), (2, 8)]], #[], #[], #[some 0, some 1, none, none], #[], #[]⟩
    let ws : Workspace := ⟨⟨#[1, 0, 2, 1], [3]⟩, []⟩
    ∃ rows ws', s.search? 3 10 [1, 0, 2] ws = .ok (rows, ws') ∧
      s.Lists 3 [1, 0, 2] ws rows ws' ∧ rows = [0, 1, 2, 3] := by
  intro s ws
  have pivots : ∀ row j, s.step? row = some j → row = 0 ∧ j = 0 ∨ row = 1 ∧ j = 1 := by
    intro row j pivoted
    have small : row < 4 := Partial.lt_of_step? pivoted
    interval_cases row <;> simp_all [s, Partial.step?]
  have forward : s.Forward 4 := by
    constructor
    case size_step => rfl
    all_goals
      intro row j pivoted
      obtain ⟨rfl, rfl⟩ | ⟨rfl, rfl⟩ := pivots row j pivoted <;> simp [s, Partial.step?]
  have fresh : ∀ row : Nat, ws.mark[row]? ≠ some 3 := fun row stamped =>
    absurd (Array.mem_of_getElem? stamped) (by simp [ws])
  have starts : ∀ row ∈ [1, 0, 2], row < 4 := by decide
  obtain ⟨rows, ws', searched, lists, finished, -⟩ :=
    search_lists_reachable forward rfl rfl starts fresh
  exact ⟨rows, ws', searched 10 (by decide), lists, finished.symm.trans (by decide)⟩

end SparseLU

end Cotangent
