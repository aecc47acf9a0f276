import Mathlib
import Cotangent.Factor.SparseLU
import Cotangent.Proofs.Coefficients
import Cotangent.Proofs.Reachability

/-! One column of a sparse LU factorization, for scalars without laws. A row that became a pivot has
changes for rows that become pivots later or not at all, so the search through the columns of `L` has
no cycle, and a row is read after its last change. Rows outside the search are never changed, which
is why clearing the rows of the search clears the dense column. -/
namespace Cotangent.SparseLU

variable {α : Type} [Scalar α]

theorem getD_push {β : Type} (xs : Array β) (x d : β) (j : Nat) :
    (xs.push x).getD j d = if j = xs.size then x else xs.getD j d := by
  simp only [Array.getD_eq_getD_getElem?, Array.getElem?_push]
  split <;> simp

/-! ## What a column is made of -/

/-- The rows that take part in column `k`. -/
def Partial.rows (s : Partial α) (a : SparseMatrix α) (k : Nat) : List Nat :=
  (s.reach k ((a.col k).map (·.1))).finished

/-- The dense column before the triangular solve. -/
def Partial.loaded (s : Partial α) (a : SparseMatrix α) (k : Nat) : Array α :=
  (a.col k).foldl (fun work (i, v) => work.setIfInBounds i v) s.work

/-- The dense column after the triangular solve, and column `k` of `U` in order of the search. -/
def Partial.solved (s : Partial α) (a : SparseMatrix α) (k : Nat) : Array α × List (Nat × α) :=
  (s.rows a k).foldl s.substitute (s.loaded a k, [])

/-- The dense column cleared. -/
def Partial.cleared (s : Partial α) (a : SparseMatrix α) (k : Nat) : Array α :=
  (s.rows a k).foldl (fun work row => work.setIfInBounds row 0) (s.solved a k).1

/-- The chosen row and its magnitude. -/
def Partial.chosen (s : Partial α) (a : SparseMatrix α) (k : Nat) : Option Nat × α :=
  s.pivot (s.solved a k).1 (s.rows a k)

/-- The state with one more column, whose pivot is in the given row. -/
def Partial.extend (s : Partial α) (a : SparseMatrix α) (k row : Nat) : Partial α :=
  let work := (s.solved a k).1
  let step := s.step.setIfInBounds row (some k)
  { lower := s.lower.push ((s.rows a k).filterMap fun r =>
      if ((step[r]?).join).isNone && !Scalar.isZero (work.getD r 0) then
        some (r, work.getD r 0 / work.getD row 0) else none)
    upper := s.upper.push ((s.solved a k).2.mergeSort fun a b => a.1 ≤ b.1)
    diagonal := s.diagonal.push (work.getD row 0)
    step := step
    work := s.cleared a k
    mark := (s.reach k ((a.col k).map (·.1))).mark }

/-- A column is finished with the chosen row, or there is none whose magnitude is large enough. -/
theorem eliminate_cases (a : SparseMatrix α) (tolerance : α) (k : Nat) (s : Partial α) :
    (∃ row, (s.chosen a k).1 = some row ∧ Scalar.lt tolerance (s.chosen a k).2 = true ∧
      eliminate a tolerance k s = (.ok (), s.extend a k row)) ∨
    (((s.chosen a k).1 = none ∨ Scalar.lt tolerance (s.chosen a k).2 = false) ∧
      eliminate a tolerance k s =
        (.error (.factorization .numeric (.zeroPivot k (Scalar.scientific (s.chosen a k).2))),
          { s with
            work := s.cleared a k
            mark := (s.reach k ((a.col k).map (·.1))).mark })) := by
  unfold eliminate
  dsimp only
  split
  next missing =>
    have missing : ((s.chosen a k).1.filter fun _ => Scalar.lt tolerance (s.chosen a k).2) = none :=
      missing
    refine .inr ⟨?_, rfl⟩
    rcases chosen : (s.chosen a k).1 with _ | row
    · exact .inl rfl
    · exact .inr (Bool.eq_false_iff.mpr (Option.filter_eq_none_iff.mp missing row chosen))
  next row found =>
    have found : ((s.chosen a k).1.filter fun _ => Scalar.lt tolerance (s.chosen a k).2) = some row :=
      found
    obtain ⟨chosen, large⟩ := Option.filter_eq_some_iff.mp found
    exact .inl ⟨row, chosen, large, rfl⟩

/-- The first row with the largest magnitude is one that is not pivoted yet; there is none if all
are. -/
theorem pivot_cases (s : Partial α) (work : Array α) (rows : List Nat) :
    ((s.pivot work rows).1 = none ∧ ∀ r ∈ rows, s.step? r ≠ none) ∨
      ∃ row ∈ rows, s.step? row = none ∧
        s.pivot work rows = (some row, Scalar.abs (work.getD row 0)) := by
  have start : ((none, 0) : Option Nat × α).1 = none ∧ ∀ r ∈ ([] : List Nat), s.step? r ≠ none :=
    ⟨rfl, by simp⟩
  refine foldl_keeps (P := fun done best => (best.1 = none ∧ ∀ r ∈ done, s.step? r ≠ none) ∨
    ∃ row ∈ done, s.step? row = none ∧ best = (some row, Scalar.abs (work.getD row 0)))
    (.inl start) ?_
  intro done x rest best _ kept
  by_cases better : ((s.step? x).isNone && (best.1.isNone ||
      Scalar.lt best.2 (Scalar.abs (work.getD x 0)))) = true
  · rw [if_pos better]
    simp only [Bool.and_eq_true, Option.isNone_iff_eq_none] at better
    exact .inr ⟨x, by simp, better.1, rfl⟩
  · rw [if_neg better]
    rcases kept with ⟨vacant, all⟩ | ⟨row, member, free, rfl⟩
    · refine .inl ⟨vacant, fun r member => ?_⟩
      rcases List.mem_append.mp member with earlier | here
      · exact all r earlier
      · cases List.mem_singleton.mp here
        simpa [vacant] using better
    · exact .inr ⟨row, by simp [member], free, rfl⟩

/-- The chosen row takes part in the column and is not pivoted yet. -/
theorem Partial.mem_rows_of_chosen {s : Partial α} {a : SparseMatrix α} {k row : Nat}
    (chosen : (s.chosen a k).1 = some row) : row ∈ s.rows a k ∧ s.step? row = none ∧
      (s.chosen a k).2 = Scalar.abs ((s.solved a k).1.getD row 0) := by
  rcases pivot_cases s (s.solved a k).1 (s.rows a k) with ⟨vacant, -⟩ | ⟨row', member, free, best⟩
  · cases vacant.symm.trans chosen
  · obtain rfl : row' = row := Option.some.inj ((congrArg Prod.fst best).symm.trans chosen)
    exact ⟨member, free, congrArg Prod.snd best⟩

/-! ## The state between two columns -/

/-- What holds between two columns of order `n` when `k` of them are finished. -/
structure Partial.Sound (s : Partial α) (n k : Nat) : Prop where
  size_lower : s.lower.size = k
  size_upper : s.upper.size = k
  size_diagonal : s.diagonal.size = k
  size_step : s.step.size = n
  size_work : s.work.size = n
  size_mark : s.mark.size = n
  step_lt : ∀ row j, s.step? row = some j → j < k
  step_injective : ∀ row row' j, s.step? row = some j → s.step? row' = some j → row = row'
  step_surjective : ∀ j < k, ∃ row, s.step? row = some j
  lower_lt : ∀ j, ∀ cell ∈ s.lower.getD j [], cell.1 < n
  /-- A row is changed before it becomes a pivot. -/
  lower_later : ∀ j, ∀ cell ∈ s.lower.getD j [], ∀ j', s.step? cell.1 = some j' → j < j'
  upper_lt : ∀ j, ∀ cell ∈ s.upper.getD j [], cell.1 < j
  clear : ∀ i, s.work.getD i 0 = 0
  marks : ∀ v m : Nat, s.mark[v]? = some m → m ≤ k

variable {a : SparseMatrix α} {s : Partial α} {n k row i : Nat}

omit [Scalar α] in
theorem Partial.lt_of_step? {j : Nat} (pivoted : s.step? row = some j) : row < s.step.size :=
  (Array.getElem?_eq_some_iff.mp (Option.join_eq_some_iff.mp pivoted)).1

theorem Partial.step?_start (n row : Nat) : (Partial.start n : Partial α).step? row = none := by
  simp only [Partial.step?, Partial.start, Array.getElem?_replicate]
  split <;> rfl

theorem Partial.sound_start (n : Nat) : (Partial.start n : Partial α).Sound n 0 := by
  constructor
  case step_lt => simp [step?_start]
  case step_injective => simp [step?_start]
  case step_surjective => simp
  case clear =>
    intro i
    simp only [Partial.start, Array.getD_eq_getD_getElem?, Array.getElem?_replicate]
    split <;> rfl
  case marks =>
    intro v m known
    simp only [Partial.start, Array.getElem?_replicate] at known
    split at known <;> simp_all
  all_goals simp [Partial.start]

/-- The rows that the pivot in a row changes. -/
def Partial.next (s : Partial α) (row : Nat) : List Nat := (s.lowerOf row).map (·.1)

omit [Scalar α] in
theorem Partial.lowerOf_eq {j : Nat} (pivoted : s.step? row = some j) :
    s.lowerOf row = s.lower.getD j [] := by
  simp [Partial.lowerOf, pivoted]

omit [Scalar α] in
theorem Partial.next_eq_nil (free : s.step? row = none) : s.next row = [] := by
  simp [Partial.next, Partial.lowerOf, free]

/-- Every step has its column of `L`, whose rows are rows of the matrix and become pivots later, if they
did. -/
structure Partial.Forward (s : Partial α) (n : Nat) : Prop where
  size_step : s.step.size = n
  step_lt : ∀ row j, s.step? row = some j → j < s.lower.size
  inside : ∀ row j, s.step? row = some j → ∀ cell ∈ s.lower.getD j [], cell.1 < n
  later : ∀ row j, s.step? row = some j → ∀ cell ∈ s.lower.getD j [],
    ∀ j', s.step? cell.1 = some j' → j < j'

omit [Scalar α] in
/-- Changes go to rows that become pivots later, or have not yet. -/
theorem Partial.Forward.acyclic (forward : s.Forward n) :
    Reach.Acyclic s.next (fun row => (s.step? row).getD s.lower.size) n := by
  have cells {v w : Nat} (edge : w ∈ s.next v) :
      ∃ j, s.step? v = some j ∧ ∃ cell ∈ s.lower.getD j [], cell.1 = w := by
    cases pivoted : s.step? v with
    | none => simp [next_eq_nil pivoted] at edge
    | some j => exact ⟨j, rfl, by simpa [Partial.next, lowerOf_eq pivoted] using edge⟩
  constructor
  · intro v w edge
    obtain ⟨j, pivoted, cell, member, rfl⟩ := cells edge
    simp only [pivoted, Option.getD_some]
    cases later : s.step? cell.1 with
    | none => exact forward.step_lt v j pivoted
    | some j' => exact forward.later v j pivoted cell member j' later
  · intro v w edge
    obtain ⟨j, pivoted, cell, member, rfl⟩ := cells edge
    exact forward.inside v j pivoted cell member

namespace Partial.Sound

theorem forward (sound : s.Sound n k) : s.Forward n where
  size_step := sound.size_step
  step_lt row j pivoted := sound.size_lower.symm ▸ sound.step_lt row j pivoted
  inside _ j _ := sound.lower_lt j
  later _ j _ := sound.lower_later j

theorem acyclic (sound : s.Sound n k) :
    Reach.Acyclic s.next (fun row => (s.step? row).getD k) n := by
  have forward := sound.forward.acyclic
  rwa [sound.size_lower] at forward

theorem searching (sound : s.Sound n k) (square : a.nrows = n) :
    Reach.Searching s.next (fun row => (s.step? row).getD k) (k + 1) ((a.col k).map (·.1)) s.mark []
        (s.reach k ((a.col k).map (·.1))) ∧
      ∀ v ∈ (a.col k).map (·.1), v ∈ s.rows a k := by
  refine Reach.searching_reach (sound.size_mark ▸ sound.acyclic) (fun v member => ?_)
    fun v _ stamped => ?_
  · rw [a.map_fst_col] at member
    rw [sound.size_mark, ← square]
    exact Pattern.lt_nrows_of_mem_col member
  · have old := sound.marks v (k + 1) stamped
    omega

theorem rows_nodup (sound : s.Sound n k) (square : a.nrows = n) : (s.rows a k).Nodup := by
  simpa [Reach.seen, Partial.rows] using (sound.searching square).1.nodup

theorem rows_lt (sound : s.Sound n k) (square : a.nrows = n) : ∀ r ∈ s.rows a k, r < n := by
  simpa [Reach.seen, Partial.rows, sound.size_mark] using (sound.searching square).1.inside

theorem rows_ordered (sound : s.Sound n k) (square : a.nrows = n) :
    Reach.Ordered s.next (s.rows a k) :=
  (sound.searching square).1.ordered

end Partial.Sound

/-! ## The triangular solve -/

theorem size_substitute (acc : Array α × List (Nat × α)) (row : Nat) :
    (s.substitute acc row).1.size = acc.1.size := by
  unfold Partial.substitute
  split
  · rfl
  · dsimp only
    split
    · rfl
    · exact size_foldl fun c cell => Array.size_modify

/-- A pivot changes the rows of its column of `L` only. -/
theorem getD_substitute_of_not_mem (acc : Array α × List (Nat × α)) (other : i ∉ s.next row) :
    (s.substitute acc row).1.getD i 0 = acc.1.getD i 0 := by
  unfold Partial.substitute
  split
  · rfl
  · dsimp only
    split
    · rfl
    · exact getD_foldl_of_not_mem (fun c cell different => getD_modify_of_ne different) other

theorem substitute_snd (acc : Array α × List (Nat × α)) (row : Nat) :
    (s.substitute acc row).2 =
      ((s.step? row).map fun j => (j, acc.1.getD row 0)).toList ++ acc.2 := by
  unfold Partial.substitute
  split <;> simp [*]

/-- What a solve has done for some of its rows: their entries have their last values, which stand in
column of `U`, and no entry of another row than those of the search has changed. -/
structure Substituted (s : Partial α) (rows : List Nat) (loaded : Array α) (done : List Nat)
    (acc : Array α × List (Nat × α)) : Prop where
  size : acc.1.size = loaded.size
  upper : acc.2 =
    (done.filterMap fun row => (s.step? row).map fun j => (j, acc.1.getD row 0)).reverse
  frame : ∀ i ∉ rows, acc.1.getD i 0 = loaded.getD i 0

omit [Scalar α] in
theorem mem_of_ordered {done rest : List Nat}
    (ordered : Reach.Ordered s.next (done ++ row :: rest)) : ∀ w ∈ s.next row, w ∈ rest := by
  induction done with
  | nil => exact ordered.1
  | cons v done ih => exact ih ordered.2

theorem Substituted.step {rows done rest : List Nat} {loaded : Array α}
    {acc : Array α × List (Nat × α)} (nodup : rows.Nodup) (ordered : Reach.Ordered s.next rows)
    (split : rows = done ++ row :: rest) (before : Substituted s rows loaded done acc) :
    Substituted s rows loaded (done ++ [row]) (s.substitute acc row) := by
  subst split
  have ahead : ∀ w ∈ s.next row, w ∈ rest := mem_of_ordered ordered
  have last : ∀ r ∈ done ++ [row], r ∉ s.next row := by
    intro r member edge
    rw [← List.singleton_append, ← List.append_assoc] at nodup
    exact List.disjoint_of_nodup_append nodup member (ahead r edge)
  constructor
  · rw [size_substitute, before.size]
  · have same : ∀ r ∈ done ++ [row], ((s.step? r).map fun j => (j, (s.substitute acc row).1.getD r 0)) =
        (s.step? r).map fun j => (j, acc.1.getD r 0) := fun r member => by
      rw [getD_substitute_of_not_mem acc (last r member)]
    rw [List.filterMap_congr same, List.filterMap_append, List.reverse_append, substitute_snd,
      before.upper]
    cases known : s.step? row <;> simp [known]
  · intro i outside
    rw [getD_substitute_of_not_mem acc fun edge => outside (by simp [ahead i edge]),
      before.frame i outside]

namespace Partial.Sound

theorem substituted (sound : s.Sound n k) (square : a.nrows = n) :
    Substituted s (s.rows a k) (s.loaded a k) (s.rows a k) (s.solved a k) :=
  foldl_keeps ⟨rfl, rfl, fun _ _ => rfl⟩ fun _ _ _ _ split before =>
    before.step (sound.rows_nodup square) (sound.rows_ordered square) split

theorem size_solved (sound : s.Sound n k) (square : a.nrows = n) : (s.solved a k).1.size = n := by
  rw [(sound.substituted square).size, ← sound.size_work]
  exact size_foldl fun c cell => Array.size_setIfInBounds

/-- Outside the rows of the search, the solve leaves zeros. -/
theorem solved_outside (sound : s.Sound n k) (square : a.nrows = n) (outside : i ∉ s.rows a k) :
    (s.solved a k).1.getD i 0 = 0 := by
  rw [(sound.substituted square).frame i outside]
  refine Eq.trans ?_ (sound.clear i)
  exact getD_foldl_of_not_mem (fun c cell different => getD_setIfInBounds_of_ne different)
    fun given => outside ((sound.searching square).2 i given)

theorem cleared (sound : s.Sound n k) (square : a.nrows = n) (i : Nat) :
    (s.cleared a k).getD i 0 = 0 := by
  have zero : ∀ (rows : List Nat) (c : Array α), (i ∈ rows ∨ c.getD i 0 = 0) →
      (rows.foldl (fun work row => work.setIfInBounds row 0) c).getD i 0 = 0 := by
    intro rows
    induction rows with
    | nil => simp
    | cons r rows ih =>
      intro c either
      refine ih _ ?_
      by_cases same : r = i
      · subst same
        right
        simp only [Array.getD_eq_getD_getElem?, Array.getElem?_setIfInBounds_self]
        split <;> rfl
      · rw [getD_setIfInBounds_of_ne same]
        simpa [Ne.symm same] using either
  by_cases member : i ∈ s.rows a k
  · exact zero _ _ (.inl member)
  · exact zero _ _ (.inr (sound.solved_outside square member))

theorem size_cleared (sound : s.Sound n k) (square : a.nrows = n) : (s.cleared a k).size = n := by
  rw [← sound.size_solved square]
  exact size_foldl fun c cell => Array.size_setIfInBounds

end Partial.Sound

/-! ## One more column -/

theorem Partial.step?_extend (inside : row < s.step.size) (r : Nat) :
    (s.extend a k row).step? r = if r = row then some k else s.step? r := by
  simp only [Partial.step?, Partial.extend, Array.getElem?_setIfInBounds]
  by_cases same : row = r
  · subst same
    simp [inside]
  · simp [same, Ne.symm same]

/-- A row of the new column of `L` has an entry that is not zero and is not pivoted. -/
theorem Partial.mem_lower_extend {cell : Nat × α}
    (member : cell ∈ (s.extend a k row).lower.getD s.lower.size []) :
    cell.1 ∈ s.rows a k ∧ (s.extend a k row).step? cell.1 = none ∧
      cell.2 = (s.solved a k).1.getD cell.1 0 / (s.solved a k).1.getD row 0 := by
  simp only [Partial.extend, getD_push, if_true, List.mem_filterMap] at member
  obtain ⟨r, found, kept⟩ := member
  obtain ⟨condition, same⟩ := Option.ite_none_right_eq_some.mp kept
  cases same
  simp only [Bool.and_eq_true, Option.isNone_iff_eq_none] at condition
  exact ⟨found, condition.1, rfl⟩

theorem Partial.Sound.extend (sound : s.Sound n k) (square : a.nrows = n)
    (member : row ∈ s.rows a k) (free : s.step? row = none) : (s.extend a k row).Sound n (k + 1) := by
  have inside : row < s.step.size := sound.size_step ▸ sound.rows_lt square row member
  have step := Partial.step?_extend (a := a) (k := k) inside
  have old_step {r j : Nat} (pivoted : (s.extend a k row).step? r = some j) :
      (r = row ∧ j = k) ∨ s.step? r = some j := by
    rw [step] at pivoted
    split at pivoted
    next same => exact .inl ⟨same, (Option.some.inj pivoted).symm⟩
    next => exact .inr pivoted
  have cells {j : Nat} {cell : Nat × α} (held : cell ∈ (s.extend a k row).lower.getD j []) :
      (j = k ∧ cell.1 ∈ s.rows a k ∧ (s.extend a k row).step? cell.1 = none) ∨
        cell ∈ s.lower.getD j [] := by
    by_cases last : j = s.lower.size
    · subst last
      obtain ⟨found, free, -⟩ := Partial.mem_lower_extend held
      exact .inl ⟨sound.size_lower, found, free⟩
    · simp only [Partial.extend, getD_push, if_neg last] at held
      exact .inr held
  constructor
  case size_lower => simp [Partial.extend, sound.size_lower]
  case size_upper => simp [Partial.extend, sound.size_upper]
  case size_diagonal => simp [Partial.extend, sound.size_diagonal]
  case size_step => simp [Partial.extend, sound.size_step]
  case size_work => exact sound.size_cleared square
  case size_mark => exact (sound.searching square).1.size.trans sound.size_mark
  case step_lt =>
    intro r j pivoted
    rcases old_step pivoted with ⟨-, rfl⟩ | before
    · exact Nat.lt_succ_self j
    · exact (sound.step_lt r j before).trans (Nat.lt_succ_self k)
  case step_injective =>
    intro r r' j pivoted pivoted'
    rcases old_step pivoted with ⟨rfl, rfl⟩ | before <;>
      rcases old_step pivoted' with ⟨rfl, same⟩ | before'
    · rfl
    · exact absurd (sound.step_lt r' j before') (Nat.lt_irrefl j)
    · exact absurd (same ▸ sound.step_lt r j before) (Nat.lt_irrefl k)
    · exact sound.step_injective r r' j before before'
  case step_surjective =>
    intro j below
    rcases Nat.lt_succ_iff_lt_or_eq.mp below with earlier | rfl
    · obtain ⟨r, pivoted⟩ := sound.step_surjective j earlier
      have other : r ≠ row := fun same => by simp [same, free] at pivoted
      exact ⟨r, by rw [step, if_neg other, pivoted]⟩
    · exact ⟨row, by rw [step, if_pos rfl]⟩
  case lower_lt =>
    intro j cell held
    rcases cells held with ⟨-, found, -⟩ | before
    · exact sound.rows_lt square cell.1 found
    · exact sound.lower_lt j cell before
  case lower_later =>
    intro j cell held j' pivoted
    rcases cells held with ⟨-, -, free⟩ | before
    · simp [free] at pivoted
    · rcases old_step pivoted with ⟨-, rfl⟩ | pivoted'
      · by_contra late
        have out : s.lower.getD j [] = [] := by
          simp [Array.getD_eq_getD_getElem?, sound.size_lower, Nat.not_lt.mp late]
        simp [out] at before
      · exact sound.lower_later j cell before j' pivoted'
  case upper_lt =>
    intro j cell held
    by_cases last : j = s.upper.size
    · subst last
      simp only [Partial.extend, getD_push, if_true] at held
      rw [(List.mergeSort_perm ..).mem_iff, (sound.substituted square).upper, List.mem_reverse,
        List.mem_filterMap] at held
      obtain ⟨r, -, listed⟩ := held
      obtain ⟨j, pivoted, rfl⟩ := Option.map_eq_some_iff.mp listed
      exact sound.size_upper ▸ sound.step_lt r j pivoted
    · simp only [Partial.extend, getD_push, if_neg last] at held
      exact sound.upper_lt j cell held
  case clear => exact sound.cleared square
  case marks =>
    intro v m known
    rcases (sound.searching square).1.marks v with old | stamped
    · exact (sound.marks v m (old.symm.trans known)).trans (Nat.le_succ k)
    · have same := stamped.symm.trans known
      exact (Option.some.inj same).ge

end Cotangent.SparseLU
