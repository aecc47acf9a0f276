import Cotangent.Proofs.Backends
import Cotangent.Proofs.CheckedColumns
import Cotangent.Proofs.PivotRows
import Cotangent.Proofs.Substitution
import Cotangent.Scalar.Binary64

/-! The states that the columns of a sparse LU factorization lead through, whatever the numbers are. The
dense column is never cleared as a whole: it is zero before a column because the search of the column before
it listed every row that the column had touched. A row of `L` keeps its number, so that it has a later step
than its column follows only from the order in which the rows became pivots. When no column is rejected,
there are as many pivots as rows, and none is left over. -/
namespace Cotangent.SparseLU

variable {α : Type} [Scalar α] {a : SparseMatrix α} {s u : Partial α} {tolerance : α} {n k row : Nat}

/-- `k` columns of a matrix were finished one after another, and led to the state. -/
def Reaches (a : SparseMatrix α) (tolerance : α) (k : Nat) (s : Partial α) : Prop :=
  (List.range k).forM (eliminate a tolerance) (Partial.start a.nrows) = (.ok (), s)

/-- A sound state whose columns of `U` are in order. -/
structure Partial.Structured (s : Partial α) (n k : Nat) : Prop extends s.Sound n k where
  upper_increasing : ∀ j, (s.upper.getD j []).Pairwise fun x y => x.1 < y.1

/-- The dense column between two columns. -/
theorem Partial.Sound.work_eq (sound : s.Sound n k) : s.work = Array.replicate n 0 := by
  refine Triangular.eq_of_getD (n := n) sound.size_work Array.size_replicate fun i inside => ?_
  rw [sound.clear i]
  simp [inside]

theorem Partial.Sound.cleared_eq (sound : s.Sound n k) (square : a.nrows = n) :
    s.cleared a k = Array.replicate n 0 := by
  refine Triangular.eq_of_getD (n := n) (sound.size_cleared square) Array.size_replicate fun i inside => ?_
  rw [sound.cleared square i]
  simp [inside]

/-- The steps of a column of `U` are those of its pivoted rows, which are all different. -/
theorem Partial.Sound.steps_nodup (sound : s.Sound n k) (square : a.nrows = n) :
    ((s.solved a k).2.map (·.1)).Nodup := by
  rw [(sound.substituted square).upper, List.map_reverse, List.nodup_reverse, List.map_filterMap]
  refine (sound.rows_nodup square).filterMap fun r r' j here there => ?_
  simp only [Option.map_map, Option.mem_def, Option.map_eq_some_iff, Function.comp_apply,
    exists_eq_right] at here there
  exact sound.step_injective r r' j here there

/-- Sorted by steps that are all different, a column of `U` is increasing. -/
theorem Partial.Sound.sorted_upper (sound : s.Sound n k) (square : a.nrows = n) :
    ((s.solved a k).2.mergeSort fun x y => x.1 ≤ y.1).Pairwise fun x y => x.1 < y.1 := by
  have ordered : ((s.solved a k).2.mergeSort fun x y => x.1 ≤ y.1).Pairwise
      fun x y => decide (x.1 ≤ y.1) = true :=
    List.pairwise_mergeSort (fun x y z => by simpa using le_trans)
      (fun x y => by simpa using le_total x.1 y.1) _
  have same := (List.mergeSort_perm (s.solved a k).2 fun x y => decide (x.1 ≤ y.1)).map Prod.fst
  have distinct := List.pairwise_map.mp (same.nodup_iff.mpr (sound.steps_nodup square))
  refine (ordered.and distinct).imp fun ⟨least, different⟩ => ?_
  exact lt_of_le_of_ne (of_decide_eq_true least) different

/-- One more column; a rejected one changes nothing but the marks. -/
theorem Partial.Structured.eliminate (structured : s.Structured n k) (square : a.nrows = n)
    (tolerance : α) : Run.Post (SparseLU.eliminate a tolerance k) s
      (fun _ t => t.Structured n (k + 1))
      fun e t => (∃ column pivot, e = .factorization .numeric (.zeroPivot column pivot)) ∧
        t = { s with mark := t.mark } := by
  have sound := structured.toSound
  rcases eliminate_cases a tolerance k s with ⟨row, chosen, -, ran⟩ | ⟨-, ran⟩ <;> rw [Run.Post, ran]
  · obtain ⟨member, free, -⟩ := Partial.mem_rows_of_chosen chosen
    refine ⟨sound.extend square member free, fun j => ?_⟩
    simp only [Partial.extend, getD_push]
    split
    · exact sound.sorted_upper square
    · exact structured.upper_increasing j
  · refine ⟨⟨k, _, rfl⟩, ?_⟩
    rw [sound.cleared_eq square, ← sound.work_eq]

/-- The columns one after another. -/
theorem post_structured (square : a.nrows = n) (tolerance : α) (count : Nat) :
    Run.Post ((List.range count).forM (eliminate a tolerance)) (Partial.start a.nrows)
      (fun _ t => t.Structured n count)
      fun e _ => ∃ column pivot, e = .factorization .numeric (.zeroPivot column pivot) := by
  refine Run.Post.forM (fun k t => t.Structured n k) ?_ ?_ ?_
  · refine ⟨square ▸ Partial.sound_start _, fun j => ?_⟩
    simp [Partial.start]
  · rintro k k' s at_k structured
    obtain ⟨inside, rfl⟩ := List.getElem?_eq_some_iff.mp at_k
    rw [List.getElem_range]
    exact (structured.eliminate square tolerance).imp (fun _ _ => id) fun _ _ => And.left
  · intro t structured
    rwa [List.length_range] at structured

theorem Reaches.structured (reached : Reaches a tolerance k s) (square : a.nrows = n) :
    s.Structured n k :=
  (post_structured square tolerance k).of_ok reached

/-- A column that is rejected ends the loop. -/
theorem Reaches.stops (reached : Reaches a tolerance k s) (inside : k < n) {e : Error}
    (rejected : eliminate a tolerance k s = (.error e, u)) :
    (List.range n).forM (eliminate a tolerance) (Partial.start a.nrows) = (.error e, u) := by
  have split : List.range n = List.range k ++ k :: (List.range n).drop (k + 1) := by
    refine (List.take_append_drop k (List.range n)).symm.trans ?_
    have within : k < (List.range n).length := by rwa [List.length_range]
    rw [List.take_range, Nat.min_eq_left inside.le, List.drop_eq_getElem_cons within,
      List.getElem_range]
  have last : (k :: (List.range n).drop (k + 1)).forM (eliminate a tolerance) s = (.error e, u) := by
    have turn : (k :: (List.range n).drop (k + 1)).forM (eliminate a tolerance) =
        eliminate a tolerance k >>= fun _ => forM _ (eliminate a tolerance) := List.forM_cons
    rw [turn, Run.bind_apply, rejected]
  rw [split, Run.forM_append reached, last]

theorem Reaches.next (reached : Reaches a tolerance k s)
    (done : eliminate a tolerance k s = (.ok (), u)) : Reaches a tolerance (k + 1) u := by
  rw [Reaches, List.range_succ, Run.forM_append reached, Run.forM_singleton, done]

/-! ### The factorization -/

section Numeric

variable {t : Staged α (SparseLU α)} {p : Pattern} {values : Array α}

/-- What the columns of accepted values keep, and how the factorization ends. -/
structure KeepsStructure (t : Staged α (SparseLU α)) (p : Pattern) (values : Array α)
    (a : SparseMatrix α) (tolerance : α) (n : Nat) : Prop where
  /-- Between two columns the dense column is zero; the steps are below the number of columns, and no two
  rows have the same; a row stored in a column of `L` is not pivoted at the step of that column or before;
  the entries of a column of `U` have increasing steps, all before that of the column. -/
  between : ∀ k ≤ n, ∀ s, Reaches a tolerance k s → s.work = Array.replicate n 0 ∧
    s.step.size = n ∧ s.lower.size = k ∧ s.upper.size = k ∧
    (∀ row j, s.step? row = some j → j < k) ∧
    (∀ row row' j, s.step? row = some j → s.step? row' = some j → row = row') ∧
    (∀ j, ∀ cell ∈ s.lower.getD j [], cell.1 < n ∧ ∀ j' ≤ j, s.step? cell.1 ≠ some j') ∧
    ∀ j, (∀ cell ∈ s.upper.getD j [], cell.1 < j) ∧
      (s.upper.getD j []).Pairwise fun x y => x.1 < y.1
  /-- No index of a column is out of range. -/
  inside : ∀ k < n, ∀ s, Reaches a tolerance k s →
    eliminate? a tolerance k s = .ok (eliminate a tolerance k s)
  /-- After a column the dense column is zero again. If the column is rejected, so are the values. -/
  after : ∀ k < n, ∀ s, Reaches a tolerance k s →
    Run.Post (eliminate a tolerance k) s
      (fun _ u => u.work = Array.replicate n 0 ∧ Reaches a tolerance (k + 1) u)
      fun e u => u.work = Array.replicate n 0 ∧ u = { s with mark := u.mark } ∧
        (Staged.numeric factorize p values t).1 = .error e
  /-- When all columns are finished, every row is pivoted and the values have factors; the rows of column
  `j` of `L` have later steps. -/
  finished : ∀ s, Reaches a tolerance n s → (∀ row < n, ∃ j < n, s.step? row = some j) ∧
    ∃ f, Staged.numeric factorize p values t = (.ok (), { t with factors := some f }) ∧
      f.lower = s.lower ∧ f.upper = s.upper ∧ (∀ row < n, s.step? row = some (f.step.getD row 0)) ∧
      ∀ j, ∀ cell ∈ f.lower.getD j [], j < f.step.getD cell.1 0
  /-- The permutation of the rows is never incomplete. -/
  complete : (Staged.numeric factorize p values t).1 ≠
    .error (.internal "sparse_lu: incomplete row permutation")

/-- Accepted values are factorized. -/
theorem numeric_of_accept (accepted : Factor.accept t.order p values = .ok a) :
    Staged.numeric factorize p values t = match factorize t.options a with
      | .ok f => (.ok (), { t with factors := some f })
      | .error e => (.error e, { t with factors := none }) := by
  rw [Staged.numeric, accepted, Outcome.ok_bind]
  cases factorize t.options a <;> rfl

/-- The columns keep the structure of the factors for all numbers, also where these obey no law. -/
theorem columns_keep_structure (accepted : Factor.accept t.order p values = .ok a) :
    KeepsStructure t p values a (Factor.pivotTolerance t.options.pivotThreshold values) p.ncols := by
  have outcome := numeric_of_accept accepted
  have square := Factor.square_of_accept accepted
  obtain ⟨rfl, rfl⟩ := (BuiltIn.accept_answers t.order p values).1 a accepted
  have rows : a.nrows = a.pattern.ncols := square.symm
  have state {k : Nat} {s : Partial α}
      (reached : Reaches a (Factor.pivotTolerance t.options.pivotThreshold a.values) k s) :
      s.Structured a.pattern.ncols k :=
    reached.structured rows
  constructor
  case between =>
    intro k _ s reached
    have structured := state reached
    refine ⟨structured.work_eq, structured.size_step, structured.size_lower, structured.size_upper,
      structured.step_lt, structured.step_injective,
      fun j cell held => ⟨structured.lower_lt j cell held, fun j' early pivoted => ?_⟩,
      fun j => ⟨structured.upper_lt j, structured.upper_increasing j⟩⟩
    exact absurd (structured.lower_later j cell held j' pivoted) (Nat.not_lt.mpr early)
  case inside =>
    intro k below s reached
    exact (state reached).eliminate?_eq rows below _
  case after =>
    intro k below s reached
    have structured := state reached
    have column := structured.eliminate rows (Factor.pivotTolerance t.options.pivotThreshold a.values)
    rcases turn : eliminate a _ k s with ⟨e | _, u⟩ <;> rw [Run.Post, turn] at column ⊢ <;>
      dsimp only at column ⊢
    · obtain ⟨-, marks⟩ := column
      have stopped : columns t.options a (Partial.start a.nrows) = (.error e, u) :=
        reached.stops below turn
      have clear : u.work = s.work := by rw [marks]
      refine ⟨clear.trans structured.work_eq, marks, ?_⟩
      rw [outcome, factorize, stopped]
    · exact ⟨column.work_eq, reached.next turn⟩
  case finished =>
    intro s reached
    have sound := (state reached).toSound
    obtain ⟨step, collected, finished⟩ := sound.finished
    refine ⟨fun row inside => ?_, ⟨s.lower, s.upper, s.diagonal, step⟩, ?_, rfl, rfl, finished.step,
      fun j cell held => ?_⟩
    · obtain ⟨j, pivoted⟩ := sound.exists_step inside
      exact ⟨j, sound.step_lt row j pivoted, pivoted⟩
    · have swept : columns t.options a (Partial.start a.nrows) = (.ok (), s) := reached
      rw [outcome, factorize, swept]
      dsimp only
      rw [collected]
    · exact sound.lower_later j cell held _ (finished.step cell.1 (sound.lower_lt j cell held))
  case complete =>
    have swept := post_structured rows (Factor.pivotTolerance t.options.pivotThreshold a.values) a.ncols
    rcases ran : columns t.options a (Partial.start a.nrows) with ⟨e | _, s⟩
    · obtain ⟨column, pivot, rejected⟩ := swept.of_error ran
      rw [outcome, factorize, ran, rejected]
      intro same
      cases same
    · obtain ⟨step, collected, -⟩ := (swept.of_ok ran).toSound.finished
      rw [outcome, factorize, ran]
      dsimp only
      rw [collected]
      intro same
      cases same

/-- The rows of `[[0, 1], [1, x]]` are exchanged, with not-a-number for `x`. -/
theorem columns_keep_structure_exchanged :
    let t : Staged Binary64 (SparseLU Binary64) := ⟨.default, some 2, none⟩
    let p := Pattern.dense 2 2
    let values : Array Binary64 := #[0, 1, 1, ⟨0x7ff8000000000000⟩]
    (Staged.numeric factorize p values t).1 = .ok () ∧
      ∃ a, Factor.accept t.order p values = .ok a ∧
        KeepsStructure t p values a (Factor.pivotTolerance t.options.pivotThreshold values) p.ncols := by
  intro t p values
  have size : values.size = p.nnz := by decide
  have accepted : Factor.accept t.order p values = .ok ⟨p, values, size⟩ := rfl
  have ran : (Staged.numeric factorize p values t).1 = .ok () := by decide +kernel
  exact ⟨ran, _, accepted, columns_keep_structure accepted⟩

end Numeric

end Cotangent.SparseLU
