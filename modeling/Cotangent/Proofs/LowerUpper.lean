import Mathlib
import Cotangent.Proofs.Elimination

/-! The columns of a sparse LU factorization in exact arithmetic. What a solve takes off the dense
column and what it leaves there add up to the column of the matrix, so every finished column of the
matrix is the same combination of the columns of `L` that `U` holds. A column without a pivot is a
combination of the columns of `L` before it. -/
namespace Cotangent.SparseLU

section Field

variable {α : Type} [FieldScalar α] {a : SparseMatrix α} {s : Partial α} {n k row i j : Nat}

/-- The entry of column `j` of `L` in a row of the matrix. -/
def Partial.weight (s : Partial α) (j i : Nat) : α :=
  (if s.step? i = some j then 1 else 0) + coefficient (s.lower.getD j []) i

/-- The entry of `U` in row `j` and column `k`. -/
def Partial.upperEntry (s : Partial α) (j k : Nat) : α :=
  coefficient (s.upper.getD k []) j + if j = k then s.diagonal.getD k 0 else 0

theorem Partial.weight_of_pivoted {j' : Nat} (sound : s.Sound n k) (pivoted : s.step? i = some j')
    (late : j' ≤ j) : s.weight j i = if j' = j then 1 else 0 := by
  have no_cell : i ∉ (s.lower.getD j []).map (·.1) := by
    intro member
    obtain ⟨cell, held, rfl⟩ := List.mem_map.mp member
    have later := sound.lower_later j cell held j' pivoted
    omega
  rw [Partial.weight, coefficient_eq_zero no_cell, pivoted, add_zero]
  simp only [Option.some.injEq]

theorem Partial.upperEntry_of_lt (sound : s.Sound n k) (below : j < i) : s.upperEntry i j = 0 := by
  have no_cell : i ∉ (s.upper.getD j []).map (·.1) := by
    intro member
    obtain ⟨cell, held, rfl⟩ := List.mem_map.mp member
    have earlier := sound.upper_lt j cell held
    omega
  rw [Partial.upperEntry, coefficient_eq_zero no_cell, if_neg (Nat.ne_of_gt below), add_zero]

/-! ## The triangular solve in exact arithmetic -/

/-- What is left of an entry and what was taken off it add up to what it was. -/
def Balanced (s : Partial α) (loaded : Array α) (acc : Array α × List (Nat × α)) : Prop :=
  ∀ i < loaded.size, loaded.getD i 0 =
    acc.1.getD i 0 + (acc.2.map fun cell => coefficient (s.lower.getD cell.1 []) i * cell.2).sum

theorem Balanced.step {loaded : Array α} {acc : Array α × List (Nat × α)}
    (size : acc.1.size = loaded.size) (balanced : Balanced s loaded acc) (row : Nat) :
    Balanced s loaded (s.substitute acc row) := by
  intro i inside
  rw [balanced i inside]
  cases pivoted : s.step? row with
  | none => simp [Partial.substitute, pivoted]
  | some j =>
    have taken : (s.substitute acc row).1.getD i 0 =
        acc.1.getD i 0 - coefficient (s.lower.getD j []) i * acc.1.getD row 0 := by
      simp only [Partial.substitute, pivoted, Partial.lowerOf_eq pivoted]
      split
      next zero => rw [isZero_iff.mp zero, mul_zero, sub_zero]
      next => exact getD_foldl_modify _ _ (size.symm ▸ inside)
    rw [taken, substitute_snd, pivoted]
    simp only [Option.map_some, Option.toList_some, List.singleton_append, List.map_cons,
      List.sum_cons]
    ring

namespace Partial.Sound

theorem balanced (s : Partial α) (a : SparseMatrix α) (k : Nat) :
    Balanced s (s.loaded a k) (s.solved a k) := by
  refine (foldl_keeps (P := fun _ acc => acc.1.size = (s.loaded a k).size ∧
    Balanced s (s.loaded a k) acc) ⟨rfl, fun i _ => by simp⟩ ?_).2
  rintro _ row _ acc _ ⟨size, kept⟩
  exact ⟨(size_substitute acc row).trans size, kept.step size row⟩

theorem loaded_eq (sound : s.Sound n k) (inside : i < n) (k' : Nat) :
    (s.loaded a k').getD i 0 = a.entry i k' := by
  have nodup : ((a.col k').map (·.1)).Nodup := by
    rw [a.map_fst_col]
    exact (a.pattern.isColumn_col k').1.imp Nat.ne_of_lt
  rw [← a.coefficient_col i k']
  exact getD_foldl_set nodup (sound.size_work.symm ▸ inside) (sound.clear i)

/-- The new column of `U` holds what the solve leaves in the pivot rows. -/
theorem coefficient_solved (sound : s.Sound n k) (square : a.nrows = n)
    (pivoted : s.step? i = some j) :
    coefficient (s.solved a k).2 j = (s.solved a k).1.getD i 0 := by
  have listed : ∀ rows : List Nat, rows.Nodup → coefficient (rows.filterMap fun row =>
      (s.step? row).map fun j => (j, (s.solved a k).1.getD row 0)) j =
        if i ∈ rows then (s.solved a k).1.getD i 0 else 0 := by
    intro rows nodup
    induction rows with
    | nil => simp [coefficient]
    | cons r rows ih =>
      obtain ⟨others, distinct⟩ := List.nodup_cons.mp nodup
      rw [List.filterMap_cons]
      by_cases same : i = r
      · subst same
        simp only [pivoted, Option.map_some, coefficient_cons, ih distinct, others, if_true, if_false,
          List.mem_cons_self, add_zero]
      · cases known : s.step? r with
        | none => simpa only [Option.map_none, List.mem_cons, same, false_or] using ih distinct
        | some j' =>
          have other : j' ≠ j := fun equal =>
            same (sound.step_injective i r j pivoted (equal ▸ known))
          simpa only [Option.map_some, coefficient_cons, other, if_false, zero_add, List.mem_cons,
            same, false_or] using ih distinct
  rw [(sound.substituted square).upper, coefficient_perm (List.reverse_perm _), listed _
    (sound.rows_nodup square)]
  split
  · rfl
  next outside => exact (sound.solved_outside square outside).symm

theorem solved_lt (sound : s.Sound n k) (square : a.nrows = n) :
    ∀ cell ∈ (s.solved a k).2, cell.1 < k := by
  intro cell member
  rw [(sound.substituted square).upper, List.mem_reverse, List.mem_filterMap] at member
  obtain ⟨r, -, listed⟩ := member
  obtain ⟨j, pivoted, rfl⟩ := Option.map_eq_some_iff.mp listed
  exact sound.step_lt r j pivoted

/-- A column of the matrix is the combination of columns of `L` that the solve found, and what it
left in rows without a pivot. -/
theorem column_eq (sound : s.Sound n k) (square : a.nrows = n) (inside : i < n) :
    a.entry i k = ∑ j ∈ Finset.range k, s.weight j i * coefficient (s.solved a k).2 j +
      if s.step? i = none then (s.solved a k).1.getD i 0 else 0 := by
  have size : i < (s.loaded a k).size := by
    rw [← (sound.substituted square).size, sound.size_solved square]
    exact inside
  have unit : ∑ j ∈ Finset.range k, (if s.step? i = some j then 1 else 0) *
      coefficient (s.solved a k).2 j = if s.step? i = none then 0 else (s.solved a k).1.getD i 0 := by
    cases pivoted : s.step? i with
    | none => simp
    | some j =>
      rw [Finset.sum_eq_single_of_mem j (Finset.mem_range.mpr (sound.step_lt i j pivoted))
        fun j' _ other => by simp [other.symm]]
      simp only [if_true, one_mul, coefficient_solved sound square pivoted, reduceCtorEq, if_false]
  rw [← sound.loaded_eq inside, balanced s a k i size,
    sum_cells (sound.solved_lt square) fun j => coefficient (s.lower.getD j []) i]
  simp only [Partial.weight, add_mul, Finset.sum_add_distrib, unit]
  split <;> ring

/-! ## One more column -/

theorem weight_extend (sound : s.Sound n k) (member : row ∈ s.rows a k) (square : a.nrows = n)
    (free : s.step? row = none) (earlier : j < k) (i : Nat) :
    (s.extend a k row).weight j i = s.weight j i := by
  have inside : row < s.step.size := sound.size_step ▸ sound.rows_lt square row member
  have cells : (s.extend a k row).lower.getD j [] = s.lower.getD j [] := by
    simp only [Partial.extend, getD_push, sound.size_lower, Nat.ne_of_lt earlier, if_false]
  rw [Partial.weight, Partial.weight, cells, Partial.step?_extend inside]
  by_cases same : i = row
  · subst same
    simp [free, Nat.ne_of_gt earlier]
  · simp [same]

theorem upperEntry_extend (sound : s.Sound n k) {k' : Nat} (earlier : k' < k) (j : Nat) :
    (s.extend a k row).upperEntry j k' = s.upperEntry j k' := by
  simp only [Partial.upperEntry, Partial.extend, getD_push, sound.size_upper, sound.size_diagonal,
    Nat.ne_of_lt earlier, if_false]

theorem upperEntry_extend_last (sound : s.Sound n k) (j : Nat) :
    (s.extend a k row).upperEntry j k = coefficient (s.solved a k).2 j +
      if j = k then (s.solved a k).1.getD row 0 else 0 := by
  simp only [Partial.upperEntry, Partial.extend, getD_push, sound.size_upper, sound.size_diagonal,
    if_true, coefficient_perm (List.mergeSort_perm ..)]

/-- The new column of `L` times the pivot is what the solve left in rows without a pivot. -/
theorem weight_extend_last (sound : s.Sound n k) (square : a.nrows = n) (member : row ∈ s.rows a k)
    (free : s.step? row = none) (pivot : (s.solved a k).1.getD row 0 ≠ 0) (i : Nat) :
    (s.extend a k row).weight k i * (s.solved a k).1.getD row 0 =
      if s.step? i = none then (s.solved a k).1.getD i 0 else 0 := by
  have inside : row < s.step.size := sound.size_step ▸ sound.rows_lt square row member
  have cells : coefficient ((s.extend a k row).lower.getD k []) i =
      if i ∈ s.rows a k ∧ (s.extend a k row).step? i = none ∧ (s.solved a k).1.getD i 0 ≠ 0 then
        (s.solved a k).1.getD i 0 / (s.solved a k).1.getD row 0 else 0 := by
    rw [← coefficient_filterMap (sound.rows_nodup square) (fun r =>
      (s.extend a k row).step? r = none ∧ (s.solved a k).1.getD r 0 ≠ 0) fun r =>
        (s.solved a k).1.getD r 0 / (s.solved a k).1.getD row 0]
    simp only [Partial.extend, getD_push, sound.size_lower, if_true, Bool.and_eq_true,
      Bool.not_eq_true', Option.isNone_iff_eq_none, ← Bool.not_eq_true, isZero_iff, Partial.step?]
  rw [Partial.weight, cells, Partial.step?_extend inside]
  by_cases same : i = row
  · subst same
    simp [free]
  · cases known : s.step? i with
    | some j => simp [same, Nat.ne_of_lt (sound.step_lt i j known)]
    | none =>
      by_cases zero : (s.solved a k).1.getD i 0 = 0
      · simp [same, zero]
      · have found : i ∈ s.rows a k := by
          by_contra outside
          exact zero (sound.solved_outside square outside)
        simp only [same, found, zero, ne_eq, not_false_eq_true, and_self, if_true, if_false,
          reduceCtorEq, zero_add, div_mul_cancel₀ _ pivot]

end Partial.Sound

/-! ## The run of columns -/

/-- The finished columns of the matrix are the products of `L` with the columns of `U`. -/
structure Partial.Factors (s : Partial α) (a : SparseMatrix α) (n k : Nat) : Prop where
  columns : ∀ k' < k, ∀ i < n,
    a.entry i k' = ∑ j ∈ Finset.range k, s.weight j i * s.upperEntry j k'
  pivots : ∀ j < k, s.diagonal.getD j 0 ≠ 0

theorem Partial.Factors.extend (sound : s.Sound n k) (factors : s.Factors a n k)
    (square : a.nrows = n) (member : row ∈ s.rows a k) (free : s.step? row = none)
    (pivot : (s.solved a k).1.getD row 0 ≠ 0) : (s.extend a k row).Factors a n (k + 1) := by
  constructor
  · intro k' reached i inside
    have old : ∀ j ∈ Finset.range k, (s.extend a k row).weight j i = s.weight j i := fun j earlier =>
      sound.weight_extend member square free (Finset.mem_range.mp earlier) i
    rw [Finset.sum_range_succ]
    rcases Nat.lt_succ_iff_lt_or_eq.mp reached with earlier | rfl
    · rw [factors.columns k' earlier i inside, sound.upperEntry_extend earlier,
        Partial.upperEntry_of_lt sound earlier, mul_zero, add_zero]
      refine Finset.sum_congr rfl fun j within => ?_
      rw [old j within, sound.upperEntry_extend earlier]
    · have top : coefficient (s.solved a k').2 k' = 0 := by
        refine coefficient_eq_zero fun listed => ?_
        obtain ⟨cell, held, same⟩ := List.mem_map.mp listed
        exact absurd (sound.solved_lt square cell held) (Nat.not_lt.mpr same.ge)
      rw [sound.column_eq square inside, sound.upperEntry_extend_last, if_pos rfl, top, zero_add,
        sound.weight_extend_last square member free pivot]
      congr 1
      refine Finset.sum_congr rfl fun j within => ?_
      rw [old j within, sound.upperEntry_extend_last, if_neg (Nat.ne_of_lt (Finset.mem_range.mp within)),
        add_zero]
  · intro j below
    simp only [Partial.extend, getD_push, sound.size_diagonal]
    split
    · exact pivot
    next other => exact factors.pivots j (by omega)

/-- A column is a combination of fewer vectors than there are columns up to it. -/
def Dependent (a : SparseMatrix α) (n : Nat) : Prop :=
  ∃ k < n, ∃ l u : Nat → Nat → α, ∀ k' ≤ k, ∀ i < n,
    a.entry i k' = ∑ j ∈ Finset.range k, l i j * u j k'

/-- A column for which the solve leaves zeros in all rows without a pivot. -/
theorem Partial.Factors.dependent (sound : s.Sound n k) (factors : s.Factors a n k)
    (square : a.nrows = n) (below : k < n)
    (vanish : ∀ i, s.step? i = none → (s.solved a k).1.getD i 0 = 0) : Dependent a n := by
  refine ⟨k, below, fun i j => s.weight j i, fun j k' =>
    if k' = k then coefficient (s.solved a k).2 j else s.upperEntry j k', fun k' reached i inside => ?_⟩
  rcases Nat.lt_or_eq_of_le reached with earlier | rfl
  · simpa only [Nat.ne_of_lt earlier, if_false] using factors.columns k' earlier i inside
  · have rest : (if s.step? i = none then (s.solved a k').1.getD i 0 else 0) = 0 := by
      split
      next free => exact vanish i free
      next => rfl
    rw [sound.column_eq square inside, rest, add_zero]
    simp only [if_true]

end Field

/-! ## Pivots in an ordered field -/

section Ordered

variable {α : Type} [FieldScalar α] [LinearOrder α] [OrderedScalar α] {a : SparseMatrix α}
  {s : Partial α} {n k row : Nat}

/-- No row without a pivot has a larger magnitude than the chosen one. -/
theorem abs_le_pivot (s : Partial α) (work : Array α) {rows : List Nat} {r : Nat} (member : r ∈ rows)
    (free : s.step? r = none) : |work.getD r 0| ≤ (s.pivot work rows).2 := by
  refine (foldl_keeps (P := fun done (best : Option Nat × α) => ∀ r ∈ done, s.step? r = none →
    best.1.isSome ∧ |work.getD r 0| ≤ best.2) (by simp) ?_ r member free).2
  intro done x rest best _ kept r member free
  by_cases better : ((s.step? x).isNone && (best.1.isNone ||
      Scalar.lt best.2 (Scalar.abs (work.getD x 0)))) = true
  · rw [if_pos better]
    refine ⟨rfl, ?_⟩
    rcases List.mem_append.mp member with earlier | here
    · obtain ⟨some, below⟩ := kept r earlier free
      simp only [Bool.and_eq_true, Bool.or_eq_true, Option.isNone_iff_eq_none, OrderedScalar.lt_iff]
        at better
      rcases better.2 with vacant | larger
      · simp [vacant] at some
      · exact below.trans larger.le
    · cases List.mem_singleton.mp here
      exact (OrderedScalar.abs_eq _).ge
  · rw [if_neg better]
    rcases List.mem_append.mp member with earlier | here
    · exact kept r earlier free
    · cases List.mem_singleton.mp here
      simp only [free, Option.isNone_none, Bool.true_and, Bool.or_eq_true, not_or,
        Option.isNone_iff_eq_none, OrderedScalar.lt_iff, OrderedScalar.abs_eq, not_lt] at better
      exact ⟨Option.isSome_iff_ne_none.mpr better.1, better.2⟩

/-- Every multiplier is at most one in magnitude. -/
def Partial.Small (s : Partial α) : Prop := ∀ j, ∀ cell ∈ s.lower.getD j [], |cell.2| ≤ 1

theorem Partial.Small.extend (sound : s.Sound n k) (small : s.Small) (square : a.nrows = n)
    (member : row ∈ s.rows a k)
    (largest : (s.chosen a k).2 = |(s.solved a k).1.getD row 0|) : (s.extend a k row).Small := by
  have inside : row < s.step.size := sound.size_step ▸ sound.rows_lt square row member
  intro j cell held
  by_cases last : j = s.lower.size
  · subst last
    obtain ⟨found, free', value⟩ := Partial.mem_lower_extend held
    rw [Partial.step?_extend inside] at free'
    split at free'
    · cases free'
    · have most := abs_le_pivot s (s.solved a k).1 found free'
      rw [value, abs_div]
      exact div_le_one_of_le₀ (most.trans largest.le) (abs_nonneg _)
  · simp only [Partial.extend, getD_push, if_neg last] at held
    exact small j cell held

end Ordered

end Cotangent.SparseLU
