import Cotangent.Proofs.Cursors

/-! What a Cholesky factorization sees of its values. The rows are loaded from the lower triangle alone,
so the reduced diagonal entries and the factor follow from it. Only the tolerance, against which each
of these entries is held, is read off all values: what stands above the diagonal can decide whether a
matrix is accepted, but not what its factor is. -/
namespace Cotangent.Cholesky

open Pattern

variable {α : Type} [Scalar α] {p : Pattern} {a : Analysis} {m m' : SparseMatrix α} {s : Partial α}
  {k n : Nat}

/-- Values that agree on and below the diagonal. -/
def AgreeBelow (p : Pattern) (v w : Array α) : Prop :=
  ∀ i j q, j ≤ i → p.position? i j = some q → v[q]? = w[q]?

omit [Scalar α] in
/-- A value above the diagonal does not show on and below it. -/
theorem agreeBelow_set {i j q : Nat} (v : Array α) (found : p.position? i j = some q)
    (above : i < j) (x : α) : AgreeBelow p v (v.setIfInBounds q x) := by
  intro i' j' q' below found'
  rw [Array.getElem?_setIfInBounds_ne]
  rintro rfl
  obtain ⟨rfl, rfl⟩ := position?_inj found found'
  exact absurd above (Nat.not_lt.mpr below)

/-! ### Rows without a tolerance -/

/-- The state before row `k` if no row is rejected. -/
def before (a : Analysis) (m : SparseMatrix α) : Nat → Partial α
  | 0 => .start a
  | k + 1 => (before a m k).closed a m k

/-- The reduced diagonal entry of row `k`. -/
def pivot (a : Analysis) (m : SparseMatrix α) (k : Nat) : α := ((before a m k).reduced a m k).2

/-- The first of `count` rows from row `k` on whose diagonal entry is not above the tolerance. -/
def rejected (pivot : Nat → α) (tolerance : α) (k count : Nat) : Option Nat :=
  (List.range' k count).find? fun k => Scalar.le (pivot k) tolerance

theorem sound_before (fills : a.Fills m.pattern) (within : k ≤ m.pattern.nrows) :
    (before a m k).Sound a m.pattern.nrows k := by
  induction k with
  | zero => exact Partial.sound_start fills
  | succ k ih => exact (ih (Nat.le_of_succ_le within)).closed fills within

/-- The loop over the rows ends with the state after them, or stops at the first row that is rejected. -/
theorem forM_factorRow (fills : a.Fills m.pattern) (tolerance : α) (k count : Nat) :
    match rejected (pivot a m) tolerance k count with
    | none => (List.range' k count).forM (factorRow a m.values tolerance) (before a m k) =
        (.ok (), before a m (k + count))
    | some j => ((List.range' k count).forM (factorRow a m.values tolerance) (before a m k)).1 =
        .error (.factorization .numeric (.notPositiveDefinite j (Scalar.scientific (pivot a m j)))) := by
  induction count generalizing k with
  | zero => rfl
  | succ count ih =>
    have loop : (List.range' k (count + 1)).forM (factorRow a m.values tolerance) =
        factorRow a m.values tolerance k >>= fun _ =>
          (List.range' (k + 1) count).forM (factorRow a m.values tolerance) := rfl
    rw [rejected, List.range'_succ, List.find?_cons, ← List.range'_succ, loop]
    rcases factorRow_cases fills tolerance k (before a m k) with ⟨large, ran⟩ | ⟨small, ran⟩
    · have large : Scalar.le (pivot a m k) tolerance = false := large
      have later := ih (k + 1)
      rw [Nat.add_right_comm, Nat.add_assoc] at later
      simp only [large, Run.bind_apply, ran]
      exact later
    · have small : Scalar.le (pivot a m k) tolerance = true := small
      simp only [small]
      exact Run.error_of_first ran

/-- After all rows there is a value for every position. -/
theorem size_before (fills : a.Fills m.pattern) :
    (before a m m.pattern.nrows).values.size = a.lower.nnz :=
  (sound_before fills le_rfl).size_values

/-- The factorization gives the factor, or names the first row that is rejected. -/
theorem factorize_eq (fills : a.Fills m.pattern) (options : Options α) :
    factorize options a m.values =
      match rejected (pivot a m) (Factor.pivotTolerance options.pivotThreshold m.values) 0
        m.pattern.nrows with
      | none => .ok ⟨a.lower, (before a m m.pattern.nrows).values, size_before fills⟩
      | some k => .error (.factorization .numeric
          (.notPositiveDefinite k (Scalar.scientific (pivot a m k)))) := by
  have loop := forM_factorRow fills (Factor.pivotTolerance options.pivotThreshold m.values) 0
    m.pattern.nrows
  rw [← List.range_eq_range', Nat.zero_add] at loop
  simp only [factorize, fills.columns]
  cases search : rejected (pivot a m) (Factor.pivotTolerance options.pivotThreshold m.values) 0
    m.pattern.nrows with
  | none =>
    rw [search] at loop
    have loop : (List.range m.pattern.nrows).forM (factorRow a m.values
        (Factor.pivotTolerance options.pivotThreshold m.values)) (Partial.start a) =
          (.ok (), before a m m.pattern.nrows) := loop
    simp only [loop, SparseMatrix.ofValues, size_before fills, dite_true]
  | some k =>
    rw [search] at loop
    rcases ran : (List.range m.pattern.nrows).forM (factorRow a m.values
      (Factor.pivotTolerance options.pivotThreshold m.values)) (Partial.start a) with ⟨_ | _, t⟩
    · exact congrArg Except.error (Except.error.inj ((congrArg Prod.fst ran).symm.trans loop))
    · cases (congrArg Prod.fst ran).symm.trans loop

/-! ### Agreement -/

/-- A row is loaded from the lower triangle. -/
theorem loaded_congr (fills : a.Fills m.pattern) (pattern : m'.pattern = m.pattern)
    (agree : AgreeBelow m.pattern m.values m'.values) (s : Partial α) (k : Nat) :
    s.loaded a m' k = s.loaded a m k := by
  refine List.foldl_ext _ _ _ fun work i member => ?_
  have below : i ≤ k := (mem_col_upper.mp (fills.upper ▸ member)).2
  have entry : m'.entry k i = m.entry k i := by
    simp only [SparseMatrix.entry, pattern]
    cases found : m.pattern.position? k i with
    | none => rfl
    | some q =>
      simp only [Array.getD_eq_getD_getElem?, agree k i q below found]
  rw [entry]

theorem reduced_congr (fills : a.Fills m.pattern) (pattern : m'.pattern = m.pattern)
    (agree : AgreeBelow m.pattern m.values m'.values) (s : Partial α) (k : Nat) :
    s.reduced a m' k = s.reduced a m k := by
  simp only [Partial.reduced, Partial.opened, loaded_congr fills pattern agree]

/-- So are all rows. -/
theorem before_congr (fills : a.Fills m.pattern) (pattern : m'.pattern = m.pattern)
    (agree : AgreeBelow m.pattern m.values m'.values) (k : Nat) : before a m' k = before a m k := by
  induction k with
  | zero => rfl
  | succ k ih => simp only [before, ih, Partial.closed, reduced_congr fills pattern agree]

/-- The lower triangle decides the reduced diagonal entries and the factor of a matrix, and so its
acceptance for a given tolerance: with values that agree on and below the diagonal, the first row whose
diagonal entry is not above their tolerance is named, and without one there is the same factor. In
particular, values with the same tolerance have the same outcome and leave the same state, from which
every question is answered. -/
theorem lower_triangle_decides {s : Cholesky α} {v : Array α} (square : p.ncols = p.nrows)
    (full : p.hasFullDiagonal = true) :
    (∀ w, w.size = v.size → AgreeBelow p v w →
      Factor.pivotTolerance s.options.pivotThreshold w =
        Factor.pivotTolerance s.options.pivotThreshold v →
      numeric p w (symbolic p s).2 = numeric p v (symbolic p s).2) ∧
    (v.size = p.nnz → ∃ (diagonal : Nat → α) (l : SparseMatrix α),
      ∀ w, w.size = v.size → AgreeBelow p v w → numeric p w (symbolic p s).2 =
        match rejected diagonal (Factor.pivotTolerance s.options.pivotThreshold w) 0 p.nrows with
        | none => (.ok (), ⟨s.options, (symbolic p s).2.analysis, some l⟩)
        | some k => (.error (.factorization .numeric
            (.notPositiveDefinite k (Scalar.scientific (diagonal k)))),
            ⟨s.options, (symbolic p s).2.analysis, none⟩)) := by
  obtain ⟨a, analysed, fills⟩ := exists_analyse square full
  have state : symbolic p s = (.ok (), ⟨s.options, some a, none⟩) := by
    simp only [symbolic, analysed]
  rw [state]
  have decided (size : v.size = p.nnz) : ∃ (diagonal : Nat → α) (l : SparseMatrix α),
      ∀ w, w.size = v.size → AgreeBelow p v w → numeric p w ⟨s.options, some a, none⟩ =
        match rejected diagonal (Factor.pivotTolerance s.options.pivotThreshold w) 0 p.nrows with
        | none => (.ok (), ⟨s.options, some a, some l⟩)
        | some k => (.error (.factorization .numeric
            (.notPositiveDefinite k (Scalar.scientific (diagonal k)))), ⟨s.options, some a, none⟩) := by
    let m : SparseMatrix α := ⟨p, v, size⟩
    refine ⟨pivot a m, ⟨a.lower, (before a m p.nrows).values, size_before (m := m) fills⟩, ?_⟩
    intro w same agree
    let m' : SparseMatrix α := ⟨p, w, same.trans size⟩
    have rows (k : Nat) : before a m' k = before a m k :=
      before_congr (m := m) fills (rfl : m'.pattern = m.pattern) agree k
    have pivots : pivot a m' = pivot a m := funext fun k => by
      rw [pivot, pivot, rows, reduced_congr (m := m) fills (rfl : m'.pattern = m.pattern) agree]
    have run := numeric_eq (m := m') fills square s.options
    rw [factorize_eq fills, pivots] at run
    have factor : (⟨a.lower, (before a m' p.nrows).values, size_before (m := m') fills⟩ :
        SparseMatrix α) = ⟨a.lower, (before a m p.nrows).values, size_before (m := m) fills⟩ :=
      SparseMatrix.eq_of_values rfl (congrArg Partial.values (rows p.nrows))
    refine run.trans ?_
    rw [← factor]
    cases rejected (pivot a m) (Factor.pivotTolerance s.options.pivotThreshold m'.values) 0
      m'.pattern.nrows <;> rfl
  refine ⟨fun w same agree tolerance => ?_, decided⟩
  by_cases size : v.size = p.nnz
  · obtain ⟨diagonal, l, decides⟩ := decided size
    rw [decides w same agree, decides v rfl fun _ _ _ _ _ => rfl, tolerance]
  · rw [numeric_of_size_ne fills square s.options size,
      numeric_of_size_ne fills square s.options (same ▸ size), same]

/-- The matrices `[[4, 7], [2, 5]]` and `[[4, -7], [2, 5]]` have one lower triangle and one tolerance. -/
theorem lower_triangle_decides_two :
    let s : Cholesky Rat := .new ⟨1 / 100, 0⟩
    let v : Array Rat := #[4, 2, 7, 5]
    let w : Array Rat := #[4, 2, -7, 5]
    (Pattern.dense 2 2).hasFullDiagonal = true ∧ AgreeBelow (.dense 2 2) v w ∧
      (numeric (.dense 2 2) v (symbolic (.dense 2 2) s).2).1.isOk = true ∧
      numeric (.dense 2 2) w (symbolic (.dense 2 2) s).2 =
        numeric (.dense 2 2) v (symbolic (.dense 2 2) s).2 := by
  intro s v w
  have full : (Pattern.dense 2 2).hasFullDiagonal = true := by decide +kernel
  have place : (Pattern.dense 2 2).position? 0 1 = some 2 := by decide +kernel
  have agree : AgreeBelow (.dense 2 2) v w := agreeBelow_set v place Nat.one_pos (-7)
  have tolerance : Factor.pivotTolerance (1 / 100) w = Factor.pivotTolerance (1 / 100) v := by
    decide +kernel
  exact ⟨full, agree, by decide +kernel, (lower_triangle_decides rfl full).1 w rfl agree tolerance⟩

/-- The lower triangle alone does not decide acceptance: ones on the diagonal are accepted with a zero
above them, and rejected with an entry above them that lifts the tolerance as high. -/
theorem lower_triangle_not_enough :
    let s : Cholesky Rat := .new .default
    let v : Array Rat := #[1, 0, 0, 1]
    let w : Array Rat := #[1, 0, 10000000000000, 1]
    (Pattern.dense 2 2).hasFullDiagonal = true ∧ AgreeBelow (.dense 2 2) v w ∧
      (numeric (.dense 2 2) v (symbolic (.dense 2 2) s).2).1.isOk = true ∧
      (numeric (.dense 2 2) w (symbolic (.dense 2 2) s).2).1.isOk = false := by
  intro s v w
  have place : (Pattern.dense 2 2).position? 0 1 = some 2 := by decide +kernel
  exact ⟨by decide +kernel, agreeBelow_set v place Nat.one_pos 10000000000000, by decide +kernel,
    by decide +kernel⟩

end Cotangent.Cholesky
