import Mathlib
import Cotangent.Proofs.Backends
import Cotangent.Proofs.DenseExact
import Cotangent.Proofs.Scaling

/-! LU factorizations of a matrix and of a multiple of it, side by side. The factor `L` is a matter of
quotients and stays, `U` is multiplied, and both runs choose the same pivots, because what is left of a
column is multiplied as a whole. So they fail at the same column or not at all. -/
namespace Cotangent

variable {α : Type} [FieldScalar α] [LinearOrder α] [OrderedScalar α] {c tolerance : α}
  {a : SparseMatrix α} {n k p : Nat}

/-! ## Dense LU -/

namespace DenseLU

open Factor

variable {f f' t t' : DenseLU α}

/-- After `k` steps the multipliers of both runs are the same, and everything else is multiplied. -/
structure Scaled (c : α) (n k : Nat) (f f' : DenseLU α) : Prop where
  perm : f'.perm = f.perm
  shape : f.packed.shape = (n, n)
  shape' : f'.packed.shape = (n, n)
  multiplier : ∀ i < n, ∀ j < n, j < k → j < i → f'.packed.entry i j = f.packed.entry i j
  other : ∀ i < n, ∀ j < n, k ≤ j ∨ i ≤ j → f'.packed.entry i j = c * f.packed.entry i j

omit [LinearOrder α] [OrderedScalar α] in
/-- Steps with the same pivot row. -/
theorem Scaled.extend (scaled : Scaled c n k f f') (nonzero : c ≠ 0) (below : k < n)
    (step : Eliminates f t n k p) (step' : Eliminates f' t' n k p) : Scaled c n (k + 1) t t' := by
  have inside {i : Nat} (hi : i < n) : exchange k p i < n := by
    have below_n := step.below_n
    unfold exchange
    split
    · exact below_n
    · split <;> omega
  have quotient (i : Nat) (hi : i < n) (under : k < i) :
      t'.packed.entry i k = t.packed.entry i k := by
    rw [step.multiplier i hi under, step'.multiplier i hi under,
      scaled.other _ (inside hi) k below (.inl le_rfl),
      scaled.other p step.below_n k below (.inl le_rfl), mul_div_mul_left _ _ nonzero]
  constructor
  case perm => rw [step.perm, step'.perm, scaled.perm]
  case shape => exact step.shape
  case shape' => exact step'.shape
  case multiplier =>
    intro i hi j hj reached under
    rcases Nat.lt_succ_iff_lt_or_eq.mp reached with earlier | rfl
    · rw [step.moved i hi j hj (.inr earlier), step'.moved i hi j hj (.inr earlier)]
      refine scaled.multiplier _ (inside hi) j hj earlier ?_
      by_cases above : i < k
      · rwa [step.exchange_of_lt above]
      · exact earlier.trans_le (step.le_exchange_iff.mpr (not_lt.mp above))
    · exact quotient i hi under
  case other =>
    intro i hi j hj place
    by_cases kept : i ≤ k ∨ j < k
    · rw [step.moved i hi j hj kept, step'.moved i hi j hj kept]
      refine scaled.other _ (inside hi) j hj ?_
      by_cases left : k ≤ j
      · exact .inl left
      · rw [step.exchange_of_lt (by omega)]
        exact .inr (by omega)
    · obtain ⟨under, later⟩ : k < i ∧ k < j := by omega
      rw [step.reduced i hi j hj under later, step'.reduced i hi j hj under later,
        quotient i hi under, scaled.other _ (inside hi) j hj (.inl later.le),
        scaled.other p step.below_n j hj (.inl later.le)]
      ring

/-- Both runs eliminate with the same pivot row, or stop at the same column. -/
theorem Scaled.eliminate (scaled : Scaled c n k f f') (nonzero : c ≠ 0) (below : k < n)
    (nonneg : 0 ≤ tolerance) : Outcome.Parallel (Scaled c n (k + 1)) (f.eliminate tolerance k)
      (f'.eliminate (|c| * tolerance) k) := by
  have positive := abs_pos.mpr nonzero
  have same : f'.best n k = ((f.best n k).1, |c| * (f.best n k).2) := by
    refine firstMax_scaled positive below fun i later hi => ?_
    rw [scaled.other i hi k below (.inl le_rfl), abs_scaled]
  have first := eliminate_outcome (congrArg Prod.fst scaled.shape) below nonneg
  have second := eliminate_outcome (congrArg Prod.fst scaled.shape') below
    (mul_nonneg positive.le nonneg)
  rw [same] at second
  rcases first with ⟨large, t, turn, step⟩ | ⟨small, turn⟩
  · obtain ⟨-, t', turn', step'⟩ :=
      second.resolve_right fun other => (le_of_mul_le_mul_left other.1 positive).not_gt large
    rw [turn, turn']
    exact .ok (scaled.extend nonzero below step step')
  · obtain ⟨-, turn'⟩ :=
      second.resolve_left fun other => (lt_of_mul_lt_mul_left other.1 positive.le).not_ge small
    rw [turn, turn']
    exact .error rfl

/-- The factors of both runs stay scaled. -/
theorem factorize_scaled {options : Options α} (rows : a.nrows = n) (columns : a.ncols = n)
    (nonzero : c ≠ 0) (nonneg : 0 ≤ options.pivotThreshold) :
    Outcome.Parallel (Scaled c n n) (factorize options a) (factorize options (a.scaled c)) := by
  have start : Scaled c n 0 ⟨a.toDense, Array.range n⟩ ⟨(a.scaled c).toDense, Array.range n⟩ := by
    refine ⟨rfl, Prod.ext rows columns, Prod.ext rows columns, fun _ _ j _ none => by omega,
      fun i hi j hj _ => ?_⟩
    exact a.entry_toDense_scaled c (rows ▸ hi) (columns ▸ hj)
  by_cases roomy : a.pattern.Roomy
  · rw [factorize_of_roomy roomy, factorize_of_roomy (a := a.scaled c) roomy,
      a.pivotTolerance_scaled nonzero, rows, show (a.scaled c).nrows = n from rows]
    exact .foldlM_range start fun k below f f' scaled =>
      scaled.eliminate nonzero below (pivotTolerance_nonneg nonneg a.values)
  · rw [factorize_of_crowded roomy, factorize_of_crowded (a := a.scaled c) roomy]
    exact .error rfl

/-- Factors of a matrix and of its multiple have the same pivots and the same rank, and give
proportional solutions. -/
theorem Scaled.rescaled {options : Options α} (scaled : Scaled c n n f f') (nonzero : c ≠ 0)
    {m : Matrix (Fin n) (Fin n) α}
    (solves : Factor.Solves m fun nrhs transposed rhs => f.solve nrhs transposed rhs)
    (solves' : Factor.Solves (c • m) fun nrhs transposed rhs => f'.solve nrhs transposed rhs) :
    BuiltIn.Rescaled c (.denseLU ⟨options, some n, some f⟩)
      (.denseLU ⟨options, some n, some f'⟩) := by
  have order : f.order = n := congrArg Prod.fst scaled.shape
  have order' : f'.order = n := congrArg Prod.fst scaled.shape'
  constructor
  case pivotOrder => exact congrArg some scaled.perm
  case rank =>
    have same : f'.rank options = f.rank options := by
      rw [rank, rank, order, order']
      refine numericalRank_scaled (abs_pos.mpr nonzero) (fun k inside => ?_) options.rankTolerance
      have below := List.mem_range.mp inside
      rw [scaled.other k below k below (.inr le_rfl), abs_mul]
    exact congrArg Except.ok same
  case solve =>
    intro m nrhs transposed rhs
    refine solves.scaled_of_refused solves' nonzero (fun nrhs transposed rhs other => ?_) nrhs
      transposed rhs
    simp only [solve, order, order']
    exact ⟨_, eachColumn_refused other _ rhs, eachColumn_refused other _ rhs⟩

/-- Values and their multiples have proportional factors, or fail alike. -/
theorem rescaled {options : Options α} (rows : a.nrows = n) (columns : a.ncols = n)
    (nonzero : c ≠ 0) (nonneg : 0 ≤ options.pivotThreshold) :
    Outcome.Parallel (fun f f' => BuiltIn.Rescaled c (.denseLU ⟨options, some n, some f⟩)
      (.denseLU ⟨options, some n, some f'⟩)) (factorize options a)
      (factorize options (a.scaled c)) := by
  refine ((factorize_scaled rows columns nonzero nonneg).and_results
    (fun _ => solves_of_factorize rows columns nonneg)
    fun _ => solves_of_factorize (m := a.scaled c) rows columns nonneg).imp ?_
  rintro f f' ⟨scaled, solves, solves'⟩
  rw [a.matrix_scaled] at solves'
  exact scaled.rescaled nonzero solves solves'

end DenseLU

/-! ## Sparse LU -/

namespace SparseLU

open Factor

/-- The state of the run on the multiple of a matrix. -/
def Partial.scaled (c : α) (s : Partial α) : Partial α :=
  { s with
    upper := s.upper.map (scaleCells c)
    diagonal := s.diagonal.map (c * ·)
    work := s.work.map (c * ·) }

section Column

variable (a) (k) (s : Partial α)

omit [LinearOrder α] [OrderedScalar α]

/-- The searches only see patterns. -/
theorem reach_scaled (c : α) : (s.scaled c).reach k (((a.scaled c).col k).map (·.1)) =
    s.reach k ((a.col k).map (·.1)) := by
  rw [a.col_scaled, fst_scaleCells]
  rfl

theorem rows_scaled (c : α) : (s.scaled c).rows (a.scaled c) k = s.rows a k :=
  congrArg Reach.State.finished (reach_scaled a k s c)

theorem loaded_scaled (c : α) :
    (s.scaled c).loaded (a.scaled c) k = (s.loaded a k).map (c * ·) := by
  rw [Partial.loaded, a.col_scaled, scaleCells, List.foldl_map]
  exact List.foldl_hom (Array.map (c * ·)) fun work cell => map_mul_setIfInBounds work c cell.2 cell.1

/-- A row gives a multiple to `U` and takes a multiple off the others. -/
theorem substitute_scaled (nonzero : c ≠ 0) (acc : Array α × List (Nat × α)) (row : Nat) :
    (s.scaled c).substitute (acc.1.map (c * ·), scaleCells c acc.2) row =
      ((s.substitute acc row).1.map (c * ·), scaleCells c (s.substitute acc row).2) := by
  have step : (s.scaled c).step? row = s.step? row := rfl
  have lower : (s.scaled c).lowerOf row = s.lowerOf row := rfl
  unfold Partial.substitute
  rw [step, lower]
  cases s.step? row with
  | none => rfl
  | some j =>
    simp only [getD_map_mul, isZero_scaled nonzero]
    refine Prod.ext ?_ rfl
    dsimp only
    split
    · rfl
    · exact List.foldl_hom (Array.map (c * ·)) fun work cell => map_mul_modify work cell.1 fun x => by
        ring

theorem solved_scaled (nonzero : c ≠ 0) : (s.scaled c).solved (a.scaled c) k =
    ((s.solved a k).1.map (c * ·), scaleCells c (s.solved a k).2) := by
  rw [Partial.solved, rows_scaled, loaded_scaled]
  have start : (Array.map (c * ·) (s.loaded a k), []) =
      ((s.loaded a k, []) : Array α × List (Nat × α)).map (Array.map (c * ·)) (scaleCells c) := rfl
  rw [start]
  exact List.foldl_hom (Prod.map (Array.map (c * ·)) (scaleCells c))
    fun acc row => substitute_scaled s nonzero acc row

theorem cleared_scaled (nonzero : c ≠ 0) :
    (s.scaled c).cleared (a.scaled c) k = (s.cleared a k).map (c * ·) := by
  rw [Partial.cleared, rows_scaled, solved_scaled a k s nonzero]
  exact List.foldl_hom (Array.map (c * ·)) fun work row => map_mul_clear work c row

/-- The finished column is a multiple, apart from the multipliers. -/
theorem extend_scaled (nonzero : c ≠ 0) (row : Nat) :
    (s.scaled c).extend (a.scaled c) k row = (s.extend a k row).scaled c := by
  unfold Partial.extend
  have sorted (cells : List (Nat × α)) : (scaleCells c cells).mergeSort (fun x y => x.1 ≤ y.1) =
      scaleCells c (cells.mergeSort fun x y => x.1 ≤ y.1) := by
    refine (List.map_mergeSort ?_).symm
    exact fun _ _ _ _ => rfl
  simp only [rows_scaled, solved_scaled a k s nonzero, cleared_scaled a k s nonzero, reach_scaled,
    getD_map_mul, isZero_scaled nonzero, mul_div_mul_left _ _ nonzero, sorted]
  simp only [Partial.scaled, Array.map_push]
  rfl

end Column

variable (s : Partial α)

/-- The same row is chosen. -/
theorem chosen_scaled (nonzero : c ≠ 0) (k : Nat) : (s.scaled c).chosen (a.scaled c) k =
    ((s.chosen a k).1, |c| * (s.chosen a k).2) := by
  rw [Partial.chosen, rows_scaled, solved_scaled a k s nonzero]
  refine foldl_relates (R := fun _ (best' best : Option Nat × α) => best' = (best.1, |c| * best.2))
    (s.rows a k) (by rw [mul_zero]) ?_
  rintro done row rest _ best - rfl
  have step : (s.scaled c).step? row = s.step? row := rfl
  dsimp only
  rw [getD_map_mul, abs_scaled, lt_scaled (abs_pos.mpr nonzero), step]
  split <;> rfl

/-- Both runs finish a column with the same row, or stop there. -/
theorem eliminate_scaled (nonzero : c ≠ 0) (tolerance : α) (k : Nat) :
    (∃ t, eliminate a tolerance k s = (.ok (), t) ∧
      eliminate (a.scaled c) (|c| * tolerance) k (s.scaled c) = (.ok (), t.scaled c)) ∨
    ∃ e e', (eliminate a tolerance k s).1 = .error e ∧
      (eliminate (a.scaled c) (|c| * tolerance) k (s.scaled c)).1 = .error e' ∧
      e.unmeasured = e'.unmeasured := by
  have second := eliminate_cases (a.scaled c) (|c| * tolerance) k (s.scaled c)
  rw [chosen_scaled s nonzero k, lt_scaled (abs_pos.mpr nonzero)] at second
  rcases eliminate_cases a tolerance k s with ⟨row, chosen, large, ran⟩ | ⟨missing, ran⟩
  · rw [chosen, large] at second
    obtain ⟨row', chosen', -, ran'⟩ := second.resolve_right (by simp)
    obtain rfl : row = row' := Option.some.inj chosen'
    rw [extend_scaled a k s nonzero] at ran'
    exact .inl ⟨_, ran, ran'⟩
  · obtain ⟨-, ran'⟩ := second.resolve_left fun ⟨row, chosen, large, _⟩ =>
      missing.elim (fun none => Option.some_ne_none row (chosen.symm.trans none))
        fun small => Bool.false_ne_true (small.symm.trans large)
    exact .inr ⟨_, _, congrArg Prod.fst ran, congrArg Prod.fst ran', rfl⟩

/-- Columns one after another. -/
theorem forM_eliminate_scaled (nonzero : c ≠ 0) (tolerance : α) (ks : List Nat) :
    (∃ t, ks.forM (eliminate a tolerance) s = (.ok (), t) ∧
      ks.forM (eliminate (a.scaled c) (|c| * tolerance)) (s.scaled c) = (.ok (), t.scaled c)) ∨
    ∃ e e', (ks.forM (eliminate a tolerance) s).1 = .error e ∧
      (ks.forM (eliminate (a.scaled c) (|c| * tolerance)) (s.scaled c)).1 = .error e' ∧
      e.unmeasured = e'.unmeasured := by
  induction ks generalizing s with
  | nil => exact .inl ⟨s, rfl, rfl⟩
  | cons k ks ih =>
    have loop (a : SparseMatrix α) (tolerance : α) : (k :: ks).forM (eliminate a tolerance) =
      eliminate a tolerance k >>= fun _ => ks.forM (eliminate a tolerance) := rfl
    rw [loop, loop]
    rcases eliminate_scaled s nonzero tolerance k with ⟨t, ran, ran'⟩ | ⟨e, e', failed, failed', same⟩
    · rw [Run.bind_apply, Run.bind_apply, ran, ran']
      exact ih t
    · exact .inr ⟨e, e', Run.error_of_first failed, Run.error_of_first failed', same⟩

omit [LinearOrder α] [OrderedScalar α] in
/-- Before the first column there is nothing to multiply. -/
theorem start_scaled (c : α) (n : Nat) : (Partial.start n : Partial α).scaled c = Partial.start n := by
  simp [Partial.scaled, Partial.start]

/-- The factors of the multiple of a matrix. -/
def scaled (c : α) (f : SparseLU α) : SparseLU α :=
  { f with
    upper := f.upper.map (scaleCells c)
    diagonal := f.diagonal.map (c * ·) }

theorem factorize_scaled (nonzero : c ≠ 0) (options : Options α) (a : SparseMatrix α) :
    Outcome.Parallel (fun f f' => f' = f.scaled c) (factorize options a)
      (factorize options (a.scaled c)) := by
  have run := forM_eliminate_scaled (a := a) (Partial.start a.nrows) nonzero
    (pivotTolerance options.pivotThreshold a.values) (List.range a.ncols)
  rw [start_scaled, ← a.pivotTolerance_scaled nonzero] at run
  change (∃ t, columns options a (Partial.start a.nrows) = (.ok (), t) ∧
    columns options (a.scaled c) (Partial.start (a.scaled c).nrows) = (.ok (), t.scaled c)) ∨
    ∃ e e', (columns options a (Partial.start a.nrows)).1 = .error e ∧
      (columns options (a.scaled c) (Partial.start (a.scaled c).nrows)).1 = .error e' ∧
      e.unmeasured = e'.unmeasured at run
  unfold factorize
  rcases run with ⟨t, ran, ran'⟩ | ⟨e, e', failed, failed', same⟩
  · have step : (t.scaled c).step = t.step := rfl
    rw [ran, ran']
    dsimp only
    rw [step]
    cases t.step.mapM id with
    | none => exact .error rfl
    | some step => exact .ok rfl
  · generalize columns options a (Partial.start a.nrows) = run,
      columns options (a.scaled c) (Partial.start (a.scaled c).nrows) = run' at failed failed'
    obtain ⟨_, t⟩ := run
    obtain ⟨_, t'⟩ := run'
    subst failed failed'
    exact .error same

/-- Values and their multiples have proportional factors, or fail alike. -/
theorem rescaled {options : Options α} (rows : a.nrows = n) (columns : a.ncols = n)
    (nonzero : c ≠ 0) (nonneg : 0 ≤ options.pivotThreshold) :
    Outcome.Parallel (fun f f' => BuiltIn.Rescaled c (.sparseLU ⟨options, some n, some f⟩)
      (.sparseLU ⟨options, some n, some f'⟩)) (factorize options a)
      (factorize options (a.scaled c)) := by
  refine ((factorize_scaled nonzero options a).and_results
    (fun f done => And.intro ((factorize_answers options a).1 f done)
      (solves_of_factorize rows columns nonneg done))
    fun f done => solves_of_factorize (a := a.scaled c) rows columns nonneg done).imp ?_
  rintro f f' ⟨rfl, ⟨order, solves⟩, solves'⟩
  replace order : f.order = n := order.trans rows
  rw [a.matrix_scaled] at solves'
  constructor
  case pivotOrder => rfl
  case rank =>
    have same : (f.scaled c).rank options = f.rank options := by
      have listed : (f.scaled c).diagonal.toList = f.diagonal.toList.map (c * ·) := Array.toList_map
      have counted := numericalRank_scaled (abs_pos.mpr nonzero) (f := id) (g := (c * ·))
        (fun x (_ : x ∈ f.diagonal.toList) => abs_mul c x) options.rankTolerance
      rwa [List.map_id, ← listed] at counted
    exact congrArg Except.ok same
  case solve =>
    intro m nrhs transposed rhs
    refine solves.scaled_of_refused solves' nonzero (fun nrhs transposed rhs other => ?_) nrhs
      transposed rhs
    have order' : (f.scaled c).order = n := order
    simp only [solve, order, order']
    exact ⟨_, eachColumn_refused other _ rhs, eachColumn_refused other _ rhs⟩

end SparseLU

end Cotangent
