import Mathlib
import Cotangent.Proofs.LowerTriangle
import Cotangent.Proofs.ScaledPivots
import Cotangent.Proofs.ScaledReflections
import Cotangent.Proofs.SymmetricExact

/-! Cholesky factorizations of a matrix and of `r * r` times it, side by side, and from them what all
backends have in common. The stored factor is multiplied by `r`, and the dense row and the reduced
diagonal entries by `r * r`, which is how the tolerance grows as well. The root of a diagonal entry is
only taken once the entry has passed, so it is positive then. -/
namespace Cotangent

namespace Cholesky

variable {α : Type} [FieldScalar α] {a : Analysis} {m l : SparseMatrix α} {r : α} {k n : Nat}

/-! ### One row -/

/-- The state of the run on `r * r` times a matrix. -/
def Partial.scaled (r : α) (s : Partial α) : Partial α :=
  { s with
    values := s.values.map (r * ·)
    work := s.work.map (r * r * ·) }

/-- A column takes multiples off the dense row and off the diagonal entry. -/
theorem eliminate_scaled (nonzero : r ≠ 0) (starts rows : Array Nat) (acc : Partial α × α) (i : Nat) :
    eliminate starts rows (acc.map (Partial.scaled r) (r * r * ·)) i =
      (eliminate starts rows acc i).map (Partial.scaled r) (r * r * ·) := by
  obtain ⟨s, d⟩ := acc
  have entry : r * r * s.work.getD i 0 / (r * s.values.getD (starts.getD i 0) 0) =
      r * (s.work.getD i 0 / s.values.getD (starts.getD i 0) 0) := by
    rw [mul_assoc, mul_div_mul_left _ _ nonzero, mul_div_assoc]
  simp only [eliminate, Prod.map, Partial.scaled, getD_map_mul, entry, map_mul_clear,
    map_mul_setIfInBounds]
  refine Prod.ext ?_ (by ring)
  dsimp only
  congr 1
  exact List.foldl_hom (Array.map (r * r * ·)) fun work q =>
    map_mul_modify work (rows.getD q 0) fun x => by ring

theorem loaded_scaled (s : Partial α) (k : Nat) :
    (s.scaled r).loaded a (m.scaled (r * r)) k = (s.loaded a m k).map (r * r * ·) := by
  unfold Partial.loaded
  simp only [m.entry_scaled]
  exact List.foldl_hom (Array.map (r * r * ·)) fun work i =>
    map_mul_setIfInBounds work (r * r) (m.entry k i) i

theorem reduced_scaled (nonzero : r ≠ 0) (s : Partial α) (k : Nat) :
    (s.scaled r).reduced a (m.scaled (r * r)) k =
      (s.reduced a m k).map (Partial.scaled r) (r * r * ·) := by
  have opened : (s.scaled r).opened a (m.scaled (r * r)) k = (s.opened a m k).scaled r := by
    simp only [Partial.opened, loaded_scaled, map_mul_clear]
    rfl
  have start : ((s.scaled r).opened a (m.scaled (r * r)) k,
      ((s.scaled r).loaded a (m.scaled (r * r)) k).getD k 0) =
        (s.opened a m k, (s.loaded a m k).getD k 0).map (Partial.scaled r) (r * r * ·) := by
    rw [opened, loaded_scaled, getD_map_mul]
    rfl
  unfold Partial.reduced
  rw [start]
  exact List.foldl_hom (Prod.map (Partial.scaled r) (r * r * ·)) fun acc i =>
    eliminate_scaled nonzero _ _ acc i

/-! ### All rows -/

variable [LinearOrder α] [RootScalar α]

theorem sqrt_scaled (positive : 0 < r) {x : α} (nonneg : 0 ≤ x) :
    Scalar.sqrt (r * r * x) = r * Scalar.sqrt x := by
  have square : 0 ≤ r * r * x := mul_nonneg (mul_self_nonneg r) nonneg
  refine (mul_self_inj (RootScalar.sqrt_nonneg _ square)
    (mul_nonneg positive.le (RootScalar.sqrt_nonneg x nonneg))).mp ?_
  rw [RootScalar.sqrt_mul_self _ square, mul_mul_mul_comm, RootScalar.sqrt_mul_self x nonneg]

/-- As long as no diagonal entry is negative, the state is the one of the other run multiplied. -/
theorem before_scaled (positive : 0 < r) (nonneg : ∀ j < k, 0 ≤ pivot a m j) :
    before a (m.scaled (r * r)) k = (before a m k).scaled r := by
  induction k with
  | zero => simp [before, Partial.scaled, Partial.start]
  | succ k ih =>
    have root : Scalar.sqrt (r * r * ((before a m k).reduced a m k).2) =
        r * Scalar.sqrt ((before a m k).reduced a m k).2 :=
      sqrt_scaled positive (nonneg k k.lt_succ_self)
    rw [before, ih fun j earlier => nonneg j (Nat.lt_succ_of_lt earlier), Partial.closed,
      reduced_scaled positive.ne']
    simp only [Prod.map, root, Partial.scaled, map_mul_setIfInBounds]
    rfl

theorem pivot_scaled (positive : 0 < r) (nonneg : ∀ j < k, 0 ≤ pivot a m j) :
    pivot a (m.scaled (r * r)) k = r * r * pivot a m k := by
  rw [pivot, before_scaled positive nonneg, reduced_scaled positive.ne']
  rfl

/-- The same row is the first one that is rejected, and before it all diagonal entries are positive. -/
theorem rejected_scaled (positive : 0 < r) {tolerance : α} (threshold : 0 ≤ tolerance)
    (passed : ∀ j < k, 0 ≤ pivot a m j) (count : Nat) :
    rejected (pivot a (m.scaled (r * r))) (r * r * tolerance) k count =
        rejected (pivot a m) tolerance k count ∧
      (rejected (pivot a m) tolerance k count = none → ∀ j < k + count, 0 ≤ pivot a m j) := by
  -- row `k` is only known to be a multiple because the rows before it have passed
  induction count generalizing k with
  | zero => exact ⟨by simp only [rejected, List.range'_zero, List.find?_nil], fun _ => passed⟩
  | succ count ih =>
    have compared : Scalar.le (pivot a (m.scaled (r * r)) k) (r * r * tolerance) =
        Scalar.le (pivot a m k) tolerance := by
      rw [pivot_scaled positive passed, le_scaled (mul_pos positive positive)]
    unfold rejected at ih ⊢
    rw [List.range'_succ, List.find?_cons, List.find?_cons, compared]
    cases small : Scalar.le (pivot a m k) tolerance with
    | true =>
      dsimp only
      exact ⟨rfl, fun none => absurd none (Option.some_ne_none k)⟩
    | false =>
      dsimp only
      rw [← Bool.not_eq_true, OrderedScalar.le_iff, not_le] at small
      have later : ∀ j < k + 1, 0 ≤ pivot a m j := by
        intro j reached
        rcases Nat.lt_succ_iff_lt_or_eq.mp reached with earlier | rfl
        · exact passed j earlier
        · exact threshold.trans small.le
      rw [← Nat.add_assoc, Nat.add_right_comm]
      exact ih later

/-- The factor is multiplied by the root, or the same row is rejected. -/
theorem factorize_scaled (fills : a.Fills m.pattern) (positive : 0 < r) {options : Options α}
    (nonneg : 0 ≤ options.pivotThreshold) :
    Outcome.Parallel (fun l l' => l' = l.scaled r) (factorize options a m.values)
      (factorize options a (m.scaled (r * r)).values) := by
  have square := mul_pos positive positive
  have tolerance : Factor.pivotTolerance options.pivotThreshold (m.scaled (r * r)).values =
      r * r * Factor.pivotTolerance options.pivotThreshold m.values := by
    rw [m.pivotTolerance_scaled square.ne', abs_of_pos square]
  obtain ⟨same, passed⟩ := rejected_scaled (a := a) (m := m) positive
    (pivotTolerance_nonneg nonneg m.values) (fun j none => absurd none (Nat.not_lt_zero j))
    m.pattern.nrows
  rw [← tolerance] at same
  have first := factorize_eq fills options
  have second := factorize_eq (m := m.scaled (r * r)) fills options
  rw [show rejected (pivot a (m.scaled (r * r))) _ 0 (m.scaled (r * r)).pattern.nrows = _ from same]
    at second
  rw [first, second]
  cases search : rejected (pivot a m) (Factor.pivotTolerance options.pivotThreshold m.values) 0
    m.pattern.nrows with
  | none =>
    have rows := before_scaled (k := m.pattern.nrows) positive fun j inside =>
      passed search j (inside.trans_eq (Nat.zero_add _).symm)
    exact .ok (SparseMatrix.eq_of_values rfl (congrArg Partial.values rows))
  | some k => exact .error (by simp only [Error.unmeasured])

/-! ### The backend -/

omit [LinearOrder α] [RootScalar α] in
theorem symmetric_scaled (c : α) (m : SparseMatrix α) (n : Nat) :
    (m.scaled c).symmetric n = c • m.symmetric n := by
  ext i j
  exact m.entry_scaled c _ _

/-- Values and their multiples have proportional factors, or fail alike. -/
theorem rescaled (fills : a.Fills m.pattern) {c : α} (positive : 0 < c) {options : Options α}
    (nonneg : 0 ≤ options.pivotThreshold) :
    Outcome.Parallel (fun l l' => BuiltIn.Rescaled c (.cholesky ⟨options, some a, some l⟩)
      (.cholesky ⟨options, some a, some l'⟩)) (factorize options a m.values)
      (factorize options a (m.scaled c).values) := by
  obtain ⟨r, root, rfl⟩ : ∃ r, 0 < r ∧ r * r = c := by
    have square := RootScalar.sqrt_mul_self c positive.le
    refine ⟨Scalar.sqrt c, (RootScalar.sqrt_nonneg c positive.le).lt_of_ne' fun zero => ?_, square⟩
    rw [zero, zero_mul] at square
    exact positive.ne square
  have solves {m l : SparseMatrix α} (fills : a.Fills m.pattern)
      (done : factorize options a m.values = .ok l) : l.nrows = m.pattern.nrows ∧
        Factor.Solves (m.symmetric m.pattern.nrows) fun nrhs _ rhs =>
          Factor.eachColumn l.nrows nrhs (fun b => solveUpper l (solveLower l b)) rhs := by
    rcases factorize_cases fills nonneg with ⟨l', done', factorizes⟩ | ⟨⟨e, failed⟩, -⟩
    · cases done.symm.trans done'
      exact ⟨(congrArg Pattern.nrows factorizes.pattern).trans fills.rows, factorizes.solves fills⟩
    · cases done.symm.trans failed
  refine ((factorize_scaled fills root nonneg).and_results (fun l => solves fills)
    fun l => solves (m := m.scaled (r * r)) fills).imp ?_
  rintro l l' ⟨rfl, ⟨rows, given⟩, -, given'⟩
  rw [symmetric_scaled] at given'
  constructor
  case pivotOrder => rfl
  case rank =>
    let lead (l : SparseMatrix α) (j : Nat) : α := ((l.col j).head?.map (·.2)).getD 0
    have multiple (j : Nat) : lead (l.scaled r) j = r * lead l j := by
      dsimp only [lead]
      rw [l.col_scaled]
      cases l.col j <;> simp [scaleCells]
    have counted := Factor.numericalRank_scaled positive (f := fun j => lead l j * lead l j)
      (g := fun j => lead (l.scaled r) j * lead (l.scaled r) j)
      (fun j (_ : j ∈ List.range l.ncols) => by
        rw [multiple, mul_mul_mul_comm, abs_mul, abs_of_pos positive])
      options.rankTolerance
    exact congrArg Except.ok counted
  case solve =>
    intro size nrhs transposed rhs
    refine given.scaled_of_refused given' positive.ne' (fun nrhs transposed rhs other => ?_) nrhs
      transposed rhs
    rw [← rows] at other
    exact ⟨_, Factor.eachColumn_refused other _ rhs, Factor.eachColumn_refused other _ rhs⟩

/-- Cholesky runs on values and on a positive multiple of them. -/
theorem proportional {p : Pattern} (fills : a.Fills p) (square : p.ncols = p.nrows) {c : α}
    (positive : 0 < c) {options : Options α} (nonneg : 0 ≤ options.pivotThreshold) (values : Array α) :
    BuiltIn.Proportional c (BuiltIn.step .cholesky (numeric p values) ⟨options, some a, none⟩)
      (BuiltIn.step .cholesky (numeric p (values.map (c * ·))) ⟨options, some a, none⟩) := by
  unfold BuiltIn.step
  by_cases size : values.size = p.nnz
  · let m : SparseMatrix α := ⟨p, values, size⟩
    have run := numeric_eq (m := m) fills square options
    have run' := numeric_eq (m := m.scaled c) fills square options
    have both := rescaled (m := m) fills positive nonneg
    change BuiltIn.Proportional c
      ((numeric m.pattern m.values ⟨options, some a, none⟩).map id BuiltIn.cholesky)
      ((numeric (m.scaled c).pattern (m.scaled c).values ⟨options, some a, none⟩).map id
        BuiltIn.cholesky)
    rw [run, run']
    generalize factorize options a m.values = x, factorize options a (m.scaled c).values = y at both
    cases both with
    | ok related => exact .inl ⟨rfl, rfl, related⟩
    | error alike => exact .inr ⟨_, _, rfl, rfl, alike⟩
  · have same : (values.map (c * ·)).size = values.size := Array.size_map
    rw [numeric_of_size_ne fills square options size,
      numeric_of_size_ne fills square options (same.symm ▸ size), same]
    exact .inr ⟨_, _, rfl, rfl, rfl⟩

end Cholesky

/-! ### All backends -/

namespace BuiltIn

variable {α : Type} {b t : BuiltIn α} {p : Pattern}

def options : BuiltIn α → Options α
  | denseLU s => s.options
  | sparseLU s => s.options
  | qr s => s.options
  | cholesky s => s.options

/-- Rescaling never changes whether values are accepted, in an ordered field that has square roots
where a backend takes them. After an accepted analysis, values and `c` times these values are both
accepted or both rejected, at the same column. If they are accepted, the pivots are chosen in the same
order, the rank is the same, and every solution for the multiples is the solution for the values
divided by `c`. Cholesky needs a positive `c`, the others one that is not zero. -/
theorem numeric_rescaled [FieldScalar α] [LinearOrder α] [OrderedScalar α] {c : α}
    (analysed : symbolic p b = (.ok (), t))
    (roots : b.name = "qr" ∨ b.name = "cholesky" → RootScalar α)
    (pivots : 0 ≤ b.options.pivotThreshold) (ranks : 0 ≤ b.options.rankTolerance) (nonzero : c ≠ 0)
    (positive : b.name = "cholesky" → 0 < c) (values : Array α) :
    Proportional c (numeric p values t) (numeric p (values.map (c * ·)) t) := by
  have accepted : (symbolic p b).1 = .ok () := congrArg Prod.fst analysed
  obtain rfl : (symbolic p b).2 = t := congrArg Prod.snd analysed
  cases b with
  | denseLU s =>
    exact proportional_of_parallel accepted
      (fun a square => DenseLU.rescaled rfl square nonzero pivots) values
  | sparseLU s =>
    exact proportional_of_parallel accepted
      (fun a square => SparseLU.rescaled rfl square nonzero pivots) values
  | qr s =>
    have := roots (.inl rfl)
    exact proportional_of_parallel accepted
      (fun a square => QR.rescaled rfl square nonzero ranks) values
  | cholesky s =>
    have := roots (.inr rfl)
    cases found : Cholesky.analyse p with
    | error e =>
      simp only [symbolic, step, Cholesky.symbolic, found] at accepted
      cases accepted
    | ok a =>
      obtain ⟨square, fills⟩ := Cholesky.analyse_eq_ok found
      have state : (symbolic p (cholesky s)).2 = cholesky ⟨s.options, some a, none⟩ := by
        simp only [symbolic, step, Cholesky.symbolic, found]
      rw [state]
      exact Cholesky.proportional fills square (positive rfl) pivots values

/-- The matrix `[[0, 2], [3, 4]]`, whose rows change places, and `-2` times it. -/
theorem numeric_rescaled_negative :
    let b : BuiltIn Rat := .denseLU (.new ⟨0, 0⟩)
    let t := (symbolic (.dense 2 2) b).2
    let u := numeric (.dense 2 2) #[0, 3, 2, 4] t
    let u' := numeric (.dense 2 2) #[0, -6, -4, -8] t
    symbolic (.dense 2 2) b = (.ok (), t) ∧ u.1 = .ok () ∧ u'.1 = .ok () ∧ Rescaled (-2) u.2 u'.2 := by
  intro b t u u'
  have accepted : (symbolic (.dense 2 2) b).1 = .ok () :=
    congrArg Prod.fst (Staged.symbolic_dense_two (.new ⟨0, 0⟩ : Staged Rat (DenseLU Rat)))
  have state : t = denseLU ⟨⟨0, 0⟩, some 2, none⟩ := congrArg denseLU (Staged.state_symbolic accepted)
  let a : SparseMatrix Rat := ⟨.dense 2 2, #[0, 3, 2, 4], rfl⟩
  have matrix : a.matrix 2 = !![0, 2; 3, 4] := by
    ext i j
    fin_cases i <;> fin_cases j <;> rfl
  have succeeded : u.1 = .ok () := by
    have nonneg : 0 ≤ (⟨0, 0⟩ : Options Rat).pivotThreshold := le_rfl
    rcases DenseLU.factorize_cases (m := a) (by decide) rfl rfl nonneg with ⟨f, -, done, -⟩ | ⟨-, dependent⟩
    · have ran := (Staged.numeric_eq_ok DenseLU.factorize #[0, 3, 2, 4]
        (s := ⟨⟨0, 0⟩, some 2, none⟩) rfl rfl).mpr ⟨a, rfl, rfl, f, done⟩
      change (numeric (.dense 2 2) #[0, 3, 2, 4] t).1 = .ok ()
      rw [state]
      exact ran
    · have singular : (a.matrix 2).det = 0 := (dependent rfl).det_eq_zero
      rw [matrix, Matrix.det_fin_two_of] at singular
      norm_num at singular
  have multiples : (#[0, 3, 2, 4] : Array Rat).map (-2 * ·) = #[0, -6, -4, -8] := by decide +kernel
  have both := numeric_rescaled (Prod.ext accepted rfl : symbolic (.dense 2 2) b = (.ok (), t))
    (fun named => absurd named (by decide)) le_rfl le_rfl (by decide : (-2 : Rat) ≠ 0)
    (fun named => absurd named (by decide)) #[0, 3, 2, 4]
  rw [multiples] at both
  rcases both with ⟨-, succeeded', rescaled⟩ | ⟨e, -, failed, -⟩
  · exact ⟨Prod.ext accepted rfl, succeeded, succeeded', rescaled⟩
  · cases succeeded.symm.trans failed

end BuiltIn

end Cotangent
