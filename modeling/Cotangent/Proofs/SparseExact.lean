import Mathlib
import Cotangent.Proofs.SparseFactors

/-! The sparse LU backend in exact arithmetic. The columns are eliminated one after another; a run
that ends gives factors and solves, and a run that is cut short by a column without a pivot has shown,
if the threshold is zero, that the matrix is singular. -/
namespace Cotangent

open Matrix

section Tolerance

variable {α : Type} [FieldScalar α] [LinearOrder α] [OrderedScalar α]

theorem maxAbs_nonneg (xs : List α) : 0 ≤ Scalar.maxAbs xs := by
  refine foldl_keeps (P := fun _ (m : α) => 0 ≤ m) le_rfl fun _ x _ m _ kept => ?_
  unfold Scalar.max
  split
  · rw [OrderedScalar.abs_eq]
    exact abs_nonneg x
  · exact kept

theorem abs_le_maxAbs {xs : List α} {x : α} (member : x ∈ xs) : |x| ≤ Scalar.maxAbs xs := by
  refine foldl_keeps (P := fun done (m : α) => ∀ x ∈ done, |x| ≤ m) (by simp)
    (fun done y _ m _ kept x member => ?_) x member
  have larger : m ≤ Scalar.max m (Scalar.abs y) ∧ |y| ≤ Scalar.max m (Scalar.abs y) := by
    unfold Scalar.max
    rw [OrderedScalar.abs_eq]
    split
    · next less => exact ⟨((OrderedScalar.lt_iff _ _).mp less).le, le_rfl⟩
    · next least => exact ⟨le_rfl, not_lt.mp (mt (OrderedScalar.lt_iff _ _).mpr least)⟩
  rcases List.mem_append.mp member with earlier | here
  · exact (kept x earlier).trans larger.1
  · exact List.mem_singleton.mp here ▸ larger.2

theorem maxAbs_le {xs : List α} {y : α} (nonneg : 0 ≤ y) (all : ∀ x ∈ xs, |x| ≤ y) :
    Scalar.maxAbs xs ≤ y := by
  refine foldl_keeps (P := fun _ (m : α) => m ≤ y) nonneg fun done x rest m split kept => ?_
  unfold Scalar.max
  split
  · rw [OrderedScalar.abs_eq]
    exact all x (by simp [split])
  · exact kept

theorem pivotTolerance_nonneg {threshold : α} (nonneg : 0 ≤ threshold) (values : Array α) :
    0 ≤ Factor.pivotTolerance threshold values :=
  mul_nonneg nonneg (maxAbs_nonneg _)

end Tolerance

namespace SparseLU

section Finish

variable {α : Type} [FieldScalar α] {a : SparseMatrix α} {s : Partial α} {f : SparseLU α} {n : Nat}

/-- The factors solve both systems. -/
theorem Finished.solves (finished : Finished s f n) (factors : s.Factors a n n) :
    Factor.Solves (a.matrix n) fun nrhs transposed rhs => f.solve nrhs transposed rhs := by
  have factorizes := finished.factorizes factors
  have invertible := det_ne_zero_of_product factorizes.product factorizes.lower factorizes.unit
    factorizes.upper factorizes.pivots
  have both := Factor.solves_eachColumn invertible
    (fun transposed => if transposed then f.solveColumnTransposed else f.solveColumn)
    (fun b _ => finished.solveColumn_correct factors b)
    fun b _ => finished.solveColumnTransposed_correct factors b
  simpa only [solve, finished.order] using both

end Finish

variable {α : Type} [FieldScalar α] [LinearOrder α] [OrderedScalar α] {a : SparseMatrix α}
  {s : Partial α} {n k : Nat} {tolerance : α}

/-- One more column, or proof that it depends on the columns before it. -/
theorem post_eliminate (sound : s.Sound n k) (factors : s.Factors a n k) (small : s.Small)
    (square : a.nrows = n) (below : k < n) (nonneg : 0 ≤ tolerance) :
    Run.Post (eliminate a tolerance k) s
      (fun _ t => t.Sound n (k + 1) ∧ t.Factors a n (k + 1) ∧ t.Small)
      fun _ _ => tolerance = 0 → Dependent a n := by
  rcases eliminate_cases a tolerance k s with ⟨row, chosen, large, ran⟩ | ⟨missing, ran⟩ <;>
    rw [Run.Post, ran] <;> dsimp only
  · obtain ⟨member, free, magnitude⟩ := Partial.mem_rows_of_chosen chosen
    rw [magnitude, OrderedScalar.lt_iff, OrderedScalar.abs_eq] at large
    have pivot : (s.solved a k).1.getD row 0 ≠ 0 := abs_pos.mp (nonneg.trans_lt large)
    have largest : (s.chosen a k).2 = |(s.solved a k).1.getD row 0| := by
      rw [magnitude, OrderedScalar.abs_eq]
    exact ⟨sound.extend square member free, factors.extend sound square member free pivot,
      small.extend sound square member largest⟩
  · intro zero
    refine factors.dependent sound square below fun i free => ?_
    by_cases member : i ∈ s.rows a k
    · have most := abs_le_pivot s (s.solved a k).1 member free
      rcases missing with vacant | short
      · rcases pivot_cases s (s.solved a k).1 (s.rows a k) with ⟨-, all⟩ | ⟨row, -, -, best⟩
        · exact absurd free (all i member)
        · cases vacant.symm.trans (congrArg Prod.fst best)
      · have bound : (s.chosen a k).2 ≤ 0 := by
          rw [← zero, ← not_lt, ← OrderedScalar.lt_iff, short]
          exact Bool.false_ne_true
        exact abs_nonpos_iff.mp (most.trans bound)
    · exact sound.solved_outside square member

/-- All columns, or one that depends on the columns before it. -/
theorem post_columns {options : Options α} (rows : a.nrows = n) (columns : a.ncols = n)
    (nonneg : 0 ≤ options.pivotThreshold) :
    Run.Post (SparseLU.columns options a) (Partial.start a.nrows)
      (fun _ t => t.Sound n n ∧ t.Factors a n n ∧ t.Small)
      fun _ _ => options.pivotThreshold = 0 → Dependent a n := by
  refine Run.Post.forM (fun k t => t.Sound n k ∧ t.Factors a n k ∧ t.Small) ?_ ?_ ?_
  · rw [rows]
    refine ⟨Partial.sound_start n, ⟨fun k' earlier => absurd earlier (Nat.not_lt_zero k'),
      fun j earlier => absurd earlier (Nat.not_lt_zero j)⟩, fun j cell held => ?_⟩
    simp [Partial.start] at held
  · rintro k k' s at_k ⟨sound, factors, small⟩
    obtain ⟨inside, rfl⟩ := List.getElem?_eq_some_iff.mp at_k
    rw [List.length_range, columns] at inside
    rw [List.getElem_range]
    refine (post_eliminate sound factors small rows inside
      (pivotTolerance_nonneg nonneg a.values)).imp (fun _ _ kept => kept) fun _ _ failed zero => ?_
    exact failed (by rw [Factor.pivotTolerance, zero, zero_mul])
  · intro t done
    rwa [List.length_range, columns] at done

/-- A factorization has exact factors, or a column depends on the columns before it. -/
theorem factorize_cases {options : Options α} (rows : a.nrows = n) (columns : a.ncols = n)
    (nonneg : 0 ≤ options.pivotThreshold) :
    (∃ f s, factorize options a = .ok f ∧ Finished s f n ∧ s.Factors a n n ∧ s.Small) ∨
      (∃ e, factorize options a = .error e) ∧
        (options.pivotThreshold = 0 → Dependent a n) := by
  have post := post_columns rows columns nonneg
  unfold factorize
  rcases ran : SparseLU.columns options a (Partial.start a.nrows) with ⟨e | _, s⟩
  · exact .inr ⟨⟨e, rfl⟩, post.of_error ran⟩
  · obtain ⟨sound, factors, small⟩ := post.of_ok ran
    obtain ⟨step, collected, finished⟩ := sound.finished
    simp only [collected]
    exact .inl ⟨_, s, rfl, finished, factors, small⟩

/-- A factorization solves. -/
theorem solves_of_factorize {options : Options α} (rows : a.nrows = n) (columns : a.ncols = n)
    (nonneg : 0 ≤ options.pivotThreshold) {f : SparseLU α} (done : factorize options a = .ok f) :
    Factor.Solves (a.matrix n) fun nrhs transposed rhs => f.solve nrhs transposed rhs := by
  rcases factorize_cases rows columns nonneg with
    ⟨f', s, done', finished, factors, -⟩ | ⟨⟨e, failed⟩, -⟩
  · cases done.symm.trans done'
    exact finished.solves factors
  · cases done.symm.trans failed

/-- Sparse LU is exact in an ordered field. After an accepted analysis, values that are accepted give a
permutation of the rows and factors of the permuted matrix, with multipliers of magnitude at most one,
and the solver finds the only solution of both systems for every column of a right-hand side. With
threshold zero, exactly the values of invertible matrices are accepted. -/
theorem numeric_exact {p : Pattern} {s t t' : Staged α (SparseLU α)} {values : Array α}
    {outcome : Except Error Unit} (nonneg : 0 ≤ s.options.pivotThreshold)
    (analysed : Staged.symbolic p s = (.ok (), t))
    (ran : Staged.numeric factorize p values t = (outcome, t')) :
    p.ncols = p.nrows ∧
    (outcome = .ok () → ∃ a : SparseMatrix α, a.pattern = p ∧ a.values = values ∧
      ∃ f, t'.factors = some f ∧ (∃ σ, f.Factorizes (a.matrix p.nrows) σ) ∧
        (∀ j, ∀ cell ∈ f.lower.getD j [], |cell.2| ≤ 1) ∧
        Factor.Solves (a.matrix p.nrows) fun nrhs transposed rhs => f.solve nrhs transposed rhs) ∧
    (s.options.pivotThreshold = 0 → (outcome = .ok () ↔
      ∃ a : SparseMatrix α, a.pattern = p ∧ a.values = values ∧ (a.matrix p.nrows).det ≠ 0)) := by
  have accepted : (Staged.symbolic p s).1 = .ok () := congrArg Prod.fst analysed
  have square := (Staged.symbolic_eq_ok.mp accepted).1
  have state : t = ⟨s.options, some p.nrows, none⟩ :=
    (congrArg Prod.snd analysed).symm.trans (Staged.state_symbolic accepted)
  subst state
  have succeeds := Staged.numeric_eq_ok factorize values
    (s := ⟨s.options, some p.nrows, none⟩) rfl square
  rw [ran] at succeeds
  refine ⟨square, fun succeeded => ?_, fun zero => succeeds.trans ⟨?_, ?_⟩⟩
  · obtain ⟨a, rfl, rfl, f, done⟩ := succeeds.mp succeeded
    have state := Staged.numeric_eq factorize (s := ⟨s.options, some a.pattern.nrows, none⟩) rfl square
    rw [ran, done] at state
    cases state
    rcases factorize_cases rfl square nonneg with ⟨f', s', done', finished, factors, small⟩ | failed
    · cases done.symm.trans done'
      exact ⟨a, rfl, rfl, f, rfl, ⟨_, finished.factorizes factors⟩,
        fun j cell held => small j cell (finished.lower ▸ held), finished.solves factors⟩
    · obtain ⟨⟨e, failed⟩, -⟩ := failed
      cases done.symm.trans failed
  · rintro ⟨a, rfl, rfl, f, done⟩
    rcases factorize_cases rfl square nonneg with ⟨f', s', done', finished, factors, -⟩ | failed
    · have factorizes := finished.factorizes factors
      exact ⟨a, rfl, rfl, det_ne_zero_of_product factorizes.product factorizes.lower factorizes.unit
        factorizes.upper factorizes.pivots⟩
    · obtain ⟨⟨e, failed⟩, -⟩ := failed
      cases done.symm.trans failed
  · rintro ⟨a, rfl, rfl, invertible⟩
    rcases factorize_cases rfl square nonneg with ⟨f, s', done, -⟩ | ⟨-, dependent⟩
    · exact ⟨a, rfl, rfl, f, done⟩
    · exact absurd (dependent zero).det_eq_zero invertible

/-- The matrix `[[1, 3], [2, 4]]` is accepted, and the system with right-hand side `(5, 6)` has the
solution `(-1, 2)`. -/
theorem numeric_exact_two :
    let s : Staged Rat (SparseLU Rat) := .new ⟨0, 0⟩
    let t := (Staged.symbolic (.dense 2 2) s).2
    let t' := (Staged.numeric factorize (.dense 2 2) #[1, 2, 3, 4] t).2
    Staged.symbolic (.dense 2 2) s = (.ok (), t) ∧
      ∃ f, t'.factors = some f ∧
        ∃ x, f.solve 1 false #v[5, 6] = .ok x ∧ columnOf 2 0 x.toArray = ![-1, 2] := by
  intro s t t'
  have analysed : Staged.symbolic (.dense 2 2) s = (.ok (), t) := Staged.symbolic_dense_two s
  have ran : Staged.numeric factorize (.dense 2 2) #[1, 2, 3, 4] t =
      ((Staged.numeric factorize (.dense 2 2) #[1, 2, 3, 4] t).1, t') := rfl
  obtain ⟨-, accepted, decided⟩ := numeric_exact (le_refl (0 : Rat)) analysed ran
  let a : SparseMatrix Rat := ⟨.dense 2 2, #[1, 2, 3, 4], rfl⟩
  have matrix : a.matrix 2 = !![1, 3; 2, 4] := by
    ext i j
    fin_cases i <;> fin_cases j <;> rfl
  have invertible : (a.matrix 2).det ≠ 0 := by
    rw [matrix, Matrix.det_fin_two_of]
    norm_num
  obtain ⟨a', pattern, values, f, held, -, -, solves⟩ :=
    accepted ((decided rfl).mpr ⟨a, rfl, rfl, invertible⟩)
  obtain rfl : a' = a := SparseMatrix.eq_of_values pattern values
  obtain ⟨x, solved, unique⟩ := solves 2 1 false #v[5, 6] rfl
  refine ⟨analysed, f, held, x, solved, ((unique 0 Nat.one_pos ![-1, 2]).mp ?_).symm⟩
  change (a.matrix 2).mulVec ![-1, 2] = columnOf 2 0 #[5, 6]
  rw [matrix]
  ext i
  fin_cases i <;> norm_num [columnOf, Matrix.mulVec, dotProduct]

end SparseLU

end Cotangent
