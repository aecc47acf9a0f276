import Mathlib
import Cotangent.Solver.BuiltIn
import Cotangent.Proofs.Comparisons
import Cotangent.Proofs.Elimination
import Cotangent.Proofs.LowerTriangle
import Cotangent.Proofs.Permutations

/-! Pivots of accepted factorizations. The dense LU and the Cholesky factorization stop at a pivot that is
at or below the tolerance, the sparse LU at one that is not above it. For numbers that compare with each
other this is the same rule, and every pivot exceeds the tolerance. What is not a number compares with
nothing: the sparse LU never accepts it, and the other two do. -/
namespace Cotangent

/-! ### Dense LU -/

namespace DenseLU

variable {α : Type} [Scalar α] {f t : DenseLU α} {tolerance : α} {n k : Nat}

/-- The pivots of the first `k` columns are not at or below the tolerance. -/
structure Passed (tolerance : α) (f : DenseLU α) (n k : Nat) : Prop where
  order : f.order = n
  pivots : ∀ j < k, Scalar.le (Scalar.abs (f.packed.entry j j)) tolerance = false

/-- The chosen entry comes to the diagonal, and later steps leave it there. -/
theorem Passed.eliminate (passed : Passed tolerance f n k) (below : k < n)
    (step : f.eliminate tolerance k = .ok t) : Passed tolerance t n (k + 1) := by
  obtain ⟨rfl, pivots⟩ := passed
  obtain ⟨later, -, magnitude⟩ :=
    Factor.firstMax_mem (fun i => Scalar.abs (f.packed.entry i k)) below
  unfold DenseLU.eliminate at step
  dsimp only at step
  split at step
  · cases step
  · next large =>
    cases step
    refine ⟨rfl, fun j less => ?_⟩
    have small : j < f.order := by omega
    rw [DenseMatrix.entry_ofFn small small, if_pos (by omega)]
    by_cases same : j = k
    · subst same
      rw [Factor.exchange, if_pos rfl, ← magnitude]
      exact Bool.eq_false_iff.mpr large
    · rw [Factor.exchange, if_neg same, if_neg (by omega)]
      exact pivots j (by omega)

theorem passed_factorize {options : Options α} {a : SparseMatrix α}
    (done : factorize options a = .ok f) :
    Passed (Factor.pivotTolerance options.pivotThreshold a.values) f a.nrows a.nrows := by
  obtain ⟨tolerance, same⟩ : ∃ tolerance,
    Factor.pivotTolerance options.pivotThreshold a.values = tolerance := ⟨_, rfl⟩
  rw [factorize_of_roomy (roomy_of_factorize done), same] at done
  rw [same]
  have start : Passed tolerance ⟨a.toDense, Array.range a.nrows⟩ a.nrows 0 := ⟨rfl, by simp⟩
  have loop := Outcome.foldlM_range_cases (P := fun k f => Passed tolerance f a.nrows k)
    (Q := fun _ => True) (f := DenseLU.eliminate tolerance) start fun k below f passed => by
      cases step : f.eliminate tolerance k with
      | ok t => exact .inl ⟨t, rfl, passed.eliminate below step⟩
      | error e => exact .inr ⟨e, rfl, trivial⟩
  rcases loop with ⟨t, finished, passed⟩ | ⟨e, stopped, -⟩
  · cases finished.symm.trans done
    exact passed
  · cases stopped.symm.trans done

end DenseLU

/-! ### Sparse LU -/

namespace SparseLU

variable {α : Type} [Scalar α] {s t : Partial α} {a : SparseMatrix α} {tolerance : α} {k : Nat}

/-- There are `k` pivots, all above the tolerance. -/
structure Partial.Passed (tolerance : α) (s : Partial α) (k : Nat) : Prop where
  size : s.diagonal.size = k
  pivots : ∀ j < k, Scalar.lt tolerance (Scalar.abs (s.diagonal.getD j 0)) = true

theorem Partial.Passed.eliminate (passed : s.Passed tolerance k) :
    Run.Post (eliminate a tolerance k) s (fun _ t => t.Passed tolerance (k + 1)) fun _ _ => True := by
  unfold Run.Post
  rcases eliminate_cases a tolerance k s with ⟨row, chosen, large, ran⟩ | ⟨-, ran⟩
  · rw [ran]
    have size : (s.extend a k row).diagonal.size = k + 1 := by
      simp [Partial.extend, passed.size]
    refine ⟨size, fun j less => ?_⟩
    rw [Partial.extend, getD_push]
    by_cases last : j = s.diagonal.size
    · rw [if_pos last]
      obtain ⟨-, -, magnitude⟩ := Partial.mem_rows_of_chosen chosen
      exact magnitude ▸ large
    · rw [if_neg last]
      exact passed.pivots j (by have := passed.size; omega)
  · rw [ran]
    trivial

theorem passed_factorize {options : Options α} {f : SparseLU α} (done : factorize options a = .ok f) :
    f.diagonal.size = a.ncols ∧ ∀ k < a.ncols, Scalar.lt
      (Factor.pivotTolerance options.pivotThreshold a.values)
      (Scalar.abs (f.diagonal.getD k 0)) = true := by
  have loop : Run.Post (columns options a) (Partial.start a.nrows)
      (fun _ t => t.Passed (Factor.pivotTolerance options.pivotThreshold a.values) a.ncols)
      fun _ _ => True := by
    refine Run.Post.forM (fun k (s : Partial α) =>
      s.Passed (Factor.pivotTolerance options.pivotThreshold a.values) k) ⟨rfl, by simp⟩ ?_ ?_
    · intro i k s at_i passed
      obtain ⟨inside, rfl⟩ := List.getElem?_eq_some_iff.mp at_i
      rw [List.getElem_range]
      exact passed.eliminate
    · intro t passed
      rwa [List.length_range] at passed
  unfold factorize at done
  rcases ran : columns options a (Partial.start a.nrows) with ⟨_ | _, t⟩ <;> rw [ran] at done
  · cases done
  · have passed := loop.of_ok ran
    dsimp only at done
    split at done
    · cases done
      exact ⟨passed.size, passed.pivots⟩
    · cases done

end SparseLU

/-! ### Cholesky -/

namespace Cholesky

variable {α : Type} [Scalar α] {a : Analysis} {m : SparseMatrix α} {n k : Nat}

/-- The root of a pivot is stored on the diagonal, and later rows leave it there. -/
theorem entry_before_self (fills : a.Fills m.pattern) (within : n ≤ m.pattern.nrows) (less : k < n) :
    (before a m n).entry a k k = Scalar.sqrt (pivot a m k) := by
  induction n with
  | zero => exact absurd less k.not_lt_zero
  | succ n ih =>
    have inside : n < m.pattern.nrows := within
    have sound := sound_before fills inside.le
    refine (sound.entry_closed fills inside k k).trans ?_
    by_cases last : k = n
    · subst last
      rw [if_pos ⟨rfl, rfl⟩, pivot]
    · rw [if_neg fun same => last same.1,
        (sound.reduced fills inside).frame k k fun same => absurd same last]
      exact ih inside.le (by omega)

/-- The rows of an accepted matrix are not at or below the tolerance, and their roots are the diagonal of the
factor. -/
theorem passed_factorize {options : Options α} {l : SparseMatrix α} (fills : a.Fills m.pattern)
    (done : factorize options a m.values = .ok l) : ∀ k < m.pattern.nrows,
      l.entry k k = Scalar.sqrt (pivot a m k) ∧
      Scalar.le (pivot a m k) (Factor.pivotTolerance options.pivotThreshold m.values) = false := by
  rw [factorize_eq fills] at done
  split at done
  · next all =>
    cases done
    intro k inside
    refine ⟨entry_before_self fills le_rfl inside, ?_⟩
    have passed := List.find?_eq_none.mp all k (by simpa using inside)
    simpa using passed
  · cases done

end Cholesky

/-! ### Backends -/

namespace BuiltIn

section Pivots

variable {α : Type} [Scalar α]

/-- The threshold for pivots. -/
def threshold : BuiltIn α → α
  | denseLU s => s.options.pivotThreshold
  | sparseLU s => s.options.pivotThreshold
  | qr s => s.options.pivotThreshold
  | cholesky s => s.options.pivotThreshold

/-- The pivots of the factors that a backend holds for a matrix: the magnitudes on the diagonal of `U`, or
the reduced diagonal entries whose roots are on the diagonal of the Cholesky factor. -/
inductive Pivots (m : SparseMatrix α) : BuiltIn α → (Nat → α) → Prop
  | denseLU {s : Staged α (DenseLU α)} {f : DenseLU α} (held : s.factors = some f)
    (order : f.order = m.nrows) :
    Pivots m (.denseLU s) fun k => Scalar.abs (f.packed.entry k k)
  | sparseLU {s : Staged α (SparseLU α)} {f : SparseLU α} (held : s.factors = some f)
    (count : f.diagonal.size = m.nrows) :
    Pivots m (.sparseLU s) fun k => Scalar.abs (f.diagonal.getD k 0)
  | cholesky {s : Cholesky α} {a : Cholesky.Analysis} {l : SparseMatrix α}
    (analysed : s.analysis = some a) (held : s.factor = some l)
    (root : ∀ k < m.nrows, l.entry k k = Scalar.sqrt (Cholesky.pivot a m k)) :
    Pivots m (.cholesky s) (Cholesky.pivot a m)

/-- A backend whose last analysis was of a pattern. Any values may have been factorized since. -/
inductive LastAnalysed (p : Pattern) : BuiltIn α → Prop
  | symbolic {b t : BuiltIn α} (accepted : symbolic p b = (.ok (), t)) : LastAnalysed p t
  | numeric {b : BuiltIn α} (before : LastAnalysed p b) (q : Pattern) (values : Array α) :
    LastAnalysed p (numeric q values b).2

variable {p : Pattern} {values : Array α}

omit [Scalar α] in
theorem exists_of_step {σ : Type} (wrap : σ → BuiltIn α) (act : Run σ Unit) {s : σ} {b : BuiltIn α}
    (ran : step wrap act s = (.ok (), b)) : ∃ t, act s = (.ok (), t) ∧ wrap t = b := by
  obtain ⟨outcome, state⟩ := Prod.mk.inj ran
  exact ⟨(act s).2, Prod.ext outcome rfl, state⟩

omit [Scalar α] in
theorem accepted_of_fst {β : Type} {r : Except Error Unit × β} (accepted : r.1 = .ok ()) :
    r = (.ok (), r.2) :=
  Prod.ext accepted rfl

/-- The factorization of values keeps the analysis. -/
theorem LastAnalysed.analysis {b : BuiltIn α} (analysed : LastAnalysed p b) {s : Cholesky α}
    (kind : cholesky s = b) : ∃ a, Cholesky.analyse p = .ok a ∧ s.analysis = some a := by
  induction analysed generalizing s with
  | @symbolic b t accepted =>
    subst kind
    cases b with
    | cholesky s' =>
      obtain ⟨t, ran, same⟩ := exists_of_step cholesky (Cholesky.symbolic p) accepted
      cases same
      unfold Cholesky.symbolic at ran
      split at ran
      · next a found =>
        cases ran
        exact ⟨a, found, rfl⟩
      · cases ran
    | denseLU | sparseLU | qr => cases congrArg Prod.snd accepted
  | @numeric b before q values ih =>
    cases b with
    | cholesky s' =>
      obtain ⟨a, found, held⟩ := ih rfl
      refine ⟨a, found, ?_⟩
      cases kind
      split <;> exact held
    | denseLU | sparseLU | qr => cases kind

/-- An accepted matrix has factors, and its pivots passed the test of the backend. -/
theorem exists_pivots {b t : BuiltIn α} (kind : b.name ≠ "qr") (analysed : LastAnalysed p b)
    (accepted : numeric p values b = (.ok (), t)) :
    ∃ (m : SparseMatrix α) (d : Nat → α), m.pattern = p ∧ m.values = values ∧ Pivots m t d ∧
      ∀ k < p.nrows,
        if b.name = "sparse_lu" then
          Scalar.lt (Factor.pivotTolerance b.threshold values) (d k) = true
        else Scalar.le (d k) (Factor.pivotTolerance b.threshold values) = false := by
  cases b with
  | qr s => exact absurd rfl kind
  | denseLU s =>
    obtain ⟨u, ran, rfl⟩ :=
      exists_of_step denseLU (Staged.numeric DenseLU.factorize p values) accepted
    obtain ⟨-, m, rfl, rfl, f, done, rfl⟩ := Staged.exists_of_numeric ran
    have passed := DenseLU.passed_factorize done
    exact ⟨m, _, rfl, rfl, .denseLU rfl passed.order, passed.pivots⟩
  | sparseLU s =>
    obtain ⟨u, ran, rfl⟩ :=
      exists_of_step sparseLU (Staged.numeric SparseLU.factorize p values) accepted
    obtain ⟨square, m, rfl, rfl, f, done, rfl⟩ := Staged.exists_of_numeric ran
    have passed := SparseLU.passed_factorize done
    rw [SparseMatrix.ncols, square] at passed
    exact ⟨m, _, rfl, rfl, .sparseLU rfl passed.1, passed.2⟩
  | cholesky s =>
    obtain ⟨u, ran, rfl⟩ := exists_of_step cholesky (Cholesky.numeric p values) accepted
    obtain ⟨a, found, held⟩ := analysed.analysis rfl
    obtain ⟨square, fills⟩ := Cholesky.analyse_eq_ok found
    -- an earlier factor is forgotten first
    have anew : Cholesky.numeric p values s = Cholesky.numeric p values ⟨s.options, some a, none⟩ := by
      rw [← held]
      rfl
    rw [anew] at ran
    obtain ⟨m, rfl, rfl, l, done⟩ :=
      (Cholesky.numeric_eq_ok fills square s.options values).mp (congrArg Prod.fst ran)
    rw [Cholesky.numeric_eq fills square, done] at ran
    cases ran
    have passed := Cholesky.passed_factorize fills done
    exact ⟨m, _, rfl, rfl, .cholesky rfl rfl fun k inside => (passed k inside).1,
      fun k inside => (passed k inside).2⟩

end Pivots

/-- Every pivot of an accepted matrix is above the tolerance, and so it is positive. Only the dense LU and
the Cholesky factorization make an exception: they also accept a pivot that is not a number, and every
pivot if the tolerance is not a number. The tolerance is the threshold times the largest magnitude of a
value that is a number. -/
theorem accepted_pivots_exceed {b t : BuiltIn Binary64} {p : Pattern} {values : Array Binary64}
    (kind : b.name ≠ "qr") (nonneg : Scalar.le 0 b.threshold = true) (analysed : LastAnalysed p b)
    (accepted : numeric p values b = (.ok (), t)) :
    ∃ largest, Binary64.IsLargest largest values.toList ∧
      ∃ (m : SparseMatrix Binary64) (d : Nat → Binary64),
        m.pattern = p ∧ m.values = values ∧ Pivots m t d ∧ ∀ k < p.nrows,
          (Scalar.lt (b.threshold * largest) (d k) = true ∧ Scalar.lt 0 (d k) = true) ∨
          (b.name ≠ "sparse_lu" ∧ ((d k).isNaN = true ∨ (b.threshold * largest).isNaN = true)) := by
  obtain ⟨m, d, pattern, same, pivots, passed⟩ := exists_pivots kind analysed accepted
  have largest := Binary64.isLargest_maxAbs values.toList
  refine ⟨_, largest, m, d, pattern, same, pivots, fun k inside => ?_⟩
  have tolerance := Binary64.isNaN_mul_or nonneg largest.nonneg
  have above (exceeds : Scalar.lt (b.threshold * Scalar.maxAbs values.toList) (d k) = true) :
      Scalar.lt 0 (d k) = true := by
    obtain ⟨number, other, less⟩ := Binary64.lt_iff.mp exceeds
    have bound := Binary64.le_iff.mp (tolerance.resolve_left (by simp [number]))
    exact Binary64.lt_iff.mpr ⟨bound.1, other, bound.2.2.trans_lt less⟩
  have tested := passed k inside
  split at tested
  · exact .inl ⟨tested, above tested⟩
  · next other =>
    by_cases missing : (d k).isNaN = true ∨ (b.threshold * Scalar.maxAbs values.toList).isNaN = true
    · exact .inr ⟨other, missing⟩
    · obtain ⟨number, bound⟩ := not_or.mp missing
      have exceeds := Binary64.lt_of_not_le (Bool.eq_false_iff.mpr number) (Bool.eq_false_iff.mpr bound)
        tested
      exact .inl ⟨exceeds, above exceeds⟩

/-- The sparse LU accepts `[[1, x], [0, 1]]` with not-a-number for `x`: both pivots are one. -/
theorem accepted_pivots_exceed_triangle :
    let p := Pattern.dense 2 2
    let values : Array Binary64 := #[1, 0, ⟨0x7ff8000000000000⟩, 1]
    let b : BuiltIn Binary64 := (symbolic p (.sparseLU (.new .default))).2
    let t := (numeric p values b).2
    b.name ≠ "qr" ∧ Scalar.le 0 b.threshold = true ∧ LastAnalysed p b ∧
      numeric p values b = (.ok (), t) ∧
      ∃ largest, Binary64.IsLargest largest values.toList ∧
        ∃ (m : SparseMatrix Binary64) (d : Nat → Binary64),
          m.pattern = p ∧ m.values = values ∧ Pivots m t d ∧ ∀ k < p.nrows,
            (Scalar.lt (b.threshold * largest) (d k) = true ∧ Scalar.lt 0 (d k) = true) ∨
            (b.name ≠ "sparse_lu" ∧
              ((d k).isNaN = true ∨ (b.threshold * largest).isNaN = true)) := by
  intro p values b t
  have kind : b.name ≠ "qr" := by decide +kernel
  have nonneg : Scalar.le 0 b.threshold = true := by decide +kernel
  have analysed : LastAnalysed p b := .symbolic (accepted_of_fst (by decide +kernel))
  have accepted : numeric p values b = (.ok (), t) := accepted_of_fst (by decide +kernel)
  exact ⟨kind, nonneg, analysed, accepted, accepted_pivots_exceed kind nonneg analysed accepted⟩

/-- The dense LU accepts a matrix whose only entry is not a number, and with it as the pivot. With the
threshold zero it also accepts the diagonal matrix of infinity and zero, whose second pivot is zero. -/
theorem accepts_nan_and_zero_pivots :
    let p := Pattern.dense 1 1
    let b := (symbolic p (.denseLU (.new .default) : BuiltIn Binary64)).2
    let p' := Pattern.dense 2 2
    let b' := (symbolic p' (.denseLU (.new ⟨0, 0⟩) : BuiltIn Binary64)).2
    let isPivot (k : Nat) (test : Binary64 → Bool) : BuiltIn Binary64 → Bool
      | denseLU s => s.factors.any fun f => test (f.packed.entry k k)
      | _ => false
    Scalar.le 0 b.threshold = true ∧ (numeric p #[⟨0x7ff8000000000000⟩] b).1 = .ok () ∧
      isPivot 0 Binary64.isNaN (numeric p #[⟨0x7ff8000000000000⟩] b).2 = true ∧
      Scalar.le 0 b'.threshold = true ∧ (numeric p' #[⟨0x7ff0000000000000⟩, 0, 0, 0] b').1 = .ok () ∧
      isPivot 1 Scalar.isZero (numeric p' #[⟨0x7ff0000000000000⟩, 0, 0, 0] b').2 = true := by
  decide +kernel

end BuiltIn

end Cotangent
