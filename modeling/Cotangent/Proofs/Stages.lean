import Cotangent.Factor.Basic
import Cotangent.Proofs.Computation

/-! The stages of a factorization. An analysis is accepted for a square pattern that has as many pairs
as columns, and keeps the order; values are accepted after it if there is one for every position, and
then the factorization decides. -/
namespace Cotangent

variable {α φ : Type} {p : Pattern} {s : Staged α φ}

/-- A square pattern is asked for its structural rank, if there is room for a matching. -/
theorem Pattern.invertibleOrder_of_square (square : p.ncols = p.nrows) :
    p.invertibleOrder = (do
      checkRoom (2 * p.nrows)
      if p.structuralRank < p.nrows then
        .error (.factorization .symbolic (.structurallySingular p.structuralRank p.nrows))
      else .ok p.nrows) := by
  simp only [Pattern.invertibleOrder, Pattern.order, Pattern.isSquare,
    Pattern.structuralRank?_of_square square, square, beq_self_eq_true, if_true, Outcome.ok_bind]
  cases checkRoom (2 * p.nrows) <;> rfl

/-- An accepted pattern is square and has full structural rank. -/
theorem Pattern.invertibleOrder_eq_ok {n : Nat} : p.invertibleOrder = .ok n ↔
    p.ncols = n ∧ p.nrows = n ∧ 2 * n < wordLimit ∧ n ≤ p.structuralRank := by
  by_cases square : p.ncols = p.nrows
  · rw [invertibleOrder_of_square square]
    by_cases room : 2 * p.nrows < wordLimit
    · rw [checkRoom_of_lt room, Outcome.ok_bind]
      by_cases less : p.structuralRank < p.nrows
      · simp only [if_pos less, reduceCtorEq, false_iff]
        omega
      · simp only [if_neg less, Except.ok.injEq]
        omega
    · simp only [checkRoom_of_le (Nat.not_lt.mp room), Outcome.error_bind, reduceCtorEq, false_iff]
      omega
  · simp only [Pattern.invertibleOrder, Pattern.order, Pattern.isSquare,
      beq_eq_false_iff_ne.mpr (Ne.symm square), Bool.false_eq_true, if_false, Outcome.error_bind,
      reduceCtorEq, false_iff]
    omega

namespace Staged

/-- An analysis of a square pattern only asks for its structural rank. -/
theorem outcome_symbolic (square : p.ncols = p.nrows) :
    (symbolic p s).1 = (do
      checkRoom (2 * p.nrows)
      if p.structuralRank < p.nrows then
        .error (.factorization .symbolic (.structurallySingular p.structuralRank p.nrows))
      else .ok ()) := by
  rw [symbolic, Pattern.invertibleOrder_of_square square]
  cases checkRoom (2 * p.nrows) with
  | error e => rfl
  | ok _ =>
    rw [Outcome.ok_bind, Outcome.ok_bind]
    by_cases deficient : p.structuralRank < p.nrows
    · simp only [if_pos deficient]
    · simp only [if_neg deficient]

/-- An accepted pattern is square, and its order is kept. -/
theorem symbolic_eq_ok : (symbolic p s).1 = .ok () ↔
    p.ncols = p.nrows ∧ 2 * p.nrows < wordLimit ∧ p.nrows ≤ p.structuralRank := by
  unfold symbolic
  cases accepted : p.invertibleOrder with
  | ok n =>
    obtain ⟨columns, rows, room, full⟩ := Pattern.invertibleOrder_eq_ok.mp accepted
    simp only [true_iff]
    exact ⟨columns.trans rows.symm, rows ▸ room, rows ▸ full⟩
  | error e =>
    simp only [reduceCtorEq, false_iff]
    rintro ⟨square, room, full⟩
    rw [Pattern.invertibleOrder_eq_ok.mpr ⟨square, rfl, room, full⟩] at accepted
    cases accepted

theorem state_symbolic (accepted : (symbolic p s).1 = .ok ()) :
    (symbolic p s).2 = ⟨s.options, some p.nrows, none⟩ := by
  obtain ⟨square, room, full⟩ := symbolic_eq_ok.mp accepted
  unfold symbolic
  rw [Pattern.invertibleOrder_eq_ok.mpr ⟨square, rfl, room, full⟩]

/-- On values for every position of the analysed pattern, the factorization decides. -/
theorem numeric_eq (factorize : Options α → SparseMatrix α → Except Error φ) {a : SparseMatrix α}
    (order : s.order = some a.pattern.nrows) (square : a.pattern.ncols = a.pattern.nrows) :
    numeric factorize a.pattern a.values s = match factorize s.options a with
      | .ok f => (.ok (), { s with factors := some f })
      | .error e => (.error e, { s with factors := none }) := by
  have checked : Factor.accept s.order a.pattern a.values = .ok a := by
    simp [Factor.accept, order, square, SparseMatrix.ofValues, a.size_values]
  rw [numeric, checked]
  rfl

/-- Values are refused if there is not one for every position. -/
theorem numeric_of_size_ne (factorize : Options α → SparseMatrix α → Except Error φ)
    {values : Array α} (order : s.order = some p.nrows) (square : p.ncols = p.nrows)
    (size : values.size ≠ p.nnz) : numeric factorize p values s =
      (.error (.shapeMismatch [p.nnz] [values.size]), { s with factors := none }) := by
  have refused : Factor.accept s.order p values = .error (.shapeMismatch [p.nnz] [values.size]) := by
    simp [Factor.accept, order, square, SparseMatrix.ofValues, size]
  rw [numeric, refused, Outcome.error_bind]

/-- Values are accepted if there is one for every position and the factorization succeeds. -/
theorem numeric_eq_ok (factorize : Options α → SparseMatrix α → Except Error φ) (values : Array α)
    (order : s.order = some p.nrows) (square : p.ncols = p.nrows) :
    (numeric factorize p values s).1 = .ok () ↔
      ∃ a : SparseMatrix α, a.pattern = p ∧ a.values = values ∧
        ∃ f, factorize s.options a = .ok f := by
  by_cases size : values.size = p.nnz
  · have decided := numeric_eq factorize (a := ⟨p, values, size⟩) order square
    constructor
    · intro succeeded
      rw [decided] at succeeded
      cases done : factorize s.options ⟨p, values, size⟩ with
      | ok f => exact ⟨⟨p, values, size⟩, rfl, rfl, f, done⟩
      | error e =>
        rw [done] at succeeded
        cases succeeded
    · rintro ⟨⟨_, _, _⟩, rfl, rfl, f, done⟩
      rw [decided, done]
  · rw [numeric_of_size_ne factorize order square size]
    constructor
    · nofun
    · rintro ⟨a, rfl, rfl, -⟩
      exact absurd a.size_values size

/-- After an accepted analysis, values are accepted if there is one for every position and the
factorization succeeds, and then its factors are kept. -/
theorem outcome_numeric {factorize : Options α → SparseMatrix α → Except Error φ} {t t' : Staged α φ}
    {values : Array α} {outcome : Except Error Unit} (analysed : symbolic p s = (.ok (), t))
    (ran : numeric factorize p values t = (outcome, t')) :
    p.ncols = p.nrows ∧
    (outcome = .ok () ↔ ∃ a : SparseMatrix α, a.pattern = p ∧ a.values = values ∧
      ∃ f, factorize s.options a = .ok f) ∧
    ∀ (a : SparseMatrix α) f, a.pattern = p → a.values = values → factorize s.options a = .ok f →
      t' = ⟨s.options, some p.nrows, some f⟩ := by
  have accepted : (symbolic p s).1 = .ok () := congrArg Prod.fst analysed
  have square := (symbolic_eq_ok.mp accepted).1
  have state : t = ⟨s.options, some p.nrows, none⟩ :=
    (congrArg Prod.snd analysed).symm.trans (state_symbolic accepted)
  subst state
  have succeeds := numeric_eq_ok factorize values (s := ⟨s.options, some p.nrows, none⟩) rfl square
  rw [ran] at succeeds
  refine ⟨square, succeeds, ?_⟩
  rintro a f rfl rfl done
  have decided := numeric_eq factorize (s := ⟨s.options, some a.pattern.nrows, none⟩) rfl square
  rw [ran, done] at decided
  exact congrArg Prod.snd decided

/-- After an accepted analysis, values are refused as the factorization refuses them. -/
theorem outcome_of_refused {factorize : Options α → SparseMatrix α → Except Error φ}
    {t t' : Staged α φ} {a : SparseMatrix α} {outcome : Except Error Unit} {e : Error}
    (analysed : symbolic a.pattern s = (.ok (), t))
    (ran : numeric factorize a.pattern a.values t = (outcome, t'))
    (refused : factorize s.options a = .error e) : outcome = .error e := by
  have accepted : (symbolic a.pattern s).1 = .ok () := congrArg Prod.fst analysed
  have state : t = ⟨s.options, some a.pattern.nrows, none⟩ :=
    (congrArg Prod.snd analysed).symm.trans (state_symbolic accepted)
  subst state
  have decided := numeric_eq factorize (s := ⟨s.options, some a.pattern.nrows, none⟩) rfl
    (symbolic_eq_ok.mp accepted).1
  rw [ran, refused] at decided
  exact congrArg Prod.fst decided

/-- The full pattern of order two is accepted. -/
theorem symbolic_dense_two (s : Staged α φ) :
    symbolic (.dense 2 2) s = (.ok (), (symbolic (.dense 2 2) s).2) := by
  have full : (Pattern.dense 2 2).ncols = 2 ∧ 2 * 2 < wordLimit ∧
      2 ≤ (Pattern.dense 2 2).structuralRank := by
    decide +kernel
  exact Prod.ext (symbolic_eq_ok.mpr full) rfl

end Staged

end Cotangent
