import Cotangent.Proofs.Caches
import Cotangent.Proofs.Contract

/-! What a slot remembers. Only the last factorization shows: a slot that was asked for anything before
it is the slot that a new one becomes by the same matrix alone, and without one every question is
refused. A refused solve changes nothing. -/
namespace Cotangent

variable {α β ω : Type}

/-! ### The last factorization -/

/-- Analysis and factors; everything else is a question. -/
def Request.isFactorization : Request α → Bool
  | symbolic _ | numeric _ => true
  | _ => false

namespace Slot

/-- The last request for an analysis or for factors, and what it answered. -/
def lastFactorization [Backend α ω β] :
    List (Request α) → Slot β × ω → Option (Request α × Except Error Unit)
  | [], _ => none
  | r :: later, t => (lastFactorization later (request r t).2).or
      (if r.isFactorization then some (r, (request r t).1) else none)

end Slot

/-! ### Ranks -/

section Rank

variable [Scalar α]

theorem Factor.numericalRank_le (tolerance : α) (diagonal : List α) :
    Factor.numericalRank tolerance diagonal ≤ diagonal.length := by
  unfold Factor.numericalRank
  dsimp only
  split
  · exact Nat.zero_le _
  · exact List.countP_le_length

/-- Every finished column has a diagonal entry. -/
theorem SparseLU.size_diagonal {options : Options α} {a : SparseMatrix α} {f : SparseLU α}
    (done : factorize options a = .ok f) : f.diagonal.size = a.ncols := by
  have column (tolerance : α) (k : Nat) (s : Partial α) : Run.Post (eliminate a tolerance k) s
      (fun _ t => t.diagonal.size = s.diagonal.size + 1) fun _ _ => True := by
    unfold Run.Post eliminate
    dsimp only
    split
    · next stopped =>
      split at stopped
      · cases stopped
      · cases stopped
        exact Array.size_push _
    · trivial
  have swept : Run.Post (columns options a) (Partial.start a.nrows)
      (fun _ t => t.diagonal.size = a.ncols) fun _ _ => True := by
    refine Run.Post.forM (fun k t => t.diagonal.size = k) rfl ?_ fun t size => by simpa using size
    exact fun k _ s _ size => (column _ _ s).imp (fun _ _ grown => by rw [grown, size]) fun _ _ => id
  unfold factorize at done
  rcases ran : columns options a (Partial.start a.nrows) with ⟨e | _, s⟩ <;> rw [ran] at done
  · cases done
  · have size := swept.of_ok ran
    dsimp only at done
    split at done
    · cases done
      exact size
    · cases done

/-- A factor is on the pattern of the analysis, which has the order of the matrix. -/
theorem Cholesky.exists_of_numeric {p : Pattern} {values : Array α} {s t : Cholesky α}
    (ran : numeric p values s = (.ok (), t)) : ∃ q l, s.analysis = some q ∧
      t = { s with factor := some l } ∧ l.pattern = q.lower ∧ p.shape = (q.lower.ncols, q.lower.ncols) := by
  unfold numeric at ran
  dsimp only at ran
  split at ran
  · next l done =>
    cases ran
    obtain ⟨m, accepted, done⟩ := Outcome.bind_eq_ok.mp done
    cases analysed : s.analysis with
    | none =>
      rw [analysed] at done
      cases done
    | some q =>
      rw [analysed] at done accepted
      refine ⟨q, l, rfl, rfl, ?_, ?_⟩
      · dsimp only [factorize] at done
        split at done
        · cases done
        · unfold SparseMatrix.ofValues at done
          split at done <;> cases done
          rfl
      · by_contra other
        have refused : p.nrows ≠ q.lower.ncols ∨ p.ncols ≠ q.lower.ncols :=
          not_and_or.mp fun both => other (Prod.ext both.1 both.2)
        rw [Option.map_some, Factor.accept, if_pos refused] at accepted
        cases accepted
  · cases ran

/-- A factor has the order of its matrix. -/
theorem Cholesky.ncols_of_numeric {p : Pattern} {values : Array α} {s t : Cholesky α}
    (ran : numeric p values s = (.ok (), t)) : ∃ l, t.factor = some l ∧ l.ncols = p.ncols := by
  obtain ⟨q, l, -, rfl, pattern, shape⟩ := exists_of_numeric ran
  exact ⟨l, rfl, (congrArg Pattern.ncols pattern).trans (congrArg Prod.snd shape).symm⟩

omit [Scalar α] in
/-- A rank that is bounded for all factors of matrices on a pattern. -/
theorem Staged.rank_le {φ : Type} {factorize : Options α → SparseMatrix α → Except Error φ}
    (rank : Options α → φ → Nat) {p : Pattern} {values : Array α} {s t : Staged α φ} {name : String}
    {r : Nat} (bound : ∀ options m f, m.pattern = p → factorize options m = .ok f →
      rank options f ≤ p.ncols)
    (ran : numeric factorize p values s = (.ok (), t))
    (ranked : (t.current name).map (rank t.options) = .ok r) : r ≤ p.ncols := by
  obtain ⟨-, m, pattern, -, f, done, rfl⟩ := exists_of_numeric ran
  cases ranked
  exact bound s.options m f pattern done

/-- The rank of a square matrix is at most its order. -/
theorem BuiltIn.rank_le {p : Pattern} {values : Array α} {b b' : BuiltIn α}
    (ran : numeric p values b = (.ok (), b')) (square : p.ncols = p.nrows) {r : Nat}
    (ranked : b'.rank = .ok r) : r ≤ p.ncols := by
  cases b with
  | denseLU s =>
    rcases inner : Staged.numeric DenseLU.factorize p values s with ⟨_, t⟩
    simp only [numeric, step, inner] at ran
    cases ran
    refine Staged.rank_le DenseLU.rank (fun options m f pattern done => ?_) inner ranked
    refine (Factor.numericalRank_le _ _).trans_eq ?_
    rw [List.length_map, List.length_range, (DenseLU.factorize_answers options m).1 f done,
      SparseMatrix.nrows, pattern, square]
  | sparseLU s =>
    rcases inner : Staged.numeric SparseLU.factorize p values s with ⟨_, t⟩
    simp only [numeric, step, inner] at ran
    cases ran
    refine Staged.rank_le SparseLU.rank (fun options m f pattern done => ?_) inner ranked
    refine (Factor.numericalRank_le _ _).trans_eq ?_
    rw [Array.length_toList, SparseLU.size_diagonal done, SparseMatrix.ncols, pattern]
  | qr s =>
    rcases inner : Staged.numeric QR.factorize p values s with ⟨_, t⟩
    simp only [numeric, step, inner] at ran
    cases ran
    refine Staged.rank_le QR.rank (fun options m f pattern done => ?_) inner ranked
    refine (Factor.numericalRank_le _ _).trans_eq ?_
    rw [List.length_map, List.length_range, (QR.factorize_answers options m).1 f done,
      SparseMatrix.nrows, pattern, square]
  | cholesky s =>
    rcases inner : Cholesky.numeric p values s with ⟨_, t⟩
    simp only [numeric, step, inner] at ran
    cases ran
    obtain ⟨l, held, columns⟩ := Cholesky.ncols_of_numeric inner
    simp only [rank, Cholesky.rank, Cholesky.current, held, Outcome.ok_bind] at ranked
    cases ranked
    refine (Factor.numericalRank_le _ _).trans_eq ?_
    rw [List.length_map, List.length_range, columns]

end Rank

/-! ### What is left of the requests -/

namespace Slot

variable [Scalar α] {s : Slot (BuiltIn α)} {b : BuiltIn α} {w : ω}
  {last : Option (Request α × Except Error Unit)}

/-- What is left of all requests: the factors of the last matrix, if the last factorization was a
success with values. -/
structure Remembers (b : BuiltIn α) (last : Option (Request α × Except Error Unit))
    (s : Slot (BuiltIn α)) : Prop where
  faithful : s.Faithful b
  holds : ∀ a, last = some (.numeric a, .ok ()) → s.Holds b a
  phase : s.phase = .factored → ∃ a, last = some (.numeric a, .ok ())

/-- A matrix that is not square is refused, and earlier factors are given up. -/
theorem symbolicFactorize_of_not_square {p : Pattern} (other : p.ncols ≠ p.nrows) :
    symbolicFactorize p (s, w) = (.error (.factorization .symbolic (.notSquare p.nrows p.ncols)),
      ({ s with phase := .unfactored }, w)) := by
  simp only [symbolicFactorize, Pattern.isSquare, beq_eq_false_iff_ne.mpr other.symm,
    Bool.false_eq_true, if_false]

omit [Scalar α] in
theorem Faithful.unfactored (faithful : s.Faithful b) :
    ({ s with phase := .unfactored } : Slot (BuiltIn α)).Faithful b :=
  ⟨faithful.kind, fun analysed => absurd rfl analysed⟩

/-- After an analysis there are no factors. -/
theorem remembers_symbolic (faithful : s.Faithful b) (p : Pattern) :
    (symbolicFactorize p (s, w)).2.1.Remembers b
      (some (.symbolic p, (symbolicFactorize p (s, w)).1)) := by
  have reached : (symbolicFactorize p (s, w)).2.1.Faithful b ∧
      (symbolicFactorize p (s, w)).2.1.phase ≠ .factored := by
    by_cases square : p.ncols = p.nrows
    · refine ((post_symbolicFactorize_faithful faithful square w).imp ?_ ?_).always
        (P := fun t => t.1.Faithful b ∧ t.1.phase ≠ .factored)
      · rintro _ t ⟨faithful, -, phase⟩
        exact ⟨faithful, by simp [phase]⟩
      · rintro _ t ⟨faithful, -, phase, -⟩
        exact ⟨faithful, by simp [phase]⟩
    · rw [symbolicFactorize_of_not_square square]
      exact ⟨faithful.unfactored, nofun⟩
  exact ⟨reached.1, nofun, fun phase => absurd phase reached.2⟩

/-- After a success with values there are the factors of the matrix, after a failure there are none. -/
theorem remembers_numeric (faithful : s.Faithful b) (a : SparseMatrix α) :
    (numericFactorize a (s, w)).2.1.Remembers b
      (some (.numeric a, (numericFactorize a (s, w)).1)) := by
  by_cases square : a.pattern.ncols = a.pattern.nrows
  · have post := post_numericFactorize_holds faithful square w
    rcases ran : (numericFactorize a : Run (Slot (BuiltIn α) × ω) Unit) (s, w) with ⟨e | _, t⟩
    · have refused := post.of_error ran
      exact ⟨refused.faithful, nofun, fun phase => absurd phase refused.phase⟩
    · have holds := post.of_ok ran
      refine ⟨holds.faithful, fun a' same => ?_, fun _ => ⟨a, rfl⟩⟩
      cases same
      exact holds
  · have again : s.phase = .unfactored ∨ a.pattern ≠ s.pattern := by
      by_cases phase : s.phase = .unfactored
      · exact .inl phase
      · exact .inr fun same => square (same ▸ (faithful.analysed phase).1)
    have ran : numericFactorize a (s, w) = ((.error (.factorization .symbolic
        (.notSquare a.pattern.nrows a.pattern.ncols))), ({ s with phase := .unfactored }, w)) := by
      change (if s.phase = .unfactored ∨ a.pattern ≠ s.pattern then
          symbolicFactorize a.pattern >>= fun _ => factorValues a.values
        else factorValues a.values : Run (Slot (BuiltIn α) × ω) Unit) (s, w) = _
      rw [if_pos again, Run.bind_apply, symbolicFactorize_of_not_square square]
    rw [ran]
    exact ⟨faithful.unfactored, nofun, nofun⟩

/-- A request is the last factorization, or it leaves a slot as it is. -/
theorem Remembers.request (remembers : s.Remembers b last) (r : Request α) :
    (request r (s, w)).2.1.Remembers b
      ((if r.isFactorization then some (r, (Slot.request r (s, w)).1) else none).or last) := by
  cases r with
  | symbolic p => exact remembers_symbolic remembers.faithful p
  | numeric a => exact remembers_numeric remembers.faithful a
  | _ => exact remembers

/-- Requests one after another. -/
theorem Remembers.after {t : Slot (BuiltIn α) × ω} (remembers : t.1.Remembers b last)
    (requests : List (Request α)) : (Slot.after requests t).1.Remembers b
      ((lastFactorization requests t).or last) := by
  induction requests generalizing t last with
  | nil => exact remembers
  | cons r requests ih =>
    rw [lastFactorization, Option.or_assoc]
    exact ih (remembers.request r)

/-- A slot with the factors of a matrix is the slot that a new one becomes. -/
theorem Holds.eq_fresh {a : SparseMatrix α} (holds : s.Holds b a) (fresh : b.renewed = b)
    (p : Pattern) (w : ω) : (numericFactorize a (Slot.new b p, w)).1 = .ok () ∧
      (numericFactorize a (Slot.new b p, w)).2.1 = s := by
  have square := (holds.faithful.analysed (by simp [holds.phase])).1
  have post := post_numericFactorize_holds (a := a) (faithful_new (p := p) fresh)
    (holds.pattern ▸ square) w
  rcases ran : (numericFactorize a : Run (Slot (BuiltIn α) × ω) Unit) (Slot.new b p, w)
    with ⟨e | _, t, w'⟩
  · cases (post.of_error ran).refuses.symm.trans holds.factors
  · have holds' := post.of_ok ran
    obtain ⟨backend, pattern, phase⟩ := s
    obtain ⟨backend', pattern', phase'⟩ := t
    have same := Except.ok.inj (holds'.factors.symm.trans holds.factors)
    obtain ⟨-, rfl, rfl, -⟩ := holds
    obtain ⟨-, rfl, rfl, -⟩ := holds'
    cases same
    exact ⟨rfl, rfl⟩

/-- A rank is at most the number of columns. -/
theorem Holds.rank_le {a : SparseMatrix α} (holds : s.Holds b a) {r : Nat}
    (ranked : (s.rank w).1 = .ok r) : r ≤ s.pattern.ncols := by
  have square := (holds.faithful.analysed (by simp [holds.phase])).1
  have factors := holds.factors
  have ready : s.requireFactors = .ok () := if_pos holds.phase
  rw [holds.pattern] at square ⊢
  unfold BuiltIn.factored at factors
  split at factors
  · cases factors
  · split at factors
    · cases factors
    · next b' ran =>
      cases factors
      refine BuiltIn.rank_le ran square ?_
      rw [rank, ready] at ranked
      exact ranked

omit [Scalar α] in
/-- A slot without factors refuses every question. -/
theorem request_of_no_factors {β : Type} [Backend α ω β] {s : Slot β} (phase : s.phase ≠ .factored)
    {r : Request α} (question : r.isFactorization = false) (w : ω) : Slot.request r (s, w) =
      (.error (.precondition "linear system has not been factorized"), (s, w)) := by
  have refused : s.requireFactors =
      .error (.precondition "linear system has not been factorized") := if_neg phase
  have refused' : s.requireCholesky ω =
      .error (.precondition "linear system has not been factorized") := by
    rw [requireCholesky, refused, Outcome.error_bind]
  cases r with
  | symbolic p => cases question
  | numeric a => cases question
  | solve rhs transposed => simp only [Slot.request, ask, solved, solve, refused]; rfl
  | rank => simp only [Slot.request, ask, rank, refused]; rfl
  | nullity => simp only [Slot.request, ask, nullity, rank, refused]; rfl
  | negativeEigenvalues => simp only [Slot.request, ask, negativeEigenvalues, refused]; rfl
  | cholesky transposed => simp only [Slot.request, ask, cholesky, refused']; rfl
  | choleskyPattern transposed => simp only [Slot.request, ask, choleskyPattern, refused']; rfl
  | solveCholesky rhs transposed => simp only [Slot.request, ask, solved, solveCholesky, refused']; rfl

omit [Scalar α] in
/-- A solve that fails leaves the right-hand side as it was. -/
theorem post_columns_kept (check : Except Error Unit)
    (act : (nrhs : Nat) → {m : Nat} → Vector α m → Except Error (Vector α m)) (rhs : DenseMatrix α)
    (w : ω) :
    Run.Post (do
      Run.ofExcept check
      Run.ofExcept (s.checkRows (← get).1)
      onColumns fun nrhs {_} => Run.replace (act nrhs)) (rhs, w) (fun _ _ => True)
      fun _ t => t = (rhs, w) := by
  cases check with
  | error e => rfl
  | ok u =>
    change Run.Post (Run.ofExcept (s.checkRows rhs) >>= fun _ =>
      onColumns fun nrhs {_} => Run.replace (act nrhs)) (rhs, w) _ _
    cases s.checkRows rhs with
    | error e => rfl
    | ok u =>
      change Run.Post (if rhs.ncols = 0 then pure () else Run.mapError (.atStage .solve)
        (Run.onData (Run.replace (act rhs.ncols)))) (rhs, w) _ _
      split
      · trivial
      · simp only [Run.Post, Run.mapError, Run.onData, Run.replace]
        cases act rhs.ncols ⟨rhs.data, rhs.size_data⟩ with
        | error e => rfl
        | ok x => trivial

/-- A slot with a backend of the library remembers the last factorization only. It has factors if and
only if that was a success with values. Then it is the slot that a new one becomes by the same matrix,
so it answers every question as that one does, and no rank exceeds the number of columns; otherwise it
refuses every question. A solve that fails leaves the right-hand side as it was. -/
theorem only_last_factorization_shows {plugin : String} {options : Options α} {b : BuiltIn α}
    (created : (Catalogue.builtIn id).create plugin options = .ok b) (p : Pattern) (w : ω)
    (requests : List (Request α)) :
    let t := Slot.after requests (Slot.new b p, w)
    let last := lastFactorization requests (Slot.new b p, w)
    (t.1.phase = .factored ↔ ∃ a, last = some (.numeric a, .ok ())) ∧
    (∀ a, last = some (.numeric a, .ok ()) →
      (∀ (p' : Pattern) (w' : ω), (numericFactorize a (Slot.new b p', w')).1 = .ok () ∧
        (numericFactorize a (Slot.new b p', w')).2.1 = t.1) ∧
      ∀ (w' : ω) (r : Nat), (t.1.rank w').1 = .ok r → r ≤ t.1.pattern.ncols) ∧
    ((∀ a, last ≠ some (.numeric a, .ok ())) → ∀ r : Request α, r.isFactorization = false →
      request r t = (.error (.precondition "linear system has not been factorized"), t)) ∧
    (∀ (rhs : DenseMatrix α) (transposed : Bool) (w' : ω) (e : Error),
      ((t.1.solve transposed (rhs, w')).1 = .error e →
        (t.1.solve transposed (rhs, w')).2 = (rhs, w')) ∧
      ((t.1.solveCholesky transposed (rhs, w')).1 = .error e →
        (t.1.solveCholesky transposed (rhs, w')).2 = (rhs, w'))) := by
  intro t last
  have fresh : b.renewed = b := Store.renewed_create created
  have remembers : t.1.Remembers b last := by
    have start : (Slot.new b p).Remembers b none := ⟨faithful_new fresh, nofun, nofun⟩
    simpa using Remembers.after (t := (Slot.new b p, w)) start requests
  refine ⟨⟨remembers.phase, fun ⟨a, here⟩ => (remembers.holds a here).phase⟩, fun a here => ?_,
    fun none r question => ?_, fun rhs transposed w' e => ⟨fun failed => ?_, fun failed => ?_⟩⟩
  · have holds := remembers.holds a here
    exact ⟨holds.eq_fresh fresh, fun w' r => holds.rank_le⟩
  · exact request_of_no_factors (fun phase => (remembers.phase phase).elim none) question t.2
  · exact (post_columns_kept t.1.requireFactors
      (fun nrhs {_} => t.1.backend.solve nrhs transposed) rhs w').of_error (Prod.ext failed rfl)
  · exact (post_columns_kept (t.1.requireCholesky ω)
      (fun nrhs {_} => t.1.backend.solveTriangle nrhs transposed) rhs w').of_error
      (Prod.ext failed rfl)

/-- A slot that was made for another pattern and has refused the matrix `[[0]]` has factors of `[[2]]`
like a new one. -/
theorem only_last_factorization_shows_retry :
    let b : BuiltIn Int := .denseLU (.new ⟨0, 0⟩)
    let zero : SparseMatrix Int := ⟨.dense 1 1, #[0], rfl⟩
    let two : SparseMatrix Int := ⟨.dense 1 1, #[2], rfl⟩
    let requests : List (Request Int) := [.numeric zero, .numeric two, .rank]
    (Catalogue.builtIn id).create "lu" (⟨0, 0⟩ : Options Int) = .ok b ∧
      (Slot.after requests (Slot.new b (.dense 2 2), ())).1.phase = .factored ∧
      (Slot.after requests (Slot.new b (.dense 2 2), ())).1 =
        (numericFactorize two (Slot.new b (.dense 1 1), ())).2.1 := by
  intro b zero two requests
  have created : (Catalogue.builtIn id).create "lu" (⟨0, 0⟩ : Options Int) = .ok b := rfl
  have factored : (Slot.after requests (Slot.new b (.dense 2 2), ())).1.phase = .factored := by
    decide +kernel
  obtain ⟨known, forgets, -⟩ := only_last_factorization_shows created (.dense 2 2) () requests
  obtain ⟨a, last⟩ := known.mp factored
  have same : two = a := by
    simp only [requests, lastFactorization, Request.isFactorization, Bool.false_eq_true, if_false,
      if_true, Option.none_or, Option.some_or, Option.some.injEq, Prod.mk.injEq,
      Request.numeric.injEq] at last
    exact last.1
  rw [← same] at last
  exact ⟨created, factored, ((forgets two last).1 (.dense 1 1) ()).2.symm⟩

end Slot

end Cotangent
