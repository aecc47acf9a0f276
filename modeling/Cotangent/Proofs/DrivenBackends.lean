import Cotangent.Proofs.Cursors
import Cotangent.Proofs.Lifecycle
import Cotangent.Proofs.PivotRows

/-! Backends however they are driven. Analyses and factorizations may be asked for in any order, on any
patterns and values, and many of them may fail. When values have just been factorized, the factors are
arranged nevertheless: their order is that of the pattern, the pivots list every row or column once, and
a Cholesky factor is on a pattern that an analysis has found. Nothing is asked of the numbers. -/
namespace Cotangent.BuiltIn

variable {α : Type} [Scalar α] {p : Pattern} {values : Array α} {b b' : BuiltIn α} {n : Nat}

/-- A backend after any analyses and factorizations, successful or not. -/
inductive Driven : BuiltIn α → Prop
  | created {plugin : String} {options : Options α} {b : BuiltIn α}
      (made : (Catalogue.builtIn id).create plugin options = .ok b) : Driven b
  | symbolic {b : BuiltIn α} (before : Driven b) (p : Pattern) : Driven (symbolic p b).2
  | numeric {b : BuiltIn α} (before : Driven b) (p : Pattern) (values : Array α) :
      Driven (numeric p values b).2

/-- A backend with factors of an order, arranged by their pivots. -/
inductive Arranged (n : Nat) : BuiltIn α → Prop
  | denseLU {s : Staged α (DenseLU α)} {f : DenseLU α} {π : Equiv.Perm (Fin n)}
      (held : s.factors = some f) (order : f.order = n) (lists : Factor.Lists f.perm π) :
      Arranged n (.denseLU s)
  | sparseLU {s : Staged α (SparseLU α)} {f : SparseLU α} {t : SparseLU.Partial α}
      (held : s.factors = some f) (finished : SparseLU.Finished t f n) : Arranged n (.sparseLU s)
  | qr {s : Staged α (QR α)} {f : QR α} (held : s.factors = some f) (arranged : f.Arranged n n) :
      Arranged n (.qr s)
  | cholesky {s : Cholesky α} {l : SparseMatrix α} {a : Cholesky.Analysis} {p : Pattern}
      (held : s.factor = some l) (fills : a.Fills p) (pattern : l.pattern = a.lower)
      (order : p.nrows = n) : Arranged n (.cholesky s)

theorem Arranged.factored (arranged : b.Arranged n) : b.Factored n := by
  cases arranged with
  | denseLU held order => exact .denseLU held order
  | sparseLU held finished => exact .sparseLU held finished.order
  | qr held arranged => exact .qr held arranged.order
  | cholesky held fills pattern order =>
    exact .cholesky held (((congrArg Pattern.nrows pattern).trans fills.rows).trans order)

/-- An analysis that Cholesky keeps was found for some pattern. -/
def Analyses (b : BuiltIn α) : Prop :=
  ∀ s, b = .cholesky s → ∀ a, s.analysis = some a → ∃ p, a.Fills p

omit [Scalar α] in
theorem Analyses.of_unfactored (same : b'.unfactored = b.unfactored) (analyses : b.Analyses) :
    b'.Analyses := by
  rintro s rfl a held
  cases b with
  | cholesky t =>
    have kept : s.unfactored = t.unfactored := BuiltIn.cholesky.inj same
    exact analyses t rfl a ((congrArg Cholesky.analysis kept).symm.trans held)
  | _ => cases same

omit [Scalar α] in
theorem analyses_symbolic (p : Pattern) (b : BuiltIn α) : (symbolic p b).2.Analyses := by
  rintro s same a held
  cases b with
  | cholesky t =>
    have kept : (Cholesky.symbolic p t).2 = s := BuiltIn.cholesky.inj same
    rw [← kept] at held
    unfold Cholesky.symbolic at held
    cases analysed : Cholesky.analyse p with
    | error e =>
      rw [analysed] at held
      cases held
    | ok q =>
      rw [analysed] at held
      cases held
      exact ⟨p, (Cholesky.analyse_eq_ok analysed).2⟩
  | _ => cases same

theorem Driven.analyses (driven : b.Driven) : b.Analyses := by
  induction driven with
  | created made =>
    rintro s rfl a held
    rcases create_eq_ok made with ⟨-, same⟩ | ⟨-, same⟩ | ⟨-, same⟩ | ⟨-, same⟩ <;> cases same
    cases held
  | symbolic before p ih => exact analyses_symbolic p _
  | numeric before p values ih => exact ih.of_unfactored (unfactored_numeric p values _)

/-- The factors of values are arranged. -/
theorem Analyses.arranged_of_numeric (analyses : b.Analyses)
    (ran : BuiltIn.numeric p values b = (.ok (), b')) : b'.Arranged p.nrows := by
  cases b with
  | denseLU s =>
    rcases inner : Staged.numeric DenseLU.factorize p values s with ⟨_, t⟩
    simp only [BuiltIn.numeric, step, inner] at ran
    cases ran
    obtain ⟨-, m, rfl, -, f, done, rfl⟩ := Staged.exists_of_numeric inner
    obtain ⟨order, π, lists⟩ := DenseLU.lists_factorize done
    exact .denseLU rfl order lists
  | sparseLU s =>
    rcases inner : Staged.numeric SparseLU.factorize p values s with ⟨_, t⟩
    simp only [BuiltIn.numeric, step, inner] at ran
    cases ran
    obtain ⟨square, m, rfl, -, f, done, rfl⟩ := Staged.exists_of_numeric inner
    obtain ⟨t, finished⟩ := SparseLU.finished_of_factorize rfl square done
    exact .sparseLU rfl finished
  | qr s =>
    rcases inner : Staged.numeric QR.factorize p values s with ⟨_, t⟩
    simp only [BuiltIn.numeric, step, inner] at ran
    cases ran
    obtain ⟨-, m, rfl, -, f, done, rfl⟩ := Staged.exists_of_numeric inner
    exact .qr rfl (QR.arranged_factorize done)
  | cholesky s =>
    rcases inner : Cholesky.numeric p values s with ⟨_, t⟩
    simp only [BuiltIn.numeric, step, inner] at ran
    cases ran
    obtain ⟨q, l, analysed, rfl, pattern, shape⟩ := Cholesky.exists_of_numeric inner
    obtain ⟨p', fills⟩ := analyses s rfl q analysed
    exact .cholesky rfl fills pattern (fills.columns.symm.trans (congrArg Prod.fst shape).symm)

/-- The factors of a matrix are arranged, whatever the backend was before. -/
theorem arranged_of_factored {m : SparseMatrix α} (factored : b.factored m = .ok b') :
    b'.Arranged m.nrows := by
  have analyses := analyses_symbolic m.pattern b
  unfold BuiltIn.factored at factored
  split at factored
  · cases factored
  · next analysed =>
    rw [analysed] at analyses
    split at factored
    · cases factored
    · next ran =>
      cases factored
      exact analyses.arranged_of_numeric ran

end Cotangent.BuiltIn
