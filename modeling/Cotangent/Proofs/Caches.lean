import Cotangent.Proofs.ExactScalar
import Cotangent.Proofs.Solvers
import Cotangent.Proofs.Walk

/-! Remembered factorizations do not show. An analysis forgets what a backend had before, values forget
earlier factors, and a cell remembers values only while the factors of these values are there. So
whatever was asked of a cell before, a solve answers what a new backend of its kind would after
analysis and factorization of the same matrix. -/
namespace Cotangent

variable {α ω : Type}

/-- A matrix from its data by columns. -/
def DenseMatrix.ofVector {nrows ncols : Nat} (x : Vector α (nrows * ncols)) : DenseMatrix α :=
  ⟨nrows, ncols, x.toArray, x.size_toArray⟩

/-- A projected matrix is on the pattern. -/
theorem SparseMatrix.pattern_project [Scalar α] {m : DenseMatrix α} {p : Pattern}
    {a : SparseMatrix α} (projected : project m p = .ok a) : a.pattern = p := by
  obtain ⟨_, -, rfl⟩ := Outcome.map_eq_ok.mp projected
  rfl

/-! ### Stages -/

namespace Staged

variable {φ : Type}

/-- The analysis without factors. -/
def unfactored (s : Staged α φ) : Staged α φ := ⟨s.options, s.order, none⟩

theorem new_symbolic (p : Pattern) (s : Staged α φ) :
    (Staged.new (symbolic p s).2.options : Staged α φ) = .new s.options := by
  unfold symbolic
  cases p.invertibleOrder <;> rfl

theorem unfactored_symbolic (p : Pattern) (s : Staged α φ) :
    (symbolic p s).2.unfactored = (symbolic p s).2 := by
  unfold symbolic
  cases p.invertibleOrder <;> rfl

theorem unfactored_numeric (factorize : Options α → SparseMatrix α → Except Error φ) (p : Pattern)
    (values : Array α) (s : Staged α φ) :
    (numeric factorize p values s).2.unfactored = s.unfactored := by
  unfold numeric
  cases Factor.accept s.order p values >>= factorize s.options <;> rfl

end Staged

namespace Cholesky

/-- The analysis without a factor. -/
def unfactored (s : Cholesky α) : Cholesky α := ⟨s.options, s.analysis, none⟩

theorem new_symbolic (p : Pattern) (s : Cholesky α) :
    Cholesky.new (symbolic p s).2.options = .new s.options := by
  unfold symbolic
  cases analyse p <;> rfl

theorem unfactored_symbolic (p : Pattern) (s : Cholesky α) :
    (symbolic p s).2.unfactored = (symbolic p s).2 := by
  unfold symbolic
  cases analyse p <;> rfl

theorem unfactored_numeric [Scalar α] (p : Pattern) (values : Array α) (s : Cholesky α) :
    (numeric p values s).2.unfactored = s.unfactored := by
  unfold numeric
  dsimp only
  split <;> rfl

end Cholesky

/-! ### Backends -/

namespace BuiltIn

section Stages

variable [Scalar α]

/-- The backend as it was made. -/
def renewed : BuiltIn α → BuiltIn α
  | denseLU s => .denseLU (.new s.options)
  | sparseLU s => .sparseLU (.new s.options)
  | qr s => .qr (.new s.options)
  | cholesky s => .cholesky (.new s.options)

/-- The backend with its analysis, without factors. -/
def unfactored : BuiltIn α → BuiltIn α
  | denseLU s => .denseLU s.unfactored
  | sparseLU s => .sparseLU s.unfactored
  | qr s => .qr s.unfactored
  | cholesky s => .cholesky s.unfactored

omit [Scalar α] in
theorem symbolic_renewed (p : Pattern) (b : BuiltIn α) : symbolic p b.renewed = symbolic p b := by
  cases b <;> rfl

omit [Scalar α] in
theorem renewed_symbolic (p : Pattern) (b : BuiltIn α) :
    (symbolic p b).2.renewed = b.renewed := by
  cases b with
  | denseLU s => exact congrArg denseLU (Staged.new_symbolic p s)
  | sparseLU s => exact congrArg sparseLU (Staged.new_symbolic p s)
  | qr s => exact congrArg qr (Staged.new_symbolic p s)
  | cholesky s => exact congrArg cholesky (Cholesky.new_symbolic p s)

omit [Scalar α] in
theorem unfactored_symbolic (p : Pattern) (b : BuiltIn α) :
    (symbolic p b).2.unfactored = (symbolic p b).2 := by
  cases b with
  | denseLU s => exact congrArg denseLU (Staged.unfactored_symbolic p s)
  | sparseLU s => exact congrArg sparseLU (Staged.unfactored_symbolic p s)
  | qr s => exact congrArg qr (Staged.unfactored_symbolic p s)
  | cholesky s => exact congrArg cholesky (Cholesky.unfactored_symbolic p s)

theorem numeric_unfactored (p : Pattern) (values : Array α) (b : BuiltIn α) :
    numeric p values b.unfactored = numeric p values b := by
  cases b <;> rfl

theorem unfactored_numeric (p : Pattern) (values : Array α) (b : BuiltIn α) :
    (numeric p values b).2.unfactored = b.unfactored := by
  cases b with
  | denseLU s => exact congrArg denseLU (Staged.unfactored_numeric _ p values s)
  | sparseLU s => exact congrArg sparseLU (Staged.unfactored_numeric _ p values s)
  | qr s => exact congrArg qr (Staged.unfactored_numeric _ p values s)
  | cholesky s => exact congrArg cholesky (Cholesky.unfactored_numeric p values s)

omit [Scalar α] in
theorem renewed_unfactored (b : BuiltIn α) : b.unfactored.renewed = b.renewed := by
  cases b <;> rfl

theorem renewed_numeric (p : Pattern) (values : Array α) (b : BuiltIn α) :
    (numeric p values b).2.renewed = b.renewed := by
  rw [← renewed_unfactored, unfactored_numeric, renewed_unfactored]

/-- The four kinds of new backends. -/
theorem create_eq_ok {plugin : String} {options : Options α} {b : BuiltIn α}
    (created : (Catalogue.builtIn id).create plugin options = .ok b) :
    (plugin = "lu" ∧ b = .denseLU (.new options)) ∨
      (plugin = "sparse_lu" ∧ b = .sparseLU (.new options)) ∨
      (plugin = "qr" ∧ b = .qr (.new options)) ∨
      (plugin = "cholesky" ∧ b = .cholesky (.new options)) := by
  obtain ⟨entry, found, rfl⟩ := Outcome.map_eq_ok.mp created
  have listed : (plugin, entry) ∈ (Catalogue.builtIn id : Catalogue α (BuiltIn α)).entries := by
    unfold Catalogue.find Catalogue.find? at found
    split at found
    · next known =>
      cases found
      obtain ⟨before, after, split, -⟩ := List.lookup_eq_some_iff.mp known
      rw [split]
      exact List.mem_append_right before List.mem_cons_self
    · cases found
  simp only [Catalogue.builtIn, List.mem_cons, List.not_mem_nil, or_false, Prod.mk.injEq] at listed
  obtain ⟨rfl, rfl⟩ | ⟨rfl, rfl⟩ | ⟨rfl, rfl⟩ | ⟨rfl, rfl⟩ := listed <;> simp

/-- What becomes of a new backend that analyses the pattern of a matrix and factorizes it. -/
def factored (b : BuiltIn α) (a : SparseMatrix α) : Except Error (BuiltIn α) :=
  match symbolic a.pattern b with
  | (.error e, _) => .error (e.atStage .symbolic)
  | (.ok (), b) =>
    match numeric a.pattern a.values b with
    | (.error e, _) => .error (e.atStage .numeric)
    | (.ok (), b) => .ok b

/-- What a backend with factors answers for right-hand sides of so many rows. -/
def answer (b : BuiltIn α) (rows : Nat) (transposed : Bool) (rhs : DenseMatrix α) :
    Except Error (DenseMatrix α) :=
  if rhs.nrows = rows then
    if rhs.ncols = 0 then .ok rhs
    else
      match b.solve rhs.ncols transposed ⟨rhs.data, rhs.size_data⟩ with
      | .ok x => .ok (.ofVector x)
      | .error e => .error (e.atStage .solve)
  else .error (.shapeMismatch [rows, rhs.ncols] rhs.shape.toList)

end Stages

end BuiltIn

/-! ### Slots -/

namespace Slot

variable [Scalar α] {s : Slot (BuiltIn α)} {b : BuiltIn α} {a : SparseMatrix α}

/-- What a slot has become of a new backend: the analysis that it has is that of its pattern. -/
structure Faithful (b : BuiltIn α) (s : Slot (BuiltIn α)) : Prop where
  kind : s.backend.renewed = b
  analysed : s.phase ≠ .unfactored → s.pattern.ncols = s.pattern.nrows ∧
    BuiltIn.symbolic s.pattern b = (.ok (), s.backend.unfactored)

/-- A slot with the factors of a matrix, as a new backend would have them. -/
structure Holds (b : BuiltIn α) (a : SparseMatrix α) (s : Slot (BuiltIn α)) : Prop where
  faithful : s.Faithful b
  pattern : s.pattern = a.pattern
  phase : s.phase = .factored
  factors : b.factored a = .ok s.backend

/-- A slot that has refused a matrix, as a new backend would. -/
structure Refused (b : BuiltIn α) (a : SparseMatrix α) (e : Error) (s : Slot (BuiltIn α)) :
    Prop where
  faithful : s.Faithful b
  pattern : s.pattern = a.pattern
  phase : s.phase ≠ .factored
  refuses : b.factored a = .error e

omit [Scalar α] in
theorem faithful_new {p : Pattern} (fresh : b.renewed = b) : (Slot.new b p).Faithful b :=
  ⟨fresh, fun analysed => absurd rfl analysed⟩

theorem post_factorValues_holds (faithful : s.Faithful b) (pattern : s.pattern = a.pattern)
    (phase : s.phase ≠ .unfactored) (w : ω) :
    Run.Post (factorValues a.values) (s, w) (fun _ t => t.1.Holds b a)
      (fun e t => t.1.Refused b a e) := by
  have kind := faithful.kind
  obtain ⟨square, analysed⟩ := faithful.analysed phase
  rw [pattern] at analysed square
  have kept := BuiltIn.unfactored_numeric a.pattern a.values s.backend
  have kind' := BuiltIn.renewed_numeric a.pattern a.values s.backend
  simp only [Run.Post, factorValues, Backend.numeric, Run.onFirst, pattern]
  rcases ran : BuiltIn.numeric a.pattern a.values s.backend with ⟨e | _, b'⟩ <;>
    rw [ran] at kept kind'
  · refine ⟨⟨kind'.trans kind, fun _ => ⟨square, kept ▸ analysed⟩⟩, rfl, (fun phase => by cases phase), ?_⟩
    simp only [BuiltIn.factored, analysed, BuiltIn.numeric_unfactored, ran]
  · refine ⟨⟨kind'.trans kind, fun _ => ⟨square, kept ▸ analysed⟩⟩, rfl, rfl, ?_⟩
    simp only [BuiltIn.factored, analysed, BuiltIn.numeric_unfactored, ran]

/-- An analysis forgets what a slot had before it. -/
theorem post_symbolicFactorize_faithful (faithful : s.Faithful b) {p : Pattern}
    (square : p.ncols = p.nrows) (w : ω) :
    Run.Post (symbolicFactorize p) (s, w)
      (fun _ t => t.1.Faithful b ∧ t.1.pattern = p ∧ t.1.phase = .analysed)
      (fun e t => t.1.Faithful b ∧ t.1.pattern = p ∧ t.1.phase = .unfactored ∧
        ∃ e', (BuiltIn.symbolic p b).1 = .error e' ∧ e = e'.atStage .symbolic) := by
  have same : BuiltIn.symbolic p s.backend = BuiltIn.symbolic p b := by
    rw [← faithful.kind, BuiltIn.symbolic_renewed]
  have kind := (BuiltIn.renewed_symbolic p s.backend).trans faithful.kind
  have bare := BuiltIn.unfactored_symbolic p s.backend
  simp only [Run.Post, symbolicFactorize, Pattern.isSquare, square, beq_self_eq_true, if_true,
    Backend.symbolic, Run.onFirst]
  rw [same] at kind bare ⊢
  rcases ran : BuiltIn.symbolic p b with ⟨e | _, b'⟩ <;> rw [ran] at kind bare
  · exact ⟨⟨kind, fun h => absurd rfl h⟩, rfl, rfl, e, rfl, rfl⟩
  · exact ⟨⟨kind, fun _ => ⟨square, bare.symm ▸ ran⟩⟩, rfl, rfl⟩

/-- A factorization answers what it would answer a new backend. -/
theorem post_numericFactorize_holds (faithful : s.Faithful b)
    (square : a.pattern.ncols = a.pattern.nrows) (w : ω) :
    Run.Post (numericFactorize a) (s, w) (fun _ t => t.1.Holds b a)
      (fun e t => t.1.Refused b a e) := by
  change Run.Post (if s.phase = .unfactored ∨ a.pattern ≠ s.pattern then
      symbolicFactorize a.pattern >>= fun _ => factorValues a.values
    else factorValues a.values) (s, w) _ _
  split
  · refine ((post_symbolicFactorize_faithful faithful square w).imp (fun _ _ => id) ?_).bind ?_
    · rintro e t ⟨faithful, pattern, phase, e', refused, rfl⟩
      refine ⟨faithful, pattern, by simp [phase], ?_⟩
      rcases ran : BuiltIn.symbolic a.pattern b with ⟨_, b'⟩
      rw [ran] at refused
      cases refused
      simp only [BuiltIn.factored, ran]
    · rintro _ ⟨t, w⟩ ⟨faithful, pattern, phase⟩
      exact post_factorValues_holds faithful pattern (fun none => by cases phase.symm.trans none) w
  · next usable =>
    obtain ⟨phase, same⟩ := not_or.mp usable
    exact post_factorValues_holds faithful (not_not.mp same).symm phase w

theorem post_solve_answer (phase : s.phase = .factored) (transposed : Bool) (rhs : DenseMatrix α)
    (w : ω) :
    Run.Post (s.solve transposed) (rhs, w)
      (fun _ t => s.backend.answer s.pattern.nrows transposed rhs = .ok t.1)
      (fun e _ => s.backend.answer s.pattern.nrows transposed rhs = .error e) := by
  have factors : s.requireFactors = .ok () := if_pos phase
  unfold solve
  refine Run.Post.known factors ?_
  change Run.Post (Run.ofExcept (s.checkRows rhs) >>= fun _ =>
    onColumns fun nrhs => Backend.solve s.backend nrhs transposed) (rhs, w) _ _
  by_cases rows : rhs.nrows = s.pattern.nrows
  · refine Run.Post.known (if_pos rows) ?_
    change Run.Post (if rhs.ncols = 0 then pure () else Run.mapError (.atStage .solve)
      (Run.onData (Backend.solve s.backend rhs.ncols transposed))) (rhs, w) _ _
    by_cases none : rhs.ncols = 0
    · rw [if_pos none]
      exact (if_pos rows).trans (if_pos none)
    · rw [if_neg none, BuiltIn.answer, if_pos rows, if_neg none]
      simp only [Run.Post, Run.mapError, Run.onData, Backend.solve, Run.replace]
      cases s.backend.solve rhs.ncols transposed ⟨rhs.data, rhs.size_data⟩ with
      | error e => rfl
      | ok x => rfl
  · have refused : s.checkRows rhs =
        .error (.shapeMismatch [s.pattern.nrows, rhs.ncols] rhs.shape.toList) := if_neg rows
    rw [refused]
    exact if_neg rows

end Slot

/-! ### Cells -/

namespace SolveCell

/-- What a cell has become of a new backend: it is on a pattern, and it remembers values only while the
factors of these values are there. -/
structure Faithful [Scalar α] (b : BuiltIn α) (p : Pattern) (c : SolveCell α (BuiltIn α)) :
    Prop where
  square : p.ncols = p.nrows
  slot : c.solver.primary.Faithful b
  pattern : c.solver.primary.pattern = p
  factored : ∀ v, c.factored = some v →
    ∃ a : SparseMatrix α, a.values = v ∧ c.solver.primary.Holds b a

variable [Scalar α] {b : BuiltIn α} {c : SolveCell α (BuiltIn α)} {a : SparseMatrix α}

/-- Numerically equal lists are equal. -/
theorem eq_of_listEq [ExactEq α] {xs ys : List α} (same : Scalar.listEq xs ys = true) : xs = ys := by
  induction xs generalizing ys with
  | nil =>
    cases ys with
    | nil => rfl
    | cons y ys => cases same
  | cons x xs ih =>
    cases ys with
    | nil => cases same
    | cons y ys =>
      simp only [Scalar.listEq, Bool.and_eq_true] at same
      rw [ExactEq.eq_of_numEq x y same.1, ih same.2]

/-- A cell factorizes, or it need not. -/
theorem post_factorize_holds [ExactEq α] (faithful : c.Faithful b a.pattern) (w : ω) :
    Run.Post (factorize a) (c, w)
      (fun _ t => t.1.Faithful b a.pattern ∧ t.1.solver.primary.Holds b a ∧
        t.1.solver.plugin = c.solver.plugin ∧ t.1.solver.pattern = c.solver.pattern)
      (fun e t => t.1.Faithful b a.pattern ∧ b.factored a = .error e ∧
        t.1.solver.plugin = c.solver.plugin ∧ t.1.solver.pattern = c.solver.pattern) := by
  by_cases remembered :
      (c.factored.any fun v => Scalar.listEq v.toList a.values.toList) = true
  · simp only [Run.Post, factorize, if_pos remembered]
    cases values : c.factored with
    | none => simp [values] at remembered
    | some v =>
      rw [values, Option.any_some] at remembered
      obtain ⟨a', rfl, holds⟩ := faithful.factored v values
      have pattern : a'.pattern = a.pattern := holds.pattern.symm.trans faithful.pattern
      have equal : a'.values = a.values := Array.toList_inj.mp (eq_of_listEq remembered)
      obtain rfl : a' = a := SparseMatrix.eq_of_values pattern equal
      exact ⟨faithful, holds, trivial, trivial⟩
  · have found := Slot.post_numericFactorize_holds faithful.slot faithful.square w
    simp only [Run.Post, factorize, if_neg remembered, Solver.onPrimary] at found ⊢
    rcases ran : (Slot.numericFactorize a : Run (Slot (BuiltIn α) × ω) Unit) (c.solver.primary, w)
      with ⟨e | _, slot, w'⟩ <;> rw [ran] at found
    · exact ⟨⟨faithful.square, found.faithful, found.pattern, fun v h => by cases h⟩, found.refuses, rfl,
        rfl⟩
    · exact ⟨⟨faithful.square, found.faithful, found.pattern, fun v h => ⟨a, by cases h; rfl, found⟩⟩,
        found, rfl, rfl⟩

/-- What a cell was made for. -/
def made {β : Type} (c : SolveCell α β) : Pattern × String := (c.solver.pattern, c.solver.plugin)

/-- A cell that has been asked for a solution answers what a new backend would. -/
theorem post_solution_answer [ExactEq α] (faithful : c.Faithful b a.pattern) (rhs : DenseMatrix α)
    (transposed : Bool) (w : ω) :
    Run.Post (factorize a >>= fun _ => solution rhs transposed) (c, w)
      (fun x t => (b.factored a >>= (·.answer a.pattern.nrows transposed rhs)) = .ok x ∧
        t.1.Faithful b a.pattern ∧ t.1.made = c.made)
      (fun e t => (b.factored a >>= (·.answer a.pattern.nrows transposed rhs)) = .error e ∧
        t.1.Faithful b a.pattern ∧ t.1.made = c.made) := by
  have first := post_factorize_holds faithful w
  refine Run.Post.bind (first.imp (fun _ _ => id) ?_) ?_
  · rintro e t ⟨faithful, refused, plugin, pattern⟩
    exact ⟨by rw [refused, Outcome.error_bind], faithful, Prod.ext pattern plugin⟩
  · rintro _ ⟨c', w'⟩ ⟨faithful, holds, plugin, pattern⟩
    have solved := Slot.post_solve_answer holds.phase transposed rhs w'
    rw [holds.pattern] at solved
    simp only [Run.Post, solution] at solved ⊢
    rw [holds.factors, Outcome.ok_bind]
    rcases ran : c'.solver.primary.solve transposed (rhs, w') with ⟨e | _, x, w''⟩ <;>
      rw [ran] at solved
    · exact ⟨solved, faithful, Prod.ext pattern plugin⟩
    · exact ⟨solved, faithful, Prod.ext pattern plugin⟩

end SolveCell

/-! ### The store -/

namespace Store

/-- What the cell of a number was made for. -/
def made {β : Type} (s : Store α β ω) (k : Nat) : Option (Pattern × String) :=
  s.cells[k]?.map SolveCell.made

/-- Every cell is what it became of a new backend of its kind. -/
def Faithful [Scalar α] (s : Store α (BuiltIn α) ω) : Prop :=
  ∀ c ∈ s.cells, ∃ b, (Catalogue.builtIn id).create c.solver.plugin (.default : Options α) = .ok b ∧
    c.Faithful b c.solver.pattern

/-- A later store: cells are added, and cells stay what they were made for. -/
structure Extends [Scalar α] (s t : Store α (BuiltIn α) ω) : Prop where
  faithful : t.Faithful
  made : ∀ k m, s.made k = some m → t.made k = some m

section Extends

variable [Scalar α] {s t : Store α (BuiltIn α) ω}

theorem Extends.refl (faithful : s.Faithful) : s.Extends s := ⟨faithful, fun _ _ => id⟩

theorem Extends.trans {u : Store α (BuiltIn α) ω} (first : s.Extends t) (second : t.Extends u) :
    s.Extends u :=
  ⟨second.faithful, fun k m made => second.made k m (first.made k m made)⟩

/-- A new backend is as it was made. -/
theorem renewed_create {plugin : String} {options : Options α} {b : BuiltIn α}
    (created : (Catalogue.builtIn id).create plugin options = .ok b) : b.renewed = b := by
  rcases BuiltIn.create_eq_ok created with ⟨-, rfl⟩ | ⟨-, rfl⟩ | ⟨-, rfl⟩ | ⟨-, rfl⟩ <;> rfl

/-- A new cell is faithful, and it is made for the operation. -/
theorem Faithful.create (faithful : s.Faithful) {plugin : String} {pattern : Pattern}
    {transposed : Bool} {op : Solve}
    (created : Solve.create (.builtIn id) plugin pattern transposed s = .ok (op, t)) :
    s.Extends t ∧ t.made op.cell = some (op.pattern, plugin) := by
  obtain ⟨square, rfl, b, found, rfl⟩ := Solve.create_cases created
  refine ⟨⟨fun c member => ?_, fun k m old => ?_⟩, ?_⟩
  · rcases Array.mem_push.mp member with old | rfl
    · exact faithful c old
    · exact ⟨b, found, square, Slot.faithful_new (renewed_create found), rfl, fun v h => by cases h⟩
  · obtain ⟨c, found, rfl⟩ := Option.map_eq_some_iff.mp old
    have inside := (Array.getElem?_eq_some_iff.mp found).1
    simp only [made, Array.getElem?_push_lt inside]
    rw [← Array.getElem?_eq_getElem inside, found]
    rfl
  · simp only [made, Array.getElem?_push_size]
    rfl

end Extends

/-- A cell replaced by one that was made for the same. -/
theorem Faithful.set [Scalar α] {s : Store α (BuiltIn α) ω} (faithful : s.Faithful) {k : Nat}
    {c c' : SolveCell α (BuiltIn α)} {b : BuiltIn α} (held : s.cells[k]? = some c)
    (created : (Catalogue.builtIn id).create c.solver.plugin (.default : Options α) = .ok b)
    (here : c'.Faithful b c.solver.pattern) (same : c'.made = c.made) (w : ω) :
    s.Extends ⟨s.cells.setIfInBounds k c', w⟩ where
  faithful d member := by
    rcases Array.mem_or_eq_of_mem_setIfInBounds member with old | rfl
    · exact faithful d old
    · obtain ⟨pattern, plugin⟩ := Prod.mk.inj same
      exact ⟨b, plugin.symm ▸ created, pattern.symm ▸ here⟩
  made j m old := by
    obtain ⟨d, found, rfl⟩ := Option.map_eq_some_iff.mp old
    by_cases this : k = j
    · subst this
      cases held.symm.trans found
      have inside := (Array.getElem?_eq_some_iff.mp held).1
      simp [made, inside, same]
    · simp [made, Array.getElem?_setIfInBounds_ne this, found]

end Store

/-! ### Solves -/

namespace Solve

variable [Scalar α] {op : Solve} {b : BuiltIn α} {plugin : String} {s t : Store α (BuiltIn α) ω}

/-- What a solve operation answers with a new backend. -/
def answer (op : Solve) (b : BuiltIn α) (a rhs : DenseMatrix α) (opposite : Bool) :
    Except Error (DenseMatrix α) := do
  let a ← SparseMatrix.project a op.pattern
  let b ← b.factored a
  b.answer op.pattern.nrows (op.transposed != opposite) rhs

/-- What a cell was asked before does not show in what it answers, and it stays what it became of a new
backend. -/
theorem solveWith_held [ExactEq α] {c : SolveCell α (BuiltIn α)} (held : s.cells[op.cell]? = some c)
    (faithful : c.Faithful b op.pattern) (a rhs : DenseMatrix α) (opposite : Bool) :
    (op.solveWith a rhs opposite s).1 = op.answer b a rhs opposite ∧
      ((op.solveWith a rhs opposite s).2 = s ∨ ∃ c' w, c'.Faithful b op.pattern ∧ c'.made = c.made ∧
        (op.solveWith a rhs opposite s).2 = ⟨s.cells.setIfInBounds op.cell c', w⟩) := by
  cases projected : SparseMatrix.project a op.pattern with
  | error e =>
    simp only [solveWith, answer, projected]
    exact ⟨rfl, .inl rfl⟩
  | ok m =>
    have whole : m.pattern = op.pattern := SparseMatrix.pattern_project projected
    rw [← whole] at faithful
    have found := SolveCell.post_solution_answer faithful rhs (op.transposed != opposite) s.world
    have ran : op.solveWith a rhs opposite s = Store.onCell op.cell
        (SolveCell.factorize m >>= fun _ => SolveCell.solution rhs (op.transposed != opposite)) s := by
      simp only [solveWith, projected]
      rfl
    have answered : op.answer b a rhs opposite =
        b.factored m >>= (·.answer m.pattern.nrows (op.transposed != opposite) rhs) := by
      simp only [answer, projected, whole]
      rfl
    rw [ran, answered, ← whole]
    simp only [Run.Post, Store.onCell, held] at found ⊢
    split at found
    · next x t ran =>
      rw [ran, found.1]
      exact ⟨rfl, .inr ⟨t.1, t.2, found.2.1, found.2.2, rfl⟩⟩
    · next e t ran =>
      rw [ran, found.1]
      exact ⟨rfl, .inr ⟨t.1, t.2, found.2.1, found.2.2, rfl⟩⟩

/-- The history of a cell does not show. -/
theorem solveWith_eq [ExactEq α] (later : s.Extends t)
    (made : s.made op.cell = some (op.pattern, plugin))
    (created : (Catalogue.builtIn id).create plugin (.default : Options α) = .ok b)
    (a rhs : DenseMatrix α) (opposite : Bool) :
    (op.solveWith a rhs opposite t).1 = op.answer b a rhs opposite ∧
      s.Extends (op.solveWith a rhs opposite t).2 := by
  obtain ⟨c, held, same⟩ := Option.map_eq_some_iff.mp (later.made _ _ made)
  obtain ⟨pattern, rfl⟩ := Prod.mk.inj same
  obtain ⟨b', created', faithful⟩ := later.faithful c (Array.mem_of_getElem? held)
  obtain rfl : b' = b := Except.ok.inj (created'.symm.trans created)
  obtain ⟨answered, after⟩ := solveWith_held held (pattern ▸ faithful) a rhs opposite
  refine ⟨answered, ?_⟩
  rcases after with unchanged | ⟨c', w, here, same, after⟩
  · rw [unchanged]
    exact later
  · rw [after]
    exact later.trans (later.faithful.set held created' (pattern ▸ here) same w)

theorem oblivious_solveWith [ExactEq α] (made : s.made op.cell = some (op.pattern, plugin))
    (a rhs : DenseMatrix α) (opposite : Bool) :
    (op.solveWith a rhs opposite).Oblivious s.Extends := by
  rintro t t' ⟨later, later'⟩
  obtain ⟨c, held, same⟩ := Option.map_eq_some_iff.mp (later.made _ _ made)
  obtain ⟨b, created, -⟩ := later.faithful c (Array.mem_of_getElem? held)
  obtain rfl : c.solver.plugin = plugin := congrArg Prod.snd same
  obtain ⟨first, kept⟩ := solveWith_eq later made created a rhs opposite
  obtain ⟨second, kept'⟩ := solveWith_eq later' made created a rhs opposite
  exact ⟨first.trans second.symm, kept, kept'⟩

/-- The state that a solve operation is called in does not show. -/
theorem oblivious [ExactEq α] (made : s.made op.cell = some (op.pattern, plugin)) :
    Operation.Oblivious s.Extends (op.operation : Operation α (Store α (BuiltIn α) ω)) where
  evaluate xs :=
    .bind (.ofExcept _) fun _ => .bind (.ofExcept _) fun a => .bind (.ofExcept _) fun b =>
      oblivious_solveWith made a b false
  forwardBatch xs y seeds := by
    refine .bind (.ofExcept _) fun _ => ?_
    by_cases nothing : seeds.isEmpty = true
    · rw [if_pos nothing]
      exact .pure []
    · rw [if_neg nothing]
      exact .bind (.ofExcept _) fun _ => .bind (.ofExcept _) fun rhs => .bind (.ofExcept _) fun a =>
        .bind (oblivious_solveWith made a rhs false) fun _ => .ofExcept _
  adjointBatch xs y seeds := by
    refine .bind (.ofExcept _) fun _ => ?_
    by_cases nothing : seeds.isEmpty = true
    · rw [if_pos nothing]
      exact .pure []
    · rw [if_neg nothing]
      exact .bind (.ofExcept _) fun rhs => .bind (.ofExcept _) fun a =>
        .bind (oblivious_solveWith made a rhs true) fun _ => .ofExcept _

end Solve

end Cotangent
