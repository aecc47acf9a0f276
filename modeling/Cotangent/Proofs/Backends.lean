import Cotangent.Proofs.Computation
import Cotangent.Solver.BuiltIn

/-! Factorizations answer. A factorization that is driven in order either has factors of the order
of its matrix or refuses with a reason, and factors of the right order solve any number of columns.
No call asks for an element that does not exist: for Cholesky this rests on the analysis, which numbers
the values of the very pattern that the values belong to. Nor does a call ask for a size that does not
exist, if there is room for a dense matrix on the pattern. -/
namespace Cotangent

variable {α β γ : Type}

/-! ### Outcomes with a reason -/

namespace Outcome

/-- A result with a property, or a refusal, which has a reason if there is room. -/
def Answered (room : Prop) (x : Except Error β) (P : β → Prop) : Prop :=
  (∀ b, x = .ok b → P b) ∧ (room → ∀ e, x = .error e → e.isFatal = false)

variable {room : Prop} {P : β → Prop} {Q : γ → Prop}

theorem answered_ok {b : β} (holds : P b) : Answered room (.ok b) P :=
  ⟨fun _ same => Except.ok.inj same ▸ holds, fun _ => nofun⟩

theorem answered_error {e : Error} (reason : room → e.isFatal = false) : Answered room (.error e) P :=
  ⟨nofun, fun enough _ same => Except.error.inj same ▸ reason enough⟩

theorem Answered.within {room' : Prop} {x : Except Error β} (h : Answered room x P)
    (more : room' → room) : Answered room' x P :=
  ⟨h.1, fun enough => h.2 (more enough)⟩

theorem Answered.bind {x : Except Error β} {f : β → Except Error γ} (h : Answered room x P)
    (next : ∀ b, P b → Answered room (f b) Q) : Answered room (x >>= f) Q := by
  cases x with
  | error e => exact answered_error fun enough => h.2 enough e rfl
  | ok b => exact next b (h.1 b rfl)

theorem answered_checkRoom (words : Nat) :
    Answered (words < wordLimit) (checkRoom words) fun _ => True :=
  ⟨fun _ _ => trivial, fun room e failed => by rw [checkRoom_of_lt room] at failed; cases failed⟩

theorem Answered.map {x : Except Error β} {f : β → γ} (h : Answered room x P)
    (next : ∀ b, P b → Q (f b)) : Answered room (f <$> x) Q :=
  h.bind fun b holds => answered_ok (next b holds)

theorem Answered.mapM {f : β → Except Error γ} {xs : List β}
    (each : ∀ x ∈ xs, Answered room (f x) Q) :
    Answered room (xs.mapM f) fun ys => ys.length = xs.length ∧ ∀ y ∈ ys, Q y := by
  induction xs with
  | nil => exact answered_ok ⟨rfl, nofun⟩
  | cons x xs ih =>
    rw [List.mapM_cons]
    refine (each x List.mem_cons_self).bind fun y holds => ?_
    refine (ih fun x' member => each x' (List.mem_cons_of_mem x member)).bind ?_
    rintro ys ⟨length, all⟩
    exact answered_ok ⟨by simp [length], List.forall_mem_cons.mpr ⟨holds, all⟩⟩

theorem Answered.foldlM {f : β → γ → Except Error β} {xs : List γ} {b : β} (start : P b)
    (step : ∀ b, P b → ∀ x ∈ xs, Answered room (f b x) P) : Answered room (xs.foldlM f b) P := by
  induction xs generalizing b with
  | nil => exact answered_ok start
  | cons x xs ih =>
    rw [List.foldlM_cons]
    refine (step b start x List.mem_cons_self).bind fun b' holds => ih holds ?_
    exact fun b holds x' member => step b holds x' (List.mem_cons_of_mem x member)

end Outcome

open Outcome

/-- A rejection keeps its reason, and any other refusal becomes one. -/
theorem Error.atStage_eq {e : Error} (reason : e.isFatal = false) (stage : Stage) :
    ∃ r, e.atStage stage = .factorization stage r := by
  cases e with
  | outOfRange | sizeOverflow => cases reason
  | _ => exact ⟨_, rfl⟩

/-! ### Positions of a pattern -/

namespace Pattern

variable {p : Pattern}

/-- A square pattern with room for a dense matrix has room for a matching. -/
theorem Roomy.partners (roomy : p.Roomy) (square : p.ncols = p.nrows) : 2 * p.nrows < wordLimit := by
  rw [Roomy, square] at roomy
  by_cases small : p.nrows < 2
  · have bound : 2 * p.nrows < 4 := by omega
    exact Nat.lt_of_lt_of_le bound (by decide)
  · exact Nat.lt_of_le_of_lt (Nat.mul_le_mul_right p.nrows (Nat.not_lt.mp small)) roomy

/-- A column ends where the next one starts, which is inside the pattern. -/
theorem offset_add_length_le (p : Pattern) {j : Nat} (inside : j < p.ncols) :
    p.offset j + (p.col j).length ≤ p.nnz := by
  have inside : j < p.columns.size := inside
  have next : p.columns.toList.take (j + 1) = p.columns.toList.take j ++ [p.col j] := by
    have read : p.col j = p.columns[j] := by
      rw [col, Array.getD, dif_pos inside]
      rfl
    rw [read, List.take_succ_eq_append_getElem (by simpa using inside), Array.getElem_toList]
  have total : p.columns.toList.flatten = (p.columns.toList.take (j + 1)).flatten ++
      (p.columns.toList.drop (j + 1)).flatten := by
    rw [← List.flatten_append, List.take_append_drop]
  rw [nnz, rowIndices, total, next]
  simp [offset, List.flatten_append]

theorem position?_lt {i j k : Nat} (found : p.position? i j = some k) : k < p.nnz := by
  obtain ⟨m, at_m, rfl⟩ := Option.map_eq_some_iff.mp found
  obtain ⟨short, -⟩ := List.findIdx?_eq_some_iff_getElem.mp at_m
  have inside : j < p.ncols := lt_ncols_of_mem_col (List.getElem_mem short)
  have bound := p.offset_add_length_le inside
  omega

theorem lt_of_mem_zipIdx_col {j : Nat} {cell : Nat × Nat}
    (member : cell ∈ (p.col j).zipIdx (p.offset j)) : cell.2 < p.nnz := by
  have row := List.fst_mem_of_mem_zipIdx member
  have bound := p.offset_add_length_le (lt_ncols_of_mem_col row)
  have last := List.snd_lt_add_of_mem_zipIdx member
  omega

theorem ofColumns_answers (nrows : Nat) (columns : List (List Nat)) :
    Answered True (ofColumns nrows columns) fun p => p.nrows = nrows := by
  have checked (rows : List Nat × Nat) : Answered True (checkColumn nrows rows.2 rows.1)
      fun _ => True := by
    unfold checkColumn
    split
    · exact answered_ok trivial
    · exact answered_error fun _ => rfl
  exact (Answered.mapM fun rows _ => checked rows).map fun _ _ => rfl

theorem invertibleOrder_answers (p : Pattern) :
    Answered p.Roomy p.invertibleOrder fun _ => True := by
  have order : Answered p.Roomy p.order fun _ => p.ncols = p.nrows := by
    unfold Pattern.order
    split
    · next square => exact answered_ok (beq_iff_eq.mp square).symm
    · exact answered_error fun _ => rfl
  refine order.bind fun n square => ?_
  rw [structuralRank?_of_square square]
  have enough : Answered p.Roomy (checkRoom (2 * p.nrows)) fun _ => True :=
    (answered_checkRoom _).within fun roomy => roomy.partners square
  refine (enough.map (Q := fun _ => True) fun _ _ => trivial).bind fun rank _ => ?_
  split
  · exact answered_error fun _ => rfl
  · exact answered_ok trivial

end Pattern

/-! ### Orders of factors -/

section Factors

variable [Scalar α]

theorem SparseMatrix.toDense?_answers (a : SparseMatrix α) :
    Answered a.pattern.Roomy a.toDense? fun m => m.nrows = a.nrows :=
  (answered_checkRoom _).map fun _ _ => rfl

theorem DenseLU.factorize_answers (options : Options α) (a : SparseMatrix α) :
    Answered a.pattern.Roomy (DenseLU.factorize options a) fun f => f.order = a.nrows := by
  refine a.toDense?_answers.bind fun m rows => ?_
  refine Answered.foldlM (P := fun f : DenseLU α => f.order = a.nrows) rows ?_
  intro f order k _
  unfold eliminate
  dsimp only
  split
  · exact answered_error fun _ => rfl
  · exact answered_ok order

theorem QR.order_reduce (f : QR α) (k : Nat) : (f.reduce k).order = f.order := by
  unfold reduce
  dsimp only
  split <;> rfl

theorem QR.factorize_answers (options : Options α) (a : SparseMatrix α) :
    Answered a.pattern.Roomy (QR.factorize options a) fun f => f.order = a.nrows := by
  refine a.toDense?_answers.bind fun m rows => ?_
  refine answered_ok (foldl_keeps (P := fun _ (f : QR α) => f.order = a.nrows) rows ?_)
  exact fun _ k _ f _ order => (f.order_reduce k).trans order

theorem SparseLU.post_eliminate_order (a : SparseMatrix α) (tolerance : α) (k n : Nat)
    (s : Partial α) (size : s.step.size = n) :
    Run.Post (eliminate a tolerance k) s (fun _ t => t.step.size = n)
      (fun e _ => e.isFatal = false) := by
  unfold Run.Post eliminate
  dsimp only
  split
  · next stopped =>
    split at stopped
    · cases stopped
    · cases stopped
      simpa using size
  · next stopped =>
    split at stopped
    · cases stopped
      rfl
    · cases stopped

/-- Values that are all there are as many as the places. -/
theorem length_of_mapM_id {xs : List (Option β)} {ys : List β} (all : xs.mapM id = some ys) :
    ys.length = xs.length := by
  induction xs generalizing ys with
  | nil =>
    cases all
    rfl
  | cons x xs ih =>
    simp only [List.mapM_cons, id, Option.bind_eq_bind, Option.pure_def, Option.bind_eq_some_iff,
      Option.some.injEq] at all
    obtain ⟨y, -, rest, others, rfl⟩ := all
    simp [ih others]

theorem SparseLU.factorize_answers (options : Options α) (a : SparseMatrix α) :
    Answered True (SparseLU.factorize options a) fun f => f.order = a.nrows := by
  have swept : Run.Post (columns options a) (Partial.start a.nrows)
      (fun _ t => t.step.size = a.nrows) (fun e _ => e.isFatal = false) := by
    refine Run.Post.forM (fun _ t => t.step.size = a.nrows) (by simp [Partial.start]) ?_
      fun _ size => size
    exact fun _ k s _ size => post_eliminate_order a _ k _ s size
  unfold factorize
  rcases ran : columns options a (Partial.start a.nrows) with ⟨e | _, s⟩
  · exact answered_error fun _ => swept.of_error ran
  · have size := swept.of_ok ran
    dsimp only
    cases known : s.step.mapM id with
    | none => exact answered_error fun _ => rfl
    | some step =>
      have listed : s.step.toList.mapM id = some step.toList := by
        rw [← Array.toList_mapM, known]
        rfl
      exact answered_ok ((length_of_mapM_id listed).trans size)

namespace Cholesky

/-- What an analysis says of its pattern: the order, and one number of a value of the pattern for
every position of the upper triangle. -/
structure Analysis.Describes (a : Analysis) (p : Pattern) : Prop where
  order : a.lower.nrows = p.nrows
  size_source : a.source.size = a.upper.nnz
  source_lt : ∀ number ∈ a.source, number < p.nnz

omit [Scalar α] in
theorem analyse_answers (p : Pattern) : Answered True (analyse p) fun a => a.Describes p := by
  have order : Answered True p.order fun n => n = p.nrows := by
    unfold Pattern.order
    split
    · exact answered_ok rfl
    · exact answered_error fun _ => rfl
  refine order.bind ?_
  rintro _ rfl
  dsimp only
  split
  · exact answered_error fun _ => rfl
  · refine (Answered.mapM (Q := fun number => number < p.nnz) fun cell _ => ?_).bind ?_
    · cases found : p.position? cell.2 cell.1 with
      | none => exact answered_error fun _ => rfl
      | some number => exact answered_ok (Pattern.position?_lt found)
    rintro source ⟨length, inside⟩
    refine (Pattern.ofColumns_answers _ _).bind ?_
    rintro lower rows
    exact answered_ok ⟨rows, by simpa using length.trans (Pattern.length_cells _),
      by simpa using inside⟩

omit [Scalar α] in
/-- The values that a row is loaded from are there. -/
theorem load_answers {a : Analysis} {p : Pattern} (describes : a.Describes p) {values : Array α}
    (size : values.size = p.nnz) (k : Nat) (work : Array α) :
    Answered True (load a values k work) fun _ => True := by
  refine Answered.foldlM trivial ?_
  rintro work - cell member
  have inside : cell.2 < a.source.size := by
    rw [describes.size_source]
    exact Pattern.lt_of_mem_zipIdx_col member
  have read : a.source.getD cell.2 values.size = a.source[cell.2] := by
    rw [Array.getD, dif_pos inside]
    rfl
  have known : a.source[cell.2] < values.size := by
    rw [size]
    exact describes.source_lt _ (Array.getElem_mem inside)
  dsimp only
  rw [read, Array.getElem?_eq_getElem known]
  exact answered_ok trivial

theorem factorize_answers {a : Analysis} {p : Pattern} (describes : a.Describes p)
    {values : Array α} (size : values.size = p.nnz) (options : Options α) :
    Answered True (factorize options a values) fun l => l.nrows = p.nrows := by
  have row (tolerance : α) (k : Nat) (s : Partial α) :
      Run.Post (factorRow a values tolerance k) s (fun _ _ => True)
        (fun e _ => e.isFatal = false) := by
    have loaded := load_answers describes size k s.work
    unfold Run.Post factorRow
    dsimp only
    cases found : load a values k s.work with
    | error e => exact loaded.2 trivial e found
    | ok work =>
      dsimp only
      split
      · trivial
      · next stopped =>
        split at stopped
        · cases stopped
          rfl
        · cases stopped
  have swept : Run.Post ((List.range a.lower.ncols).forM
      (factorRow a values (Factor.pivotTolerance options.pivotThreshold values)))
      (Partial.start a) (fun _ _ => True) (fun e _ => e.isFatal = false) :=
    Run.Post.forM (fun _ _ => True) trivial (fun _ k s _ _ => row _ k s) fun _ _ => trivial
  unfold factorize
  dsimp only
  split
  · next e _ ran => exact answered_error fun _ => swept.of_error ran
  · dsimp only [SparseMatrix.ofValues]
    split
    · exact answered_ok describes.order
    · exact answered_error fun _ => rfl

end Cholesky

end Factors

/-! ### The four backends -/

namespace BuiltIn

variable [Scalar α] {p : Pattern} {n : Nat} {b : BuiltIn α}

/-- The backend has analysed a pattern. Only Cholesky keeps more of it than the order. -/
inductive Analysed (p : Pattern) : BuiltIn α → Prop
  | denseLU (s : Staged α (DenseLU α)) : Analysed p (.denseLU s)
  | sparseLU (s : Staged α (SparseLU α)) : Analysed p (.sparseLU s)
  | qr (s : Staged α (QR α)) : Analysed p (.qr s)
  | cholesky {s : Cholesky α} {a : Cholesky.Analysis} (held : s.analysis = some a)
      (describes : a.Describes p) : Analysed p (.cholesky s)

/-- The backend has factors of an order. -/
inductive Factored (n : Nat) : BuiltIn α → Prop
  | denseLU {s : Staged α (DenseLU α)} {f : DenseLU α} (held : s.factors = some f)
      (order : f.order = n) : Factored n (.denseLU s)
  | sparseLU {s : Staged α (SparseLU α)} {f : SparseLU α} (held : s.factors = some f)
      (order : f.order = n) : Factored n (.sparseLU s)
  | qr {s : Staged α (QR α)} {f : QR α} (held : s.factors = some f)
      (order : f.order = n) : Factored n (.qr s)
  | cholesky {s : Cholesky α} {l : SparseMatrix α} (held : s.factor = some l)
      (order : l.nrows = n) : Factored n (.cholesky s)

omit [Scalar α] in
theorem accept_answers (order : Option Nat) (p : Pattern) (values : Array α) :
    Answered True (Factor.accept order p values) fun a => a.pattern = p ∧ a.values = values := by
  unfold Factor.accept
  split
  · exact answered_error fun _ => rfl
  · split
    · exact answered_error fun _ => rfl
    · unfold SparseMatrix.ofValues
      split
      · exact answered_ok ⟨rfl, rfl⟩
      · exact answered_error fun _ => rfl

omit [Scalar α] in
theorem post_staged {φ : Type} {order : φ → Nat}
    {factorize : Options α → SparseMatrix α → Except Error φ}
    (answers : ∀ options (a : SparseMatrix α),
      Answered a.pattern.Roomy (factorize options a) fun f => order f = a.nrows)
    (p : Pattern) (values : Array α) (s : Staged α φ) :
    Run.Post (Staged.numeric factorize p values) s
      (fun _ t => ∃ f, t.factors = some f ∧ order f = p.nrows)
      (fun e _ => p.Roomy → e.isFatal = false) := by
  have outcome : Answered p.Roomy (Factor.accept s.order p values >>= factorize s.options)
      fun f => order f = p.nrows := by
    refine ((accept_answers s.order p values).within fun _ => trivial).bind ?_
    rintro a ⟨rfl, -⟩
    exact answers s.options a
  unfold Run.Post Staged.numeric
  cases decided : Factor.accept s.order p values >>= factorize s.options with
  | ok f => exact ⟨f, rfl, outcome.1 f decided⟩
  | error e => exact fun roomy => outcome.2 roomy e decided

omit [Scalar α] in
/-- A step on the state of one kind of backend is a step of that backend. -/
theorem post_step {σ : Type} {wrap : σ → BuiltIn α} {act : Run σ Unit} {s : σ}
    {done : Unit → σ → Prop} {failed : Error → σ → Prop} {done' : Unit → BuiltIn α → Prop}
    {failed' : Error → BuiltIn α → Prop} (h : Run.Post act s done failed)
    (hd : ∀ t, done () t → done' () (wrap t)) (hf : ∀ e t, failed e t → failed' e (wrap t)) :
    Run.Post (fun _ => step wrap act s) (wrap s) done' failed' := by
  unfold Run.Post step
  rcases ran : act s with ⟨e | _, t⟩
  · exact hf e t (h.of_error ran)
  · exact hd t (h.of_ok ran)

omit [Scalar α] in
theorem post_stagedSymbolic {φ : Type} (p : Pattern) (s : Staged α φ) :
    Run.Post (Staged.symbolic p) s (fun _ _ => True) (fun e _ => p.Roomy → e.isFatal = false) := by
  unfold Run.Post Staged.symbolic
  cases decided : p.invertibleOrder with
  | ok n => trivial
  | error e => exact fun roomy => p.invertibleOrder_answers.2 roomy e decided

omit [Scalar α] in
theorem post_symbolic (p : Pattern) (b : BuiltIn α) :
    Run.Post (symbolic p) b (fun _ b => b.Analysed p) (fun e _ => p.Roomy → e.isFatal = false) := by
  cases b with
  | denseLU s =>
    exact post_step (post_stagedSymbolic p s) (fun t _ => .denseLU t) fun _ _ reason => reason
  | sparseLU s =>
    exact post_step (post_stagedSymbolic p s) (fun t _ => .sparseLU t) fun _ _ reason => reason
  | qr s =>
    exact post_step (post_stagedSymbolic p s) (fun t _ => .qr t) fun _ _ reason => reason
  | cholesky s =>
    have analysed : Run.Post (Cholesky.symbolic p) s
        (fun _ t => ∃ a, t.analysis = some a ∧ a.Describes p) (fun e _ => e.isFatal = false) := by
      unfold Run.Post Cholesky.symbolic
      cases decided : Cholesky.analyse p with
      | ok a => exact ⟨a, rfl, (Cholesky.analyse_answers p).1 a decided⟩
      | error e => exact (Cholesky.analyse_answers p).2 trivial e decided
    refine post_step analysed ?_ fun _ _ reason _ => reason
    rintro t ⟨a, held, describes⟩
    exact .cholesky held describes

theorem post_numeric {values : Array α} (analysed : b.Analysed p) (size : values.size = p.nnz) :
    Run.Post (numeric p values) b (fun _ b => b.Analysed p ∧ b.Factored p.nrows)
      (fun e b => (p.Roomy → e.isFatal = false) ∧ b.Analysed p) := by
  cases analysed with
  | denseLU s =>
    refine post_step (post_staged DenseLU.factorize_answers p values s) ?_ ?_
    · rintro t ⟨f, held, order⟩
      exact ⟨.denseLU t, .denseLU held order⟩
    · exact fun _ t reason => ⟨reason, .denseLU t⟩
  | sparseLU s =>
    refine post_step (post_staged (fun options a =>
      (SparseLU.factorize_answers options a).within fun _ => trivial) p values s) ?_ ?_
    · rintro t ⟨f, held, order⟩
      exact ⟨.sparseLU t, .sparseLU held order⟩
    · exact fun _ t reason => ⟨reason, .sparseLU t⟩
  | qr s =>
    refine post_step (post_staged QR.factorize_answers p values s) ?_ ?_
    · rintro t ⟨f, held, order⟩
      exact ⟨.qr t, .qr held order⟩
    · exact fun _ t reason => ⟨reason, .qr t⟩
  | @cholesky s a held describes =>
    have factored : Run.Post (Cholesky.numeric p values) s
        (fun _ t => t.analysis = some a ∧ ∃ l, t.factor = some l ∧ l.nrows = p.nrows)
        (fun e t => e.isFatal = false ∧ t.analysis = some a) := by
      have outcome : Answered True (do
          let m ← Factor.accept (s.analysis.map fun (q : Cholesky.Analysis) => q.lower.ncols) p
            values
          Cholesky.factorize s.options a m.values) fun l => l.nrows = p.nrows := by
        refine (accept_answers _ p values).bind ?_
        rintro m ⟨-, same⟩
        exact Cholesky.factorize_answers describes (same ▸ size) s.options
      unfold Run.Post Cholesky.numeric
      simp only [held] at outcome ⊢
      split
      · next stopped =>
        split at stopped
        · next l decided =>
          cases stopped
          exact ⟨rfl, l, rfl, outcome.1 l decided⟩
        · cases stopped
      · next stopped =>
        split at stopped
        · cases stopped
        · next decided =>
          cases stopped
          exact ⟨outcome.2 trivial _ decided, rfl⟩
    refine post_step factored ?_ ?_
    · rintro t ⟨held, l, kept, order⟩
      exact ⟨.cholesky held describes, .cholesky kept order⟩
    · rintro e t ⟨reason, held⟩
      exact ⟨fun _ => reason, .cholesky held describes⟩

theorem eachColumn_answers {m nrhs : Nat} (size : m = n * nrhs) (rule : Array α → Array α)
    (rhs : Vector α m) : Answered True (Factor.eachColumn n nrhs rule rhs) fun _ => True := by
  rw [Factor.eachColumn, if_pos size]
  exact answered_ok trivial

theorem solve_answers (factored : b.Factored n) {m nrhs : Nat} (size : m = n * nrhs)
    (transposed : Bool) (rhs : Vector α m) :
    Answered True (b.solve nrhs transposed rhs) fun _ => True := by
  cases factored with
  | denseLU held order =>
    simp only [solve, Staged.current, held, Outcome.ok_bind, DenseLU.solve, order]
    exact eachColumn_answers size _ rhs
  | sparseLU held order =>
    simp only [solve, Staged.current, held, Outcome.ok_bind, SparseLU.solve, order]
    exact eachColumn_answers size _ rhs
  | qr held order =>
    simp only [solve, Staged.current, held, Outcome.ok_bind, QR.solve, order]
    refine (eachColumn_answers size _ rhs).bind fun x _ => ?_
    split
    · exact answered_error fun _ => rfl
    · exact answered_ok trivial
  | cholesky held order =>
    simp only [solve, Cholesky.solve, Cholesky.current, held, Outcome.ok_bind, order]
    exact eachColumn_answers size _ rhs

end BuiltIn

/-- Values are accepted on a square pattern only. -/
theorem Factor.square_of_accept {order : Option Nat} {p : Pattern} {values : Array α}
    {m : SparseMatrix α} (accepted : accept order p values = .ok m) : p.ncols = p.nrows := by
  unfold accept at accepted
  split at accepted
  · cases accepted
  · split at accepted
    · cases accepted
    · next order => omega

/-- Values are accepted on a square pattern only, and then the factorization decides. -/
theorem Staged.exists_of_numeric {φ : Type} {factorize : Options α → SparseMatrix α → Except Error φ}
    {p : Pattern} {values : Array α} {s t : Staged α φ}
    (ran : numeric factorize p values s = (.ok (), t)) : p.ncols = p.nrows ∧
      ∃ m : SparseMatrix α, m.pattern = p ∧ m.values = values ∧
        ∃ f, factorize s.options m = .ok f ∧ t = { s with factors := some f } := by
  unfold numeric at ran
  cases accepted : Factor.accept s.order p values with
  | error e =>
    rw [accepted] at ran
    cases ran
  | ok m =>
    obtain ⟨pattern, same⟩ := (BuiltIn.accept_answers s.order p values).1 m accepted
    rw [accepted, Outcome.ok_bind] at ran
    cases done : factorize s.options m with
    | error e =>
      rw [done] at ran
      cases ran
    | ok f =>
      rw [done] at ran
      cases ran
      exact ⟨Factor.square_of_accept accepted, m, pattern, same, f, done, rfl⟩

end Cotangent
