import Cotangent.Solver.Slot
import Cotangent.Proofs.Computation

/-! The promised order of calls. A recording stands between a slot and its backend, whatever the backend
answers: it passes every call on and writes it down. The record shows that values come after a
successful analysis of their own pattern and that everything that needs factors comes while there are
factors. Taking notes changes nothing else. -/
namespace Cotangent

variable {α β ω γ : Type}

/-! ### Requests -/

/-- What a slot can be asked for. -/
inductive Request (α : Type) where
  | symbolic (p : Pattern)
  | numeric (a : SparseMatrix α)
  | solve (rhs : DenseMatrix α) (transposed : Bool)
  | rank
  | nullity
  | negativeEigenvalues
  | cholesky (transposed : Bool)
  | choleskyPattern (transposed : Bool)
  | solveCholesky (rhs : DenseMatrix α) (transposed : Bool)

namespace Slot

/-- A question that a slot answers without a change of its own. -/
def ask (question : Slot β → Run ω γ) : Run (Slot β × ω) Unit := fun (s, w) =>
  let (outcome, w) := question s w
  (outcome.map fun _ => (), (s, w))

/-- A solve of a right-hand side of its own. -/
def solved (rhs : DenseMatrix α) (act : Run (DenseMatrix α × ω) Unit) : Run ω (DenseMatrix α) :=
  fun w =>
    let (outcome, (x, w)) := act (rhs, w)
    (outcome.map fun _ => x, w)

variable [Backend α ω β]

/-- The request carried out. -/
def request : Request α → Run (Slot β × ω) Unit
  | .symbolic p => symbolicFactorize p
  | .numeric a => numericFactorize a
  | .solve rhs transposed => ask fun s => solved rhs (s.solve transposed)
  | .rank => ask rank
  | .nullity => ask nullity
  | .negativeEigenvalues => ask negativeEigenvalues
  | .cholesky transposed => ask fun s => s.cholesky transposed
  | .choleskyPattern transposed => ask fun s => s.choleskyPattern transposed
  | .solveCholesky rhs transposed => ask fun s => solved rhs (s.solveCholesky transposed)

/-- The slot and the world after requests one after another, whether or not they succeed. -/
def after (requests : List (Request α)) (t : Slot β × ω) : Slot β × ω :=
  requests.foldl (fun t r => (request r t).2) t

end Slot

/-! ### Records -/

/-- A call that a backend receives. -/
inductive Received (α : Type) where
  | symbolic (p : Pattern) (succeeded : Bool)
  | numeric (p : Pattern) (values : Array α) (succeeded : Bool)
  /-- A right-hand side of this length. -/
  | solve (length nrhs : Nat)
  | rank
  | negativeEigenvalues
  | cholesky
  | choleskyPattern
  | solveCholesky (length nrhs : Nat)

namespace Received

def isSymbolic : Received α → Bool
  | symbolic .. => true
  | _ => false

/-- Analysis and values change what a backend has. -/
def isStage : Received α → Bool
  | symbolic .. | numeric .. => true
  | _ => false

/-- The last call but questions was a success with values on the pattern. -/
def HasFactors (earlier : List (Received α)) (p : Pattern) : Prop :=
  ∃ values, earlier.find? isStage = some (.numeric p values true)

/-- What may be received after the earlier calls, the latest first. -/
def Allowed (earlier : List (Received α)) : Received α → Prop
  | symbolic p _ => p.isSquare = true
  | numeric p values _ => earlier.find? isSymbolic = some (.symbolic p true) ∧
      values.size = p.nnz ∧ p.isSquare = true
  | solve length nrhs | solveCholesky length nrhs =>
      ∃ p, HasFactors earlier p ∧ length = p.nrows * nrhs
  | rank | negativeEigenvalues | cholesky | choleskyPattern => ∃ p, HasFactors earlier p

/-- Every call of a record was allowed when it was made. -/
def Orderly : List (Received α) → Prop
  | [] => True
  | call :: earlier => Allowed earlier call ∧ Orderly earlier

end Received

/-- A backend whose calls are written down. -/
structure Recorded (β : Type) where
  backend : β

namespace Recorded

/-- A call passed on to the backend and written down with its success. -/
def stage (call : Bool → Received α) (act : Run (β × ω) Unit) :
    Run (Recorded β × (List (Received α) × ω)) Unit := fun (b, (record, w)) =>
  let (outcome, (c, w)) := act (b.backend, w)
  (outcome, (⟨c⟩, (call outcome.isOk :: record, w)))

/-- A question passed on to the backend and written down. -/
def question (call : Received α) (act : Run ω γ) : Run (List (Received α) × ω) γ :=
  fun (record, w) =>
    let (outcome, w) := act w
    (outcome, (call :: record, w))

/-- A change of data passed on to the backend and written down. -/
def change {σ : Type} (call : Received α) (act : Run (σ × ω) Unit) :
    Run (σ × (List (Received α) × ω)) Unit := fun (x, (record, w)) =>
  let (outcome, (x, w)) := act (x, w)
  (outcome, (x, (call :: record, w)))

instance [Backend α ω β] : Backend α (List (Received α) × ω) (Recorded β) where
  name b := Backend.name ω b.backend
  symbolic p := stage (.symbolic p) (Backend.symbolic p)
  numeric p values := stage (.numeric p values) (Backend.numeric p values)
  solve {m} b nrhs transposed := change (.solve m nrhs) (Backend.solve b.backend nrhs transposed)
  rank b := question .rank (Backend.rank b.backend)
  supportsCholesky b := Backend.supportsCholesky ω b.backend
  cholesky b transposed := question .cholesky (Backend.cholesky b.backend transposed)
  choleskyPattern b transposed :=
    question .choleskyPattern (Backend.choleskyPattern b.backend transposed)
  solveCholesky {m} b nrhs transposed :=
    change (.solveCholesky m nrhs) (Backend.solveCholesky b.backend nrhs transposed)
  negativeEigenvalues b := question .negativeEigenvalues (Backend.negativeEigenvalues b.backend)

end Recorded

namespace Slot

open Received

/-- What the record says of a slot. -/
structure Tracked (s : Slot (Recorded β)) (record : List (Received α)) : Prop where
  orderly : Orderly record
  analysed : s.phase ≠ .unfactored →
    record.find? isSymbolic = some (.symbolic s.pattern true) ∧ s.pattern.isSquare = true
  factored : s.phase = .factored → HasFactors record s.pattern

variable [Backend α ω β] {s : Slot (Recorded β)} {record : List (Received α)} {w : ω}

/-- A step of a record without a stage: nothing is received, or a question that is allowed. -/
def Passed (record record' : List (Received α)) : Prop :=
  record' = record ∨ ∃ call, record' = call :: record ∧ Allowed record call ∧ call.isStage = false

omit [Backend α ω β] in
/-- A question leaves a slot as it is and what the record says of it. -/
theorem Tracked.passed {record' : List (Received α)} (tracked : s.Tracked record)
    (passed : Passed record record') : s.Tracked record' := by
  rcases passed with rfl | ⟨call, rfl, allowed, question⟩
  · exact tracked
  have other : call.isSymbolic = false := by
    cases call with
    | symbolic => cases question
    | _ => rfl
  constructor
  case orderly => exact ⟨allowed, tracked.orderly⟩
  case analysed =>
    intro phase
    rw [List.find?_cons_of_neg (by simp [other])]
    exact tracked.analysed phase
  case factored =>
    intro phase
    obtain ⟨values, last⟩ := tracked.factored phase
    exact ⟨values, by rwa [List.find?_cons_of_neg (by simp [question])]⟩

omit [Backend α ω β] in
theorem requireFactors_eq_ok : s.requireFactors = .ok () ↔ s.phase = .factored := by
  unfold requireFactors
  split <;> simp_all

/-- The Cholesky operations need factors, too. -/
theorem phase_of_requireCholesky
    (accepted : s.requireCholesky (List (Received α) × ω) = .ok ()) : s.phase = .factored := by
  obtain ⟨_, ready, -⟩ := Outcome.bind_eq_ok.mp accepted
  exact requireFactors_eq_ok.mp ready

omit [Backend α ω β] in
/-- A check before a step. -/
theorem after_check {σ : Type} {check : Except Error Unit} {next : Run σ γ} {t : σ} {P : σ → Prop}
    (start : P t) (passed : check = .ok () → P (next t).2) :
    P ((Run.ofExcept check >>= fun _ => next) t).2 := by
  cases check with
  | error e => exact start
  | ok u => exact passed rfl

omit [Backend α ω β] in
/-- A slot with factors may pass on a question. -/
theorem Tracked.passed_question (tracked : s.Tracked record) {check : Except Error Unit}
    (ready : check = .ok () → s.phase = .factored) (call : Received α)
    (allowed : ∀ p, HasFactors record p → Allowed record call) (question : call.isStage = false)
    (act : Run ω γ) :
    Passed record
      ((Run.ofExcept check >>= fun _ => Recorded.question call act) (record, w)).2.1 :=
  after_check (P := fun t : List (Received α) × ω => Passed record t.1) (.inl rfl) fun accepted =>
    .inr ⟨call, rfl, allowed _ (tracked.factored (ready accepted)), question⟩

omit [Backend α ω β] in
/-- A slot with factors may pass on right-hand sides with as many rows as its pattern. -/
theorem Tracked.passed_columns (tracked : s.Tracked record) {check : Except Error Unit}
    (ready : check = .ok () → s.phase = .factored) (call : Nat → Nat → Received α)
    (allowed : ∀ p nrhs, HasFactors record p → Allowed record (call (p.nrows * nrhs) nrhs))
    (question : ∀ length nrhs, (call length nrhs).isStage = false)
    (act : (nrhs : Nat) → {m : Nat} → Run (Vector α m × ω) Unit) (rhs : DenseMatrix α) :
    Passed record ((do
      Run.ofExcept check
      Run.ofExcept (s.checkRows (← get).1)
      onColumns fun nrhs {m} => Recorded.change (call m nrhs) (act nrhs) :
      Run (DenseMatrix α × (List (Received α) × ω)) Unit) (rhs, (record, w))).2.2.1 := by
  refine after_check (P := fun t : DenseMatrix α × (List (Received α) × ω) => Passed record t.2.1)
    (.inl rfl) fun accepted => ?_
  change Passed record ((Run.ofExcept (s.checkRows rhs) >>= fun _ =>
    onColumns fun nrhs {m} => Recorded.change (call m nrhs) (act nrhs) :
    Run (DenseMatrix α × (List (Received α) × ω)) Unit) (rhs, (record, w))).2.2.1
  refine after_check (P := fun t : DenseMatrix α × (List (Received α) × ω) => Passed record t.2.1)
    (.inl rfl) fun fits => ?_
  have rows : rhs.nrows = s.pattern.nrows := by
    by_contra other
    rw [checkRows, if_neg other] at fits
    cases fits
  have asked := allowed _ rhs.ncols (tracked.factored (ready accepted))
  rw [← rows] at asked
  change Passed record ((if rhs.ncols = 0 then pure () else Run.mapError (.atStage .solve)
    (Run.onData fun {m} => Recorded.change (call m rhs.ncols) (act rhs.ncols)) :
    Run (DenseMatrix α × (List (Received α) × ω)) Unit) (rhs, (record, w))).2.2.1
  split
  · exact .inl rfl
  · exact .inr ⟨_, rfl, asked, question _ _⟩

/-- An analysis is received for a square pattern only, and then it is the last stage. -/
theorem Tracked.symbolicFactorize (tracked : s.Tracked record) (p : Pattern) :
    Run.Post (Slot.symbolicFactorize p) (s, (record, w))
      (fun _ t => t.1.Tracked t.2.1 ∧ t.1.phase = .analysed ∧ t.1.pattern = p)
      fun _ t => t.1.Tracked t.2.1 := by
  unfold Run.Post Slot.symbolicFactorize
  by_cases square : p.isSquare = true
  · simp only [if_pos square, Backend.symbolic, Recorded.stage]
    rcases (Backend.symbolic p : Run (β × ω) Unit) (s.backend.backend, w) with ⟨e | _, b, w'⟩
    · exact ⟨⟨square, tracked.orderly⟩, fun phase => absurd rfl phase, fun phase => by cases phase⟩
    · refine ⟨⟨⟨square, tracked.orderly⟩, fun _ => ⟨rfl, square⟩, fun phase => ?_⟩, rfl, rfl⟩
      cases phase
  · simp only [if_neg square]
    exact ⟨tracked.orderly, fun phase => absurd rfl phase, fun phase => by cases phase⟩

/-- Values for an analysed pattern are received after the analysis. -/
theorem Tracked.factorValues (tracked : s.Tracked record) (phase : s.phase ≠ .unfactored)
    {values : Array α} (size : values.size = s.pattern.nnz) :
    Run.Post (Slot.factorValues values) (s, (record, w)) (fun _ t => t.1.Tracked t.2.1)
      fun _ t => t.1.Tracked t.2.1 := by
  obtain ⟨last, square⟩ := tracked.analysed phase
  simp only [Run.Post, Slot.factorValues, Backend.numeric, Recorded.stage]
  rcases (Backend.numeric s.pattern values : Run (β × ω) Unit) (s.backend.backend, w)
    with ⟨e | _, b, w'⟩
  · refine ⟨⟨⟨last, size, square⟩, tracked.orderly⟩, fun _ => ⟨last, square⟩, fun phase => ?_⟩
    cases phase
  · exact ⟨⟨⟨last, size, square⟩, tracked.orderly⟩, fun _ => ⟨last, square⟩, fun _ => ⟨values, rfl⟩⟩

/-- The pattern of a matrix is analysed first if it is not the analysed one. -/
theorem Tracked.numericFactorize (tracked : s.Tracked record) (a : SparseMatrix α) :
    Run.Post (Slot.numericFactorize a) (s, (record, w)) (fun _ t => t.1.Tracked t.2.1)
      fun _ t => t.1.Tracked t.2.1 := by
  have values (t : Slot (Recorded β) × (List (Received α) × ω)) (tracked : t.1.Tracked t.2.1)
      (phase : t.1.phase ≠ .unfactored) (pattern : t.1.pattern = a.pattern) :
      Run.Post (Slot.factorValues a.values) t (fun _ t => t.1.Tracked t.2.1)
        fun _ t => t.1.Tracked t.2.1 :=
    tracked.factorValues phase (a.size_values.trans (congrArg Pattern.nnz pattern.symm))
  change Run.Post (if s.phase = .unfactored ∨ a.pattern ≠ s.pattern then
      Slot.symbolicFactorize a.pattern >>= fun _ => Slot.factorValues a.values
    else Slot.factorValues a.values) (s, (record, w)) _ _
  split
  · refine (tracked.symbolicFactorize a.pattern).bind ?_
    rintro _ t ⟨tracked, phase, pattern⟩
    exact values t tracked (by simp [phase]) pattern
  · next usable =>
    obtain ⟨phase, pattern⟩ := not_or.mp usable
    exact values _ tracked phase (not_not.mp pattern).symm

/-- A request leaves a slot with a record of it. -/
theorem Tracked.request (tracked : s.Tracked record) (r : Request α) :
    (Slot.request r (s, (record, w))).2.1.Tracked (Slot.request r (s, (record, w))).2.2.1 := by
  have factors := requireFactors_eq_ok (s := s)
  cases r with
  | symbolic p => exact ((tracked.symbolicFactorize p).imp (fun _ _ h => h.1) fun _ _ h => h).always
  | numeric a => exact (tracked.numericFactorize a).always
  | solve rhs transposed =>
    exact tracked.passed (tracked.passed_columns factors.mp .solve
      (fun p nrhs ready => ⟨p, ready, rfl⟩) (fun _ _ => rfl)
      (fun nrhs => Backend.solve s.backend.backend nrhs transposed) rhs)
  | rank =>
    exact tracked.passed (tracked.passed_question factors.mp .rank (fun p ready => ⟨p, ready⟩) rfl _)
  | nullity =>
    refine tracked.passed ?_
    change Passed record ((nullity s : Run (List (Received α) × ω) Nat) (record, w)).2.1
    rw [nullity, Run.after_last]
    exact tracked.passed_question factors.mp .rank (fun p ready => ⟨p, ready⟩) rfl _
  | negativeEigenvalues =>
    exact tracked.passed (tracked.passed_question factors.mp .negativeEigenvalues
      (fun p ready => ⟨p, ready⟩) rfl _)
  | cholesky transposed =>
    exact tracked.passed (tracked.passed_question phase_of_requireCholesky .cholesky
      (fun p ready => ⟨p, ready⟩) rfl _)
  | choleskyPattern transposed =>
    exact tracked.passed (tracked.passed_question phase_of_requireCholesky .choleskyPattern
      (fun p ready => ⟨p, ready⟩) rfl _)
  | solveCholesky rhs transposed =>
    exact tracked.passed (tracked.passed_columns phase_of_requireCholesky .solveCholesky
      (fun p nrhs ready => ⟨p, ready, rfl⟩) (fun _ _ => rfl)
      (fun nrhs => Backend.solveCholesky s.backend.backend nrhs transposed) rhs)

end Slot

/-! ### Taking notes -/

/-- Seen through a view of the state, a computation is another one. -/
def Run.Mirrors {σ τ : Type} (view : σ → τ) (act : Run σ γ) (act' : Run τ γ) : Prop :=
  ∀ s, act' (view s) = ((act s).1, view (act s).2)

namespace Run.Mirrors

variable {σ τ δ : Type} {view : σ → τ}

theorem ofExcept (outcome : Except Error γ) :
    Mirrors view (Run.ofExcept outcome) (Run.ofExcept outcome) :=
  fun _ => rfl

theorem bind {act : Run σ γ} {act' : Run τ γ} {next : γ → Run σ δ} {next' : γ → Run τ δ}
    (first : Mirrors view act act') (later : ∀ x, Mirrors view (next x) (next' x)) :
    Mirrors view (act >>= next) (act' >>= next') := by
  intro s
  rw [bind_apply, bind_apply, first s]
  rcases act s with ⟨e | x, t⟩
  · rfl
  · exact later x t

theorem mapError {act : Run σ γ} {act' : Run τ γ} (same : Mirrors view act act')
    (change : Error → Error) : Mirrors view (act.mapError change) (act'.mapError change) := by
  intro s
  simp only [Run.mapError, same s]
  rfl

theorem ofGet {next : σ → Run σ γ} {next' : τ → Run τ γ}
    (same : ∀ s, next' (view s) (view s) = ((next s s).1, view (next s s).2)) :
    Mirrors view (get >>= next) (get >>= next') :=
  same

end Run.Mirrors

namespace Slot

variable [Backend α ω β]

/-- The slot without the record. -/
def plain (s : Slot (Recorded β)) : Slot β := ⟨s.backend.backend, s.pattern, s.phase⟩

/-- The data without the record. -/
def unnoted {σ : Type} (t : σ × (List (Received α) × ω)) : σ × ω := (t.1, t.2.2)

/-- The slot and the world without the record. -/
def unrecorded (t : Slot (Recorded β) × (List (Received α) × ω)) : Slot β × ω := (t.1.plain, t.2.2)

omit [Backend α ω β] in
theorem mirrors_ask {question : Slot (Recorded β) → Run (List (Received α) × ω) γ}
    {question' : Slot β → Run ω γ}
    (same : ∀ s, Run.Mirrors Prod.snd (question s) (question' s.plain)) :
    Run.Mirrors unrecorded (ask question) (ask question') := by
  rintro ⟨s, t⟩
  simp only [ask, unrecorded, same s t]
  rfl

omit [Backend α ω β] in
theorem mirrors_solved {act : Run (DenseMatrix α × (List (Received α) × ω)) Unit}
    {act' : Run (DenseMatrix α × ω) Unit} (same : Run.Mirrors unnoted act act')
    (rhs : DenseMatrix α) : Run.Mirrors Prod.snd (solved rhs act) (solved rhs act') := by
  intro t
  have here := same (rhs, t)
  simp only [unnoted] at here
  simp only [solved, here]
  rfl

omit [Backend α ω β] in
theorem mirrors_onData (call : Nat → Received α) (act : {m : Nat} → Run (Vector α m × ω) Unit) :
    Run.Mirrors unnoted (Run.onData fun {m} => Recorded.change (call m) act) (Run.onData act) :=
  fun _ => rfl

omit [Backend α ω β] in
theorem mirrors_onColumns (call : Nat → Nat → Received α)
    (act : (nrhs : Nat) → {m : Nat} → Run (Vector α m × ω) Unit) :
    Run.Mirrors unnoted (onColumns fun nrhs {m} => Recorded.change (call m nrhs) (act nrhs))
      (onColumns act) := by
  refine .ofGet fun t => ?_
  dsimp only [unnoted]
  by_cases none : t.1.ncols = 0
  · simp only [if_pos none]
    rfl
  · simp only [if_neg none]
    exact (mirrors_onData (fun m => call m t.1.ncols) (act t.1.ncols)).mapError (.atStage .solve) t

omit [Backend α ω β] in
/-- A solve after a check. -/
theorem mirrors_columns (s : Slot (Recorded β)) (check : Except Error Unit)
    (call : Nat → Nat → Received α) (act : (nrhs : Nat) → {m : Nat} → Run (Vector α m × ω) Unit) :
    Run.Mirrors unnoted
      (do
        Run.ofExcept check
        Run.ofExcept (s.checkRows (← get).1)
        onColumns fun nrhs {m} => Recorded.change (call m nrhs) (act nrhs))
      (do
        Run.ofExcept check
        Run.ofExcept (s.plain.checkRows (← get).1)
        onColumns act) :=
  .bind (.ofExcept check) fun _ => .ofGet fun t =>
    Run.Mirrors.bind (.ofExcept (s.checkRows t.1)) (fun _ => mirrors_onColumns call act) t

/-- An analysis does the same with a record and without. -/
theorem mirrors_symbolicFactorize (p : Pattern) :
    Run.Mirrors unrecorded
      (symbolicFactorize p : Run (Slot (Recorded β) × (List (Received α) × ω)) Unit)
      (symbolicFactorize p : Run (Slot β × ω) Unit) := by
  rintro ⟨s, record, w⟩
  simp only [symbolicFactorize, unrecorded, plain]
  by_cases square : p.isSquare = true
  · simp only [if_pos square, Backend.symbolic, Recorded.stage]
    rcases (Backend.symbolic p : Run (β × ω) Unit) (s.backend.backend, w) with ⟨e | _, b, w'⟩ <;> rfl
  · simp only [if_neg square]

theorem mirrors_factorValues (values : Array α) :
    Run.Mirrors unrecorded
      (factorValues values : Run (Slot (Recorded β) × (List (Received α) × ω)) Unit)
      (factorValues values : Run (Slot β × ω) Unit) := by
  rintro ⟨s, record, w⟩
  simp only [factorValues, unrecorded, plain, Backend.numeric, Recorded.stage]
  rcases (Backend.numeric s.pattern values : Run (β × ω) Unit) (s.backend.backend, w)
    with ⟨e | _, b, w'⟩ <;> rfl

/-- A request does the same with a record and without. -/
theorem mirrors_request (r : Request α) :
    Run.Mirrors unrecorded (request r : Run (Slot (Recorded β) × (List (Received α) × ω)) Unit)
      (request r : Run (Slot β × ω) Unit) := by
  cases r with
  | symbolic p => exact mirrors_symbolicFactorize p
  | numeric a =>
    refine .ofGet fun t => ?_
    change (if t.1.phase = .unfactored ∨ a.pattern ≠ t.1.pattern then
        symbolicFactorize a.pattern >>= fun _ => factorValues a.values
      else factorValues a.values : Run (Slot β × ω) Unit) (unrecorded t) = _
    by_cases again : t.1.phase = .unfactored ∨ a.pattern ≠ t.1.pattern
    · rw [if_pos again]
      refine (Run.Mirrors.bind (mirrors_symbolicFactorize a.pattern)
        (fun _ => mirrors_factorValues a.values) t).trans ?_
      simp only [if_pos again]
    · rw [if_neg again]
      refine (mirrors_factorValues a.values t).trans ?_
      simp only [if_neg again]
  | solve rhs transposed =>
    simp only [request]
    exact mirrors_ask fun s => mirrors_solved (mirrors_columns s _ .solve _) rhs
  | rank =>
    simp only [request]
    exact mirrors_ask fun s => .bind (.ofExcept _) fun _ => fun _ => rfl
  | nullity =>
    simp only [request]
    exact mirrors_ask fun s => .bind (.bind (.ofExcept _) fun _ => fun _ => rfl) fun _ => fun _ => rfl
  | negativeEigenvalues =>
    simp only [request]
    exact mirrors_ask fun s => .bind (.ofExcept _) fun _ => fun _ => rfl
  | cholesky transposed =>
    simp only [request]
    exact mirrors_ask fun s => .bind (.ofExcept _) fun _ => fun _ => rfl
  | choleskyPattern transposed =>
    simp only [request]
    exact mirrors_ask fun s => .bind (.ofExcept _) fun _ => fun _ => rfl
  | solveCholesky rhs transposed =>
    simp only [request]
    exact mirrors_ask fun s => mirrors_solved (mirrors_columns s _ .solveCholesky _) rhs

/-! ### The contract -/

/-- Requests one after another leave a slot with a record of it. -/
theorem Tracked.after {t : Slot (Recorded β) × (List (Received α) × ω)} (tracked : t.1.Tracked t.2.1)
    (requests : List (Request α)) :
    (Slot.after requests t).1.Tracked (Slot.after requests t).2.1 := by
  induction requests generalizing t with
  | nil => exact tracked
  | cons r requests ih => exact ih (tracked.request r)

theorem after_unrecorded (requests : List (Request α))
    (t : Slot (Recorded β) × (List (Received α) × ω)) :
    Slot.after requests (unrecorded t) = unrecorded (Slot.after requests t) := by
  induction requests generalizing t with
  | nil => rfl
  | cons r requests ih =>
    change Slot.after requests (request r (unrecorded t)).2 = _
    rw [mirrors_request r t]
    exact ih (request r t).2

/-- A slot keeps the promised order, whatever its backend answers and whatever is asked of it: every
call that a backend receives is one that the earlier calls allow. The record of the calls changes
nothing of what happens. -/
theorem calls_orderly (b : β) (p : Pattern) (w : ω) (requests : List (Request α)) :
    let t := Slot.after requests ((Slot.new ⟨b⟩ p : Slot (Recorded β)), (([] : List (Received α)), w))
    Received.Orderly t.2.1 ∧ unrecorded t = Slot.after requests (Slot.new b p, w) := by
  have start : (Slot.new ⟨b⟩ p : Slot (Recorded β)).Tracked ([] : List (Received α)) :=
    ⟨trivial, fun phase => absurd rfl phase, nofun⟩
  exact ⟨(Tracked.after (t := (Slot.new ⟨b⟩ p, ([], w))) start requests).orderly,
    (after_unrecorded requests _).symm⟩

end Slot

end Cotangent
