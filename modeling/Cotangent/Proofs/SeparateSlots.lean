import Mathlib.Data.Finset.Card
import Mathlib.Order.Bounds.Basic
import Cotangent.Proofs.Contract
import Cotangent.Proofs.ExactScalar
import Cotangent.Solver.Handle

/-! Slots do not see each other. What is asked of a solver is written down together with the answers.
The record alone tells which numbers are live and what was asked of each since it was checked out, and a
slot is always what exactly these errands make of a new one. So an answer depends on nothing else: not on
other slots, not on an earlier tenant of the number, and not on the shared world. -/
namespace Cotangent

variable {α β ω γ : Type}

/-! ### Errands -/

/-- What a slot answers. -/
inductive Reply (α : Type) where
  | done (outcome : Except Error Unit)
  /-- The right-hand side as it was left. -/
  | columns (outcome : Except Error Unit) (left : DenseMatrix α)
  | number (outcome : Except Error Nat)
  | factor (outcome : Except Error (SparseMatrix α))
  | pattern (outcome : Except Error Pattern)
  | solution (outcome : Except Error (DenseMatrix α))
  deriving DecidableEq

/-- What is asked of one slot: a request, or the solution of a dense system from the beginning. -/
inductive Errand (α : Type) where
  | request (r : Request α)
  | solveDense (a b : DenseMatrix α) (transposed : Bool)

namespace Slot

/-- A computation whose outcome is an answer, also if it fails. -/
def answered {σ δ : Type} (wrap : Except Error γ → δ) (act : Run σ γ) : Run σ δ := fun s =>
  let (outcome, s) := act s
  (.ok (wrap outcome), s)

/-- The answer to a question. -/
def told (wrap : Except Error γ → Reply α) (question : Slot β → Run ω γ) :
    Run (Slot β × ω) (Reply α) := fun (s, w) =>
  let (outcome, w) := question s w
  (.ok (wrap outcome), (s, w))

/-- A right-hand side handed over and given back. -/
def overwritten (rhs : DenseMatrix α) (act : Slot β → Run (DenseMatrix α × ω) Unit) :
    Run (Slot β × ω) (Reply α) := fun (s, w) =>
  let (outcome, (x, w)) := act s (rhs, w)
  (.ok (.columns outcome x), (s, w))

variable [Scalar α] [Backend α ω β]

/-- The request carried out, with all that it answers. -/
def respond : Request α → Run (Slot β × ω) (Reply α)
  | .symbolic p => answered .done (symbolicFactorize p)
  | .numeric a => answered .done (numericFactorize a)
  | .solve rhs transposed => overwritten rhs (·.solve transposed)
  | .rank => told .number rank
  | .nullity => told .number nullity
  | .negativeEigenvalues => told .number negativeEigenvalues
  | .cholesky transposed => told .factor (·.cholesky transposed)
  | .choleskyPattern transposed => told .pattern (·.choleskyPattern transposed)
  | .solveCholesky rhs transposed => overwritten rhs (·.solveCholesky transposed)

/-- The solution of one dense system, factorized on the full pattern. -/
def solveDense (a b : DenseMatrix α) (transposed : Bool) : Run (Slot β × ω) (DenseMatrix α) := do
  if a.nrows ≠ b.nrows then
    throw (.shapeMismatch [a.nrows, b.ncols] b.shape.toList)
  let a ← Run.ofExcept (SparseMatrix.ofDense? a)
  symbolicFactorize a.pattern
  numericFactorize a
  fun (s, w) =>
    let (outcome, (x, w)) := s.solve transposed (b, w)
    (outcome.map fun () => x, (s, w))

/-- The errand carried out. -/
def carryOut : Errand α → Run (Slot β × ω) (Reply α)
  | .request r => respond r
  | .solveDense a b transposed => answered .solution (solveDense a b transposed)

end Slot

/-! ### Backends of the library leave the world alone -/

/-- Data put into a world. -/
def Run.placed {σ : Type} (w : ω) (t : σ × Unit) : σ × ω := (t.1, w)

namespace Slot

section World

variable (w : ω)

/-- A question that reads no world. -/
theorem mirrors_told {wrap : Except Error γ → Reply α} {question : Slot (BuiltIn α) → Run Unit γ}
    {question' : Slot (BuiltIn α) → Run ω γ}
    (same : ∀ s, Run.Mirrors (fun _ => w) (question s) (question' s)) :
    Run.Mirrors (Run.placed w) (told wrap question) (told wrap question') := by
  rintro ⟨s, u⟩
  have here : question' s w = ((question s u).1, w) := same s u
  simp only [told, Run.placed, here]
  rfl

theorem mirrors_overwritten {act : Slot (BuiltIn α) → Run (DenseMatrix α × Unit) Unit}
    {act' : Slot (BuiltIn α) → Run (DenseMatrix α × ω) Unit}
    (same : ∀ s, Run.Mirrors (Run.placed w) (act s) (act' s)) (rhs : DenseMatrix α) :
    Run.Mirrors (Run.placed w) (overwritten rhs act) (overwritten rhs act') := by
  rintro ⟨s, u⟩
  have here : act' s (rhs, w) = ((act s (rhs, u)).1, ((act s (rhs, u)).2.1, w)) := same s (rhs, u)
  simp only [overwritten, Run.placed, here]
  rfl

theorem mirrors_answered {σ δ : Type} {wrap : Except Error γ → δ} {act : Run (σ × Unit) γ}
    {act' : Run (σ × ω) γ} (same : Run.Mirrors (Run.placed w) act act') :
    Run.Mirrors (Run.placed w) (answered wrap act) (answered wrap act') := by
  intro t
  simp only [answered, same t]
  rfl

/-- A solve after a check. -/
theorem mirrors_replaced (s : Slot (BuiltIn α)) (check : Except Error Unit)
    (act : (nrhs : Nat) → {m : Nat} → Vector α m → Except Error (Vector α m)) :
    Run.Mirrors (Run.placed w)
      (do
        Run.ofExcept check
        Run.ofExcept (s.checkRows (← get).1)
        onColumns fun nrhs {_} => Run.replace (act nrhs))
      (do
        Run.ofExcept check
        Run.ofExcept (s.checkRows (← get).1)
        onColumns fun nrhs {_} => Run.replace (act nrhs)) := by
  refine .bind (.ofExcept check) fun _ => .ofGet fun t => ?_
  refine Run.Mirrors.bind (.ofExcept (s.checkRows t.1)) (fun _ => .ofGet fun t => ?_) t
  dsimp only [Run.placed]
  split
  · rfl
  · simp only [Run.mapError, Run.onData, Run.replace]
    cases act t.1.ncols ⟨t.1.data, t.1.size_data⟩ <;> rfl

/-- A question after a check. -/
theorem mirrors_question (check : Except Error Unit) (answer : Except Error γ) :
    Run.Mirrors (fun _ : Unit => w) (Run.ofExcept check >>= fun _ => Run.ofExcept answer)
      (Run.ofExcept check >>= fun _ => Run.ofExcept answer) :=
  .bind (.ofExcept check) fun _ => .ofExcept answer

variable [Scalar α]

theorem mirrors_analysis (p : Pattern) :
    Run.Mirrors (Run.placed w) (symbolicFactorize p : Run (Slot (BuiltIn α) × Unit) Unit)
      (symbolicFactorize p : Run (Slot (BuiltIn α) × ω) Unit) := by
  rintro ⟨s, u⟩
  simp only [symbolicFactorize, Run.placed, Backend.symbolic, Run.onFirst]
  by_cases square : p.isSquare = true
  · simp only [if_pos square]
    rcases BuiltIn.symbolic p s.backend with ⟨_ | _, b⟩ <;> rfl
  · simp only [if_neg square]

theorem mirrors_values (values : Array α) :
    Run.Mirrors (Run.placed w) (factorValues values : Run (Slot (BuiltIn α) × Unit) Unit)
      (factorValues values : Run (Slot (BuiltIn α) × ω) Unit) := by
  rintro ⟨s, u⟩
  simp only [factorValues, Run.placed, Backend.numeric, Run.onFirst]
  rcases BuiltIn.numeric s.pattern values s.backend with ⟨_ | _, b⟩ <;> rfl

theorem mirrors_matrix (a : SparseMatrix α) :
    Run.Mirrors (Run.placed w) (numericFactorize a : Run (Slot (BuiltIn α) × Unit) Unit)
      (numericFactorize a : Run (Slot (BuiltIn α) × ω) Unit) := by
  refine .ofGet fun t => ?_
  dsimp only [Run.placed]
  by_cases again : t.1.phase = .unfactored ∨ a.pattern ≠ t.1.pattern
  · simp only [if_pos again]
    exact Run.Mirrors.bind (mirrors_analysis w a.pattern) (fun _ => mirrors_values w a.values) t
  · simp only [if_neg again]
    exact mirrors_values w a.values t

theorem mirrors_rank (s : Slot (BuiltIn α)) :
    Run.Mirrors (fun _ : Unit => w) (rank s : Run Unit Nat) (rank s : Run ω Nat) :=
  mirrors_question w s.requireFactors s.backend.rank

theorem mirrors_nullity (s : Slot (BuiltIn α)) :
    Run.Mirrors (fun _ : Unit => w) (nullity s : Run Unit Nat) (nullity s : Run ω Nat) :=
  .bind (mirrors_rank w s) fun _ _ => rfl

theorem mirrors_solve (s : Slot (BuiltIn α)) (transposed : Bool) :
    Run.Mirrors (Run.placed w) (s.solve transposed : Run (DenseMatrix α × Unit) Unit)
      (s.solve transposed : Run (DenseMatrix α × ω) Unit) :=
  mirrors_replaced w s s.requireFactors fun nrhs {_} => s.backend.solve nrhs transposed

/-- A dense solution reads no world. -/
theorem mirrors_solveDense (a b : DenseMatrix α) (transposed : Bool) :
    Run.Mirrors (Run.placed w)
      (solveDense a b transposed : Run (Slot (BuiltIn α) × Unit) (DenseMatrix α))
      (solveDense a b transposed : Run (Slot (BuiltIn α) × ω) (DenseMatrix α)) := by
  unfold solveDense
  split
  · exact fun _ => rfl
  · refine .bind (.ofExcept _) fun a => .bind (mirrors_analysis w _) fun _ =>
      .bind (mirrors_matrix w a) fun _ => ?_
    rintro ⟨s, u⟩
    have solved : s.solve transposed (b, w) = ((s.solve transposed (b, u)).1,
        ((s.solve transposed (b, u)).2.1, w)) := mirrors_solve w s transposed (b, u)
    simp only [Run.placed, solved]
    rfl

theorem mirrors_respond (r : Request α) :
    Run.Mirrors (Run.placed w) (respond r : Run (Slot (BuiltIn α) × Unit) (Reply α))
      (respond r : Run (Slot (BuiltIn α) × ω) (Reply α)) := by
  cases r with
  | symbolic p => exact mirrors_answered w (mirrors_analysis w p)
  | numeric a => exact mirrors_answered w (mirrors_matrix w a)
  | solve rhs transposed =>
    exact mirrors_overwritten w (fun s => mirrors_solve w s transposed) rhs
  | rank => exact mirrors_told w (mirrors_rank w)
  | nullity => exact mirrors_told w (mirrors_nullity w)
  | negativeEigenvalues =>
    exact mirrors_told w fun s => mirrors_question w _ (s.backend.negativeEigenvalues)
  | cholesky transposed =>
    exact mirrors_told w fun s => mirrors_question w _ (s.backend.triangle transposed)
  | choleskyPattern transposed =>
    exact mirrors_told w fun s => mirrors_question w _ (s.backend.trianglePattern transposed)
  | solveCholesky rhs transposed =>
    exact mirrors_overwritten w (fun s => mirrors_replaced w s _
      fun nrhs {_} => s.backend.solveTriangle nrhs transposed) rhs

/-- An errand reads no world and leaves the one it finds. -/
theorem mirrors_carryOut (e : Errand α) :
    Run.Mirrors (Run.placed w) (carryOut e : Run (Slot (BuiltIn α) × Unit) (Reply α))
      (carryOut e : Run (Slot (BuiltIn α) × ω) (Reply α)) := by
  cases e with
  | request r => exact mirrors_respond w r
  | solveDense a b transposed =>
    exact mirrors_answered w (mirrors_solveDense w a b transposed)

end World

variable [Scalar α]

/-- What errands, the latest first, make of a new slot that nobody else uses. -/
def grown (b : BuiltIn α) (p : Pattern) : List (Errand α) → Slot (BuiltIn α)
  | [] => .new b p
  | e :: earlier => (carryOut e (grown b p earlier, ())).2.1

end Slot

/-! ### Slots by number -/

namespace Solver

variable {s : Solver α β} {k : Nat} {x : Slot β}

/-- What a new slot is made from. -/
def recipe (s : Solver α β) : String × Options α × Pattern := (s.plugin, s.options, s.pattern)

theorem slot_eq_ok : s.slot k = .ok x ↔ s.slot? k = some x := by
  unfold slot
  split <;> simp_all

theorem slot?_setIfInBounds (v : Option (Slot β)) {i : Nat} (inside : i < s.extra.size) (j : Nat) :
    ({ s with extra := s.extra.setIfInBounds i v } : Solver α β).slot? j =
      if j = i + 1 then v else s.slot? j := by
  cases j with
  | zero => rfl
  | succ j =>
    simp only [slot?, Array.getElem?_setIfInBounds, Nat.add_right_cancel_iff]
    by_cases here : j = i
    · subst here
      simp [inside]
    · rw [if_neg (Ne.symm here), if_neg here]

/-- A live number above 0 is a place that is taken. -/
theorem lt_size_of_slot? {i : Nat} (live : s.slot? (i + 1) = some x) : i < s.extra.size := by
  by_contra outside
  simp [slot?, Array.getElem?_eq_none (Nat.le_of_not_lt outside)] at live

/-- A live slot replaced. -/
theorem slot?_setSlot (live : s.slot? k = some x) (y : Slot β) (j : Nat) :
    (s.setSlot k y).slot? j = if j = k then some y else s.slot? j := by
  cases k with
  | zero => cases j <;> rfl
  | succ i => exact slot?_setIfInBounds (some y) (lt_size_of_slot? live) j

theorem recipe_setSlot (s : Solver α β) (k : Nat) (y : Slot β) : (s.setSlot k y).recipe = s.recipe := by
  cases k <;> rfl

theorem onSlot_live (live : s.slot? k = some x) (act : Run (Slot β × ω) γ) (w : ω) :
    onSlot k act (s, w) = ((act (x, w)).1, (s.setSlot k (act (x, w)).2.1, (act (x, w)).2.2)) := by
  simp only [onSlot, slot_eq_ok.mpr live]
  rfl

theorem onSlot_dead (dead : s.slot? k = none) (act : Run (Slot β × ω) γ) (w : ω) :
    ∃ e, onSlot k act (s, w) = (.error e, (s, w)) := by
  refine ⟨.invalidArgument (.noSlot k), ?_⟩
  simp only [onSlot, slot, dead]

theorem slot?_push (y : Slot β) (j : Nat) :
    ({ s with extra := s.extra.push (some y) } : Solver α β).slot? j =
      if j = s.extra.size + 1 then some y else s.slot? j := by
  cases j with
  | zero => rfl
  | succ j =>
    simp only [slot?, Array.getElem?_push, Nat.add_right_cancel_iff]
    split <;> rfl

/-- The first free number above 0: everything before is taken. -/
theorem isLeast_free {i : Nat} (free : s.slot? (i + 1) = none)
    (taken : ∀ j < i, s.slot? (j + 1) ≠ none) : IsLeast {k | 0 < k ∧ s.slot? k = none} (i + 1) := by
  refine ⟨⟨i.succ_pos, free⟩, fun k ⟨positive, dead⟩ => ?_⟩
  obtain ⟨j, rfl⟩ := Nat.exists_eq_add_one_of_ne_zero positive.ne'
  by_contra before
  exact taken j (by omega) dead

/-- What is done in slot 0 in one go is done step by step. -/
theorem onPrimary_bind {δ : Type} (act : Run (Slot β × ω) γ) (next : γ → Run (Slot β × ω) δ) :
    (onPrimary (act >>= next) : Run (Solver α β × ω) δ) =
      onPrimary act >>= fun x => onPrimary (next x) := by
  funext ⟨s, w⟩
  simp only [onPrimary, Run.bind_apply]
  rcases act (s.primary, w) with ⟨_ | _, _⟩ <;> rfl

/-- A dense system is solved in slot 0. -/
theorem solveDense_eq [Scalar α] [Backend α ω β] (a b : DenseMatrix α) (transposed : Bool) :
    (solveDense a b transposed : Run (Solver α β × ω) (DenseMatrix α)) =
      onPrimary (Slot.solveDense a b transposed) := by
  unfold solveDense Slot.solveDense
  split
  · rfl
  · cases SparseMatrix.ofDense? a with
    | error e => rfl
    | ok a =>
      change (onPrimary (Slot.symbolicFactorize a.pattern) >>= fun _ =>
        onPrimary (Slot.numericFactorize a) >>= fun _ => _) = onPrimary (_ >>= fun _ => _ >>= fun _ => _)
      simp only [onPrimary_bind]
      rfl

/-- A new slot comes under the first free number above 0. -/
theorem checkout_least {catalogue : Catalogue α β} {b : β}
    (made : catalogue.create s.plugin s.options = .ok b) :
    ∃ k s', s.checkout catalogue = .ok (k, s') ∧ IsLeast {k | 0 < k ∧ s.slot? k = none} k ∧
      s'.recipe = s.recipe ∧
      ∀ j, s'.slot? j = if j = k then some (.new b s.pattern) else s.slot? j := by
  unfold checkout
  rw [made, Except.map]
  cases search : s.extra.findIdx? Option.isNone with
  | some i =>
    obtain ⟨inside, free, taken⟩ := Array.findIdx?_eq_some_iff_getElem.mp search
    refine ⟨i + 1, _, rfl, isLeast_free ?_ fun j before => ?_, rfl,
      slot?_setIfInBounds (some (.new b s.pattern)) inside⟩
    · simpa [slot?, Array.getElem?_eq_getElem inside] using free
    · have here : j < s.extra.size := before.trans inside
      simpa [slot?, Array.getElem?_eq_getElem here] using taken j before
  | none =>
    have taken := Array.findIdx?_eq_none_iff.mp search
    refine ⟨s.extra.size + 1, _, rfl, isLeast_free ?_ fun j here => ?_, rfl,
      slot?_push (.new b s.pattern)⟩
    · simp [slot?]
    · simpa [slot?, Array.getElem?_eq_getElem here, Option.isSome_iff_ne_none] using
        taken s.extra[j] (Array.getElem_mem here)

/-- A live number above 0 can be released. -/
theorem release_live {i : Nat} (live : s.slot? (i + 1) = some x) :
    ∃ s', s.release (i + 1) = .ok s' ∧ s'.recipe = s.recipe ∧
      ∀ j, s'.slot? j = if j = i + 1 then none else s.slot? j := by
  refine ⟨{ s with extra := s.extra.setIfInBounds i none }, ?_, rfl,
    slot?_setIfInBounds none (lt_size_of_slot? live)⟩
  simp only [release, live]

theorem release_refused (refused : k = 0 ∨ s.slot? k = none) : ∃ e, s.release k = .error e := by
  cases k with
  | zero => exact ⟨_, rfl⟩
  | succ i =>
    have dead := refused.resolve_left i.succ_ne_zero
    exact ⟨.invalidArgument (.noSlot (i + 1)), by simp only [release, dead]⟩

/-- Every live number is counted, 0 included. -/
theorem slotCount_eq (s : Solver α β) :
    ∃ live : Finset Nat, (∀ k, k ∈ live ↔ 0 < k ∧ (s.slot? k).isSome) ∧
      s.slotCount = 1 + live.card := by
  have places : s.extra.toList = (List.range s.extra.size).map fun i => s.slot? (i + 1) := by
    refine List.ext_getElem (by simp) fun i inside _ => ?_
    have here : i < s.extra.size := by simpa using inside
    simp [slot?, Array.getElem?_eq_getElem here]
  let taken := (Finset.range s.extra.size).filter fun i => (s.slot? (i + 1)).isSome
  refine ⟨taken.map ⟨Nat.succ, Nat.succ_injective⟩, fun k => ?_, ?_⟩
  · simp only [taken, Finset.mem_map, Finset.mem_filter, Finset.mem_range, Function.Embedding.coeFn_mk]
    constructor
    · rintro ⟨i, ⟨-, live⟩, rfl⟩
      exact ⟨i.succ_pos, live⟩
    · rintro ⟨positive, live⟩
      obtain ⟨i, rfl⟩ := Nat.exists_eq_add_one_of_ne_zero positive.ne'
      obtain ⟨x, held⟩ := Option.isSome_iff_exists.mp live
      exact ⟨i, ⟨lt_size_of_slot? held, live⟩, rfl⟩
  · have card : taken.card =
        ((List.range s.extra.size).filter fun i => decide ((s.slot? (i + 1)).isSome = true)).length := rfl
    rw [slotCount, ← Array.countP_toList, places, List.countP_map, Finset.card_map, card,
      List.countP_eq_length_filter]
    simp [Function.comp_def]

end Solver

/-! ### Histories -/

/-- What a user asks of a solver. -/
inductive Demand (α : Type) where
  | checkout (catalogue : Catalogue α (BuiltIn α))
  | release (k : Nat)
  /-- A request to the slot of this number. -/
  | request (k : Nat) (r : Request α)
  /-- The solution of a dense system in slot 0. -/
  | solveDense (a b : DenseMatrix α) (transposed : Bool)

/-- What was asked and what came of it. -/
inductive Event (α : Type) where
  | checkout (outcome : Except Error Nat)
  | release (k : Nat) (outcome : Except Error Unit)
  | errand (k : Nat) (e : Errand α) (outcome : Except Error (Reply α))

/-- The errand of a demand and the number of the slot it goes to. -/
def Demand.errand? : Demand α → Option (Nat × Errand α)
  | request k r => some (k, .request r)
  | solveDense a b transposed => some (0, .solveDense a b transposed)
  | _ => none

namespace Event

/-- What was asked of a number since it was checked out, the latest first, if it is live after the
events, the latest first. Number 0 is live from the start. -/
def since (k : Nat) : List (Event α) → Option (List (Errand α))
  | [] => if k = 0 then some [] else none
  | checkout (.ok j) :: earlier => if k = j then some [] else since k earlier
  | release j (.ok ()) :: earlier => if k = j then none else since k earlier
  | errand j e _ :: earlier =>
    if k = j then (since k earlier).map (e :: ·) else since k earlier
  | checkout (.error _) :: earlier | release _ (.error _) :: earlier => since k earlier

/-- Number `k` is checked out and not released after the events, the latest first. -/
def Live (k : Nat) (history : List (Event α)) : Prop := (since k history).isSome

end Event

namespace Solver

variable [Scalar α]

open Slot Event

/-- A demand served: what came of it, and the solver and the world after it. -/
def serve (d : Demand α) (t : Solver α (BuiltIn α) × ω) : Event α × (Solver α (BuiltIn α) × ω) :=
  match d with
  | .checkout catalogue =>
    match t.1.checkout catalogue with
    | .ok (k, s) => (.checkout (.ok k), (s, t.2))
    | .error e => (.checkout (.error e), t)
  | .release k =>
    match t.1.release k with
    | .ok s => (.release k (.ok ()), (s, t.2))
    | .error e => (.release k (.error e), t)
  | .request k r =>
    let (outcome, t) := onSlot k (respond r) t
    (.errand k (.request r) outcome, t)
  | .solveDense a b transposed =>
    let (outcome, t) := answered .solution (solveDense a b transposed) t
    (.errand 0 (.solveDense a b transposed) outcome, t)

/-- Demands served one after another: all that came of them, the latest first, and the solver and the
world after them. -/
def serveAll (demands : List (Demand α)) (t : Solver α (BuiltIn α) × ω) :
    List (Event α) × (Solver α (BuiltIn α) × ω) :=
  demands.foldl (fun (history, t) d => let (event, t) := serve d t; (event :: history, t)) ([], t)

theorem serve_errand {d : Demand α} {k : Nat} {e : Errand α} (errand : d.errand? = some (k, e))
    (t : Solver α (BuiltIn α) × ω) :
    serve d t = (.errand k e (onSlot k (carryOut e) t).1, (onSlot k (carryOut e) t).2) := by
  cases d with
  | checkout | release => cases errand
  | request k r =>
    cases errand
    rfl
  | solveDense a b transposed =>
    cases errand
    simp only [serve, solveDense_eq]
    rfl

/-- A catalogue has the library's own entry under a name. -/
def Unchanged (plugin : String) (catalogue : Catalogue α (BuiltIn α)) : Prop :=
  catalogue.find? plugin = (Catalogue.builtIn id).find? plugin

theorem Unchanged.create {plugin : String} {catalogue : Catalogue α (BuiltIn α)}
    (same : Unchanged plugin catalogue) (options : Options α) :
    catalogue.create plugin options = (Catalogue.builtIn id).create plugin options := by
  unfold Catalogue.create Catalogue.find
  rw [show catalogue.find? plugin = _ from same]

/-- Every slot is what its errands make of a new one. -/
structure Tracks (plugin : String) (options : Options α) (p : Pattern) (b : BuiltIn α)
    (history : List (Event α)) (s : Solver α (BuiltIn α)) : Prop where
  recipe : s.recipe = (plugin, options, p)
  slots : ∀ k, s.slot? k = (since k history).map (grown b p)

variable {plugin : String} {options : Options α} {p : Pattern} {b : BuiltIn α}
  {history : List (Event α)} {s : Solver α (BuiltIn α)} {k : Nat}

namespace Tracks

theorem create {catalogue : Catalogue α (BuiltIn α)} {name : String}
    (made : catalogue.create plugin options = .ok b)
    (created : Solver.create catalogue name plugin p options = .ok s) :
    Tracks plugin options p b [] s := by
  rw [Solver.create, made] at created
  cases created
  refine ⟨rfl, fun k => ?_⟩
  cases k with
  | zero => rfl
  | succ k => simp [slot?, since]

variable (tracks : Tracks plugin options p b history s)

include tracks

theorem live_iff : Live k history ↔ (s.slot? k).isSome := by
  rw [tracks.slots, Option.isSome_map, Live]

theorem dead_iff : ¬ Live k history ↔ s.slot? k = none := by
  rw [tracks.live_iff, Option.not_isSome_iff_eq_none]

theorem checkout (made : (Catalogue.builtIn id).create plugin options = .ok b)
    {catalogue : Catalogue α (BuiltIn α)} (same : Unchanged plugin catalogue) :
    ∃ k s', s.checkout catalogue = .ok (k, s') ∧ IsLeast {k | 0 < k ∧ ¬ Live k history} k ∧
      s'.slot k = .ok (.new b p) ∧ Tracks plugin options p b (.checkout (.ok k) :: history) s' := by
  obtain ⟨rfl, rfl, rfl⟩ : plugin = s.plugin ∧ options = s.options ∧ p = s.pattern := by
    simpa [Solver.recipe, eq_comm] using tracks.recipe
  obtain ⟨k, s', answer, least, kept, slots⟩ :=
    checkout_least (s := s) ((same.create s.options).trans made)
  refine ⟨k, s', answer, ?_, slot_eq_ok.mpr ((slots k).trans (if_pos rfl)), kept, fun j => ?_⟩
  · simpa only [tracks.dead_iff] using least
  · rw [slots, since]
    split
    · rfl
    · exact tracks.slots j

/-- An errand to a live slot. -/
theorem errand_live {errands : List (Errand α)} (live : since k history = some errands)
    (e : Errand α) (w : ω) :
    onSlot k (carryOut e) (s, w) = ((carryOut e (grown b p errands, ())).1,
      (s.setSlot k (grown b p (e :: errands)), w)) := by
  have held : s.slot? k = some (grown b p errands) := by rw [tracks.slots, live]; rfl
  have alone : carryOut e (grown b p errands, w) = ((carryOut e (grown b p errands, ())).1,
    ((carryOut e (grown b p errands, ())).2.1, w)) := mirrors_carryOut w e (grown b p errands, ())
  rw [onSlot_live held, alone, grown]

theorem errand (k : Nat) (e : Errand α) (outcome : Except Error (Reply α)) (w : ω) :
    Tracks plugin options p b (.errand k e outcome :: history)
      (onSlot k (carryOut e) (s, w)).2.1 := by
  cases live : since k history with
  | none =>
    obtain ⟨_, refused⟩ := onSlot_dead (s := s) (by rw [tracks.slots, live]; rfl)
      (carryOut e : Run (Slot (BuiltIn α) × ω) (Reply α)) w
    rw [refused]
    refine ⟨tracks.recipe, fun j => ?_⟩
    rw [since]
    split
    · next here => rw [here, live, tracks.slots, live]; rfl
    · exact tracks.slots j
  | some errands =>
    rw [tracks.errand_live live]
    refine ⟨(recipe_setSlot ..).trans tracks.recipe, fun j => ?_⟩
    have held : s.slot? k = some (grown b p errands) := by rw [tracks.slots, live]; rfl
    rw [slot?_setSlot held, since]
    split
    · next here => rw [here, live]; rfl
    · exact tracks.slots j

/-- Live numbers above 0 are released, and no others. -/
theorem release (k : Nat) :
    (0 < k ∧ Live k history ∧ ∃ s', s.release k = .ok s' ∧
      Tracks plugin options p b (.release k (.ok ()) :: history) s') ∨
    (¬ (0 < k ∧ Live k history) ∧ ∃ e, s.release k = .error e) := by
  by_cases here : 0 < k ∧ Live k history
  · obtain ⟨positive, live⟩ := here
    obtain ⟨i, rfl⟩ := Nat.exists_eq_add_one_of_ne_zero positive.ne'
    obtain ⟨x, held⟩ := Option.isSome_iff_exists.mp (tracks.live_iff.mp live)
    obtain ⟨s', freed, kept, slots⟩ := release_live held
    refine .inl ⟨positive, live, s', freed, kept.trans tracks.recipe, fun j => ?_⟩
    rw [slots, since]
    split
    · rfl
    · exact tracks.slots j
  · refine .inr ⟨here, release_refused ?_⟩
    rw [← tracks.dead_iff]
    by_cases zero : k = 0
    · exact .inl zero
    · exact .inr fun live => here ⟨Nat.pos_of_ne_zero zero, live⟩

/-- A demand keeps the record true. -/
theorem serve (made : (Catalogue.builtIn id).create plugin options = .ok b) {d : Demand α}
    (unchanged : ∀ catalogue, d = .checkout catalogue → Unchanged plugin catalogue) (w : ω) :
    Tracks plugin options p b ((Solver.serve d (s, w)).1 :: history) (Solver.serve d (s, w)).2.1 := by
  cases d with
  | checkout catalogue =>
    obtain ⟨k, s', answer, -, -, next⟩ := tracks.checkout made (unchanged catalogue rfl)
    simpa only [Solver.serve, answer] using next
  | release k =>
    obtain ⟨-, -, s', freed, next⟩ | ⟨-, e, refused⟩ := tracks.release k
    · simpa only [Solver.serve, freed] using next
    · simpa only [Solver.serve, refused] using ⟨tracks.recipe, tracks.slots⟩
  | request k r =>
    rw [serve_errand rfl]
    exact tracks.errand k (.request r) _ w
  | solveDense a c transposed =>
    rw [serve_errand rfl]
    exact tracks.errand 0 (.solveDense a c transposed) _ w

end Tracks

/-- What a record says of a solver with backend `b` for pattern `p`. -/
structure Separate (plugin : String) (p : Pattern) (b : BuiltIn α) (history : List (Event α))
    (t : Solver α (BuiltIn α) × ω) : Prop where
  /-- The smallest number above 0 that is not live gets a slot without analysis. -/
  checkout : ∀ catalogue, Unchanged plugin catalogue →
    ∃ k s', t.1.checkout catalogue = .ok (k, s') ∧ IsLeast {k | 0 < k ∧ ¬ Live k history} k ∧
      s'.slot k = .ok (.new b p)
  release : ∀ k, (∃ s', t.1.release k = .ok s') ↔ 0 < k ∧ Live k history
  slot : ∀ k, (∃ x, t.1.slot k = .ok x) ↔ k = 0 ∨ Live k history
  slotCount : ∃ live : Finset Nat, (∀ k, k ∈ live ↔ 0 < k ∧ Live k history) ∧
    t.1.slotCount = 1 + live.card
  /-- A slot is what its errands make of a new one in a world of its own. -/
  state : ∀ k errands, since k history = some errands → t.1.slot k = .ok (grown b p errands)
  /-- It answers as that one does. -/
  answer : ∀ d k e errands, Demand.errand? d = some (k, e) → since k history = some errands →
    (serve d t).1 = .errand k e (carryOut e (grown b p errands, ())).1

theorem Tracks.separate (tracks : Tracks plugin options p b history s)
    (made : (Catalogue.builtIn id).create plugin options = .ok b) (w : ω) :
    Separate plugin p b history (s, w) where
  checkout catalogue same := by
    obtain ⟨k, s', answer, least, fresh, -⟩ := tracks.checkout made same
    exact ⟨k, s', answer, least, fresh⟩
  release k := by
    obtain ⟨positive, live, s', freed, -⟩ | ⟨dead, e, refused⟩ := tracks.release k
    · exact iff_of_true ⟨s', freed⟩ ⟨positive, live⟩
    · exact iff_of_false (by simp [refused]) dead
  slot k := by
    simp only [slot_eq_ok, ← Option.isSome_iff_exists, tracks.live_iff]
    refine ⟨.inr, ?_⟩
    rintro (rfl | live)
    · rfl
    · exact live
  slotCount := by
    simpa only [tracks.live_iff] using s.slotCount_eq
  state k errands live := slot_eq_ok.mpr (by rw [tracks.slots, live]; rfl)
  answer d k e errands errand live := by
    rw [serve_errand errand, tracks.errand_live live]

/-- Slots of one solver are isolated. After any demands, checkouts, releases and what is asked of slots
in any order, a checkout gives the smallest free number above 0 to a new slot on the pattern of the
solver, exactly the live numbers above 0 can be released, exactly the live numbers and 0 have slots, and
all of them are counted. A slot is in the state and gives the answers that only what was asked of it
since its checkout decides. -/
theorem slots_isolated {first : Catalogue α (BuiltIn α)} {name : String}
    (known : Unchanged plugin first) (created : create first name plugin p options = .ok s)
    (demands : List (Demand α))
    (unchanged : ∀ catalogue, .checkout catalogue ∈ demands → Unchanged plugin catalogue) (w : ω) :
    ∃ b, (Catalogue.builtIn id).create plugin options = .ok b ∧
      Separate plugin p b (serveAll demands (s, w)).1 (serveAll demands (s, w)).2 := by
  obtain ⟨b, made, -⟩ := Outcome.map_eq_ok.mp created
  rw [known.create] at made
  refine ⟨b, made, ?_⟩
  suffices Tracks plugin options p b (serveAll demands (s, w)).1 (serveAll demands (s, w)).2.1 from
    this.separate made _
  refine foldl_keeps (P := fun _ (t : List (Event α) × (Solver α (BuiltIn α) × ω)) =>
      Tracks plugin options p b t.1 t.2.1)
    (Tracks.create (known.create options |>.trans made) created) ?_
  rintro done d rest ⟨history, s, w⟩ split tracks
  refine tracks.serve made (fun catalogue asked => unchanged catalogue ?_) w
  rw [split, ← asked]
  exact List.mem_append_right done List.mem_cons_self

/-- A slot that was released with factors comes back without. The one beside it keeps its own. -/
theorem slots_isolated_reuse :
    let two : SparseMatrix Int := ⟨.dense 1 1, #[2], rfl⟩
    let demands : List (Demand Int) := [.checkout (.builtIn id), .request 1 (.numeric two),
      .checkout (.builtIn id), .request 2 (.numeric two), .release 1, .checkout (.builtIn id)]
    ∃ s b, create (.builtIn id) "s" "lu" (.dense 1 1) (⟨0, 0⟩ : Options Int) = .ok s ∧
      let t := serveAll demands (s, ())
      since 1 t.1 = some [] ∧ t.2.1.slot 1 = .ok (.new b (.dense 1 1)) ∧
      (t.2.1.slot 2).map (·.phase) = .ok .factored := by
  intro two demands
  let s : Solver Int (BuiltIn Int) :=
    ⟨"s", "lu", .dense 1 1, ⟨0, 0⟩, .new (.denseLU (.new ⟨0, 0⟩)) (.dense 1 1), #[]⟩
  have created : create (.builtIn id) "s" "lu" (.dense 1 1) (⟨0, 0⟩ : Options Int) = .ok s := rfl
  obtain ⟨b, -, separate⟩ := slots_isolated rfl created demands
    (fun catalogue asked => by simp [demands] at asked; rw [asked]; rfl) ()
  have length : (since 1 (serveAll demands (s, ())).1).map List.length = some 0 := by decide +kernel
  obtain ⟨errands, live, none⟩ := Option.map_eq_some_iff.mp length
  cases List.length_eq_zero_iff.mp none
  exact ⟨s, b, created, live, separate.state 1 [] live, by decide +kernel⟩

end Solver

end Cotangent
