import Cotangent.Proofs.OverwrittenSlots
import Cotangent.Proofs.RecordedCalls

/-! What a failed call leaves behind. A call that is refused has done nothing. A value sweep that
fails leaves values that belong to no inputs, and says so. A sweep for sensitivities comes after the
values and does not touch them, so wherever it fails the values are those of the inputs that are
remembered with them. None of this depends on what the operations do: they may fail anywhere, answer
matrices of any number and shape, and answer the same request differently another time. -/
namespace Cotangent

variable {α σ : Type}

/-- A matrix that a place may hold, given what the places of the operands hold: what is supplied for
an input, its own for a constant, and for an application what the operation has answered. -/
def Entry.Gives (given : NodeId → Option (DenseMatrix α)) (read : Nat → DenseMatrix α)
    (e : Entry α σ) (m : DenseMatrix α) : Prop :=
  match e.kind with
  | .symbol _ => given e.node = some m
  | .constant value => m = value
  | .apply op => ∃ w, (op.evaluate (e.children.map read) w).1 = .ok m

theorem Entry.Gives.congr {given : NodeId → Option (DenseMatrix α)} {read read' : Nat → DenseMatrix α}
    {e : Entry α σ} {m : DenseMatrix α} (gives : e.Gives given read m)
    (same : ∀ j ∈ e.children, read' j = read j) : e.Gives given read' m := by
  unfold Gives at gives ⊢
  rwa [List.map_congr_left same]

/-- Every place holds what its entry gives for the operands. -/
def Slots.Computed (p : Plan α σ) (given : NodeId → Option (DenseMatrix α)) (s : Slots α) : Prop :=
  ∀ (k : Nat) e, p.entries[k]? = some e → e.Gives given s.value (s.value k)

theorem Run.Post.answers {β : Type} {act : Run σ β} {s : σ} :
    Run.Post act s (fun x _ => (act s).1 = .ok x) (fun e _ => (act s).1 = .error e) := by
  rcases ran : act s with ⟨_ | _, _⟩ <;> simp only [Run.Post, ran]

namespace Plan

variable {g : Graph α σ} {inputs outputs : List NodeId} {p : Plan α σ} {inv : σ → Prop}
  {w : σ} {given : NodeId → Option (DenseMatrix α)} {s : Slots α}

/-- The places before some position hold what their entries give. -/
structure ComputedBefore (p : Plan α σ) (given : NodeId → Option (DenseMatrix α)) (i : Nat)
    (t : Slots α × σ) : Prop where
  ready : p.Ready (fun _ => True) given t
  gives : ∀ (k : Nat) e, k < i → p.entries[k]? = some e → e.Gives given t.1.value (t.1.value k)

/-- A step adds its place. A step that fails has written nothing. -/
theorem ComputedBefore.step (layout : p.Layout g inputs outputs) {i : Nat} {e : Entry α σ}
    {t : Slots α × σ} (at_i : p.entries[i]? = some e) (before : p.ComputedBefore given i t) :
    Run.Post (valueStep (e, i)) t (fun _ => p.ComputedBefore given (i + 1))
      (fun _ t' => t'.1 = t.1) := by
  obtain ⟨s, w⟩ := t
  obtain ⟨ready, gives⟩ := before
  -- the operands stand before the place, so a write to it is seen by no entry so far, and not by its own
  have extended {s' : Slots α} {w' : σ} (ready' : p.Ready (fun _ => True) given (s', w'))
      (here : e.Gives given s'.value (s'.value i)) (others : ∀ j, j ≠ i → s'.value j = s.value j) :
      p.ComputedBefore given (i + 1) (s', w') := by
    refine ⟨ready', fun k e' less at_k => ?_⟩
    rcases Nat.lt_succ_iff_lt_or_eq.mp less with earlier | rfl
    · rw [others k (Nat.ne_of_lt earlier)]
      exact (gives k e' earlier at_k).congr fun j operand =>
        others j (Nat.ne_of_lt ((layout.placed_operand at_k operand).1.trans earlier))
    · cases at_i.symm.trans at_k
      exact here
  unfold valueStep
  cases what : e.kind with
  | symbol name =>
    refine extended ready ?_ fun _ _ => rfl
    simpa only [Entry.Gives, what] using ready.bound i e at_i (by rw [what]; rfl)
  | constant m =>
    refine extended ready ?_ fun _ _ => rfl
    simpa only [Entry.Gives, what] using ready.fit.value_constant at_i what
  | apply op =>
    refine Run.Post.bind ((Sweep.post_call_of Run.Post.answers).imp (fun _ _ => id)
      fun _ _ failed => failed.1) ?_
    rintro m ⟨s', w'⟩ ⟨rfl, answered⟩
    refine (Sweep.post_setValue ready.fit at_i).imp ?_ fun _ _ refused => by rw [refused.2]
    rintro _ _ ⟨fits, rfl⟩
    have reads (j : Nat) := Slots.value_withValue (j := j) (m := m) (ready.fit.lt_size at_i)
    have others (j : Nat) (apart : j ≠ i) := (reads j).trans (if_neg apart)
    have ready' : p.Ready (fun _ => True) given (s', w') := ⟨ready.fit, trivial, ready.bound⟩
    refine extended (ready'.withValue at_i what fits) ?_ others
    rw [reads, if_pos rfl]
    have given_here : e.Gives given s'.value m := by
      simpa only [Entry.Gives, what] using ⟨w, answered⟩
    exact given_here.congr fun j operand =>
      others j (Nat.ne_of_lt (layout.placed_operand at_i operand).1)

/-- A value sweep computes every place, or stops and leaves numbers that still fit. -/
theorem post_valueSweep_computed (layout : p.Layout g inputs outputs) {t : Slots α × σ}
    (ready : p.Ready (fun _ => True) given t) :
    Run.Post p.valueSweep t (fun _ t => t.1.Fit p ∧ t.1.Computed p given)
      (fun _ t => t.1.Fit p) := by
  refine Run.Post.forM (p.ComputedBefore given) ⟨ready, fun k e less => absurd less (by omega)⟩
    ?_ ?_
  · rintro i ⟨e, k⟩ t at_i before
    obtain ⟨at_k, rfl⟩ := getElem?_placed.mp at_i
    refine (before.step layout at_k).imp (fun _ _ => id) ?_
    intro x t' same
    rw [same]
    exact before.ready.fit
  · rintro t ⟨ready, gives⟩
    refine ⟨ready.fit, fun k e at_k => gives k e ?_ at_k⟩
    rw [placed, List.length_zipIdx, Array.length_toList]
    exact (Array.getElem?_eq_some_iff.mp at_k).1

end Plan

/-! ### Numbers that are overwritten still fit -/

section Kept

variable {p : Plan α σ} {s s' : Slots α}

theorem Slots.Related.value (related : s.Related (fun c c' => c'.value = c.value) s') (k : Nat) :
    s'.value k = s.value k := by
  have here := related k
  unfold Slots.value
  revert here
  generalize s[k]? = x, s'[k]? = y
  rintro (⟨same⟩ | _)
  · exact same
  · rfl

theorem Slots.Computed.kept {given : NodeId → Option (DenseMatrix α)} (computed : s.Computed p given)
    (related : s.Related (fun c c' => c'.value = c.value) s') : s'.Computed p given := by
  intro k e at_k
  rw [related.value]
  exact (computed k e at_k).congr fun j _ => related.value j

variable [Scalar α] {counts : SweepKind → Nat}

theorem Cell.Fits.overwritten {e : Entry α σ} {c c' : Cell α} (fits : c.Fits e)
    (value : c'.value = c.value) (overwritten : c.Overwritten counts c') : c'.Fits e := by
  have row (kind : SweepKind) (old : ∀ m ∈ c.row kind, m.shape = e.shape) :
      ∀ m ∈ c'.row kind, m.shape = e.shape := by
    intro m member
    have shape : m.shape ∈ (c'.row kind).map (·.shape) := Array.mem_map_of_mem member
    rw [overwritten.shapes] at shape
    obtain ⟨m', member', same⟩ := Array.mem_map.mp shape
    exact same.symm.trans (Sweep.shape_reserve old fits.value member')
  exact ⟨value ▸ fits.value, row .forward fits.forward, row .adjoint fits.adjoint,
    fun m constant => value ▸ fits.constant m constant⟩

theorem Slots.Fit.overwritten (fit : s.Fit p) (related : s.Related
    (fun c c' => c'.value = c.value ∧ c.Overwritten counts c') s') : s'.Fit p where
  size := related.size.trans fit.size
  cell k e c' at_k held := by
    obtain ⟨c, held', value, overwritten⟩ := related.exists_cell held
    exact (fit.cell k e c at_k held').overwritten value overwritten

end Kept

/-- How many directions of each kind are asked for. -/
def Call.counts : Option (SweepKind × List (List (DenseMatrix α))) → SweepKind → Nat
  | none => fun _ => 0
  | some (kind, seeds) => kind.only seeds.length

namespace Program

variable [Scalar α] {g : Graph α σ} {inputs outputs : List NodeId} {p : Plan α σ} {inv : σ → Prop}
  {w : σ} {f f₀ : Program α σ} {xs : List (DenseMatrix α)} {c : Call α}

/-- What holds between calls of any operations: the plan has not changed, shapes fit, and values that
are said to belong to the last inputs were computed from them. -/
structure Consistent (p : Plan α σ) (inputs : List NodeId) (f : Program α σ) : Prop where
  plan : f.plan = p
  fit : f.slots.Fit p
  computed : f.state = .evaluated → f.slots.Computed p (Graph.supplied inputs f.lastInputs)

/-- Bringing the values up to date ends with values of the inputs, or with values of no inputs. -/
theorem post_refresh_computed (layout : p.Layout g inputs outputs)
    (consistent : Consistent p inputs f) (fitting : p.Fitting p.inputs xs) :
    Run.Post (refresh xs) (f, w)
      (fun _ t => ∃ s, t.1 = { f with slots := s, state := .evaluated, lastInputs := xs } ∧
        s.Fit p ∧ s.Computed p (Graph.supplied inputs xs) ∧ f.slots.Related Cell.Revalued s)
      (fun _ t => ∃ s, t.1 = { f with slots := s, state := .compiled } ∧
        s.Fit p ∧ f.slots.Related Cell.Revalued s) := by
  obtain ⟨rfl, fit, computed⟩ := consistent
  by_cases fresh : f.state = .evaluated ∧ f.lastInputs = xs
  · rw [Run.Post, refresh_reused fresh]
    obtain ⟨evaluated, rfl⟩ := fresh
    exact ⟨f.slots, by rw [← evaluated], fit, computed evaluated, .self⟩
  · have changed := (f.plan.leaves_bindInputs (σ := σ) xs).bind
      (fun _ => f.plan.leaves_valueSweep) (f.slots, w)
    have bound : Run.Post (f.plan.bindInputs xs) (f.slots, w)
        (fun _ => f.plan.Ready (fun _ => True) (Graph.supplied inputs xs)) (fun _ _ => False) :=
      Plan.post_bindInputs layout fit trivial fitting
    have swept := bound.bind_sure fun _ t ready => Plan.post_valueSweep_computed layout ready
    rw [Run.Post, refresh_anew fresh]
    rcases ran : (f.plan.bindInputs xs >>= fun _ => f.plan.valueSweep) (f.slots, w) with
      ⟨_ | _, s, v⟩ <;> rw [ran] at changed
    · exact ⟨s, rfl, swept.of_error ran, changed⟩
    · obtain ⟨fit, computed⟩ := swept.of_ok ran
      exact ⟨s, rfl, fit, computed, changed⟩

/-- The sweep for sensitivities, if there is one, changes no value. -/
theorem exists_sweeps (task : Option (SweepKind × List (List (DenseMatrix α))))
    (t : Program α σ × σ) : ∃ s, (Call.sweeps task t).2.1 = { t.1 with slots := s } ∧
      t.1.slots.Related (fun c c' => c'.value = c.value ∧ c.Overwritten (Call.counts task) c') s := by
  match task with
  | none =>
    have same : t.1.slots.Related (Cell.Sensitized fun _ => 0) t.1.slots := .self
    refine ⟨t.1.slots, rfl, same.imp fun c c' h => ⟨h.value, ?_⟩⟩
    exact (Cell.Revalued.overwritten (refl_of _ c)).sensitized h
  | some (kind, seeds) =>
    exact ⟨_, rfl, t.1.plan.leaves_sensitize kind seeds (t.1.slots, t.2)⟩

/-- What an admitted call leaves when its values could be brought up to date, whether or not the sweep
for sensitivities fails. -/
structure Attempted (p : Plan α σ) (inputs : List NodeId) (f : Program α σ) (c : Call α)
    (f' : Program α σ) : Prop where
  /-- The values are said to belong to the inputs of the call, and nothing else but numbers changed. -/
  state : f' = { f with slots := f'.slots, state := .evaluated, lastInputs := c.inputs }
  computed : f'.slots.Computed p (Graph.supplied inputs c.inputs)
  fit : f'.slots.Fit p
  overwritten : f.slots.Related (Cell.Overwritten (Call.counts (c.task f))) f'.slots

theorem attempted_run (layout : p.Layout g inputs outputs) (consistent : Consistent p inputs f)
    (admitted : c.Admitted f) {t : Program α σ × σ} (ran : refresh c.inputs (f, w) = (.ok (), t)) :
    Attempted p inputs f c (c.run (f, w)).2.1 := by
  obtain rfl := consistent.plan
  have fitting := (checkInputs_eq_ok layout rfl).mp admitted.inputs_checked
  obtain ⟨s, valued, fit, computed, revalued⟩ :=
    (post_refresh_computed layout consistent fitting).of_ok ran
  obtain ⟨s', swept, related⟩ := exists_sweeps (c.task f) t
  rw [run_of_refreshed layout.placed admitted ran, swept, valued]
  rw [valued] at related
  exact
    { state := rfl
      computed := computed.kept (related.imp fun _ _ h => h.1)
      fit := fit.overwritten related
      overwritten := revalued.comp related fun _ _ _ h h' => h'.2.after_value h }

/-- Every call keeps a program consistent. -/
theorem Consistent.run (layout : p.Layout g inputs outputs) (consistent : Consistent p inputs f)
    (c : Call α) (w : σ) : Consistent p inputs (c.run (f, w)).2.1 := by
  obtain rfl := consistent.plan
  by_cases admitted : c.Admitted f
  · have fitting := (checkInputs_eq_ok layout rfl).mp admitted.inputs_checked
    rcases ran : refresh c.inputs (f, w) with ⟨e | _, t⟩
    · obtain ⟨s, same, fit, -⟩ := (post_refresh_computed layout consistent fitting).of_error ran
      rw [run_of_stale layout.placed admitted ran, same]
      exact ⟨rfl, fit, nofun⟩
    · obtain ⟨state, computed, fit, -⟩ := attempted_run layout consistent admitted ran
      rw [state]
      exact ⟨rfl, fit, fun _ => computed⟩
  · obtain ⟨e, refused⟩ := Call.exists_refusal admitted
    rw [run_rejected layout.placed refused]
    exact consistent

theorem Reached.consistent {name : String} (layout : f₀.plan.Layout g inputs outputs)
    (sound : g.Sound) (created : create name g inputs outputs = .ok f₀)
    (reached : Reached inv f₀ f) : Consistent f₀.plan inputs f := by
  induction reached with
  | fresh =>
    obtain ⟨-, fresh⟩ := create_eq_ok created
    refine ⟨rfl, ?_, ?_⟩
    · rw [fresh]
      exact Plan.fit_startSlots (layout.constant_shape sound)
    · rw [fresh]
      nofun
  | @call f before c w allowed ih => exact ih.run layout c w

/-- A failed call of a program, whatever its operations do and whatever calls came before. When its
arguments are refused, or there is no room for the matrix it asks for, everything is as before and no
operation has been asked. When its values cannot be brought up to date, it answers why, and the values
belong to no inputs. Otherwise, whether or not the sweep for sensitivities fails, the values are said to
belong to the inputs of the call and do: every place holds what its entry gives for its operands, which
for deterministic operations is the value of its node. All shapes stay, and of the sensitivities only
those of the kind and of the directions asked for change, apart from new ones. -/
theorem failures_contained {name : String} (built : g.Built)
    (created : create name g inputs outputs = .ok f₀) (reached : Reached inv f₀ f) (c : Call α)
    (w : σ) :
    (¬ c.Admitted f → ∃ e, c.run (f, w) = (.error e, (f, w)) ∧
      ∀ log, c.run (f.noted, (w, log)) = (.error e, (f.noted, (w, log)))) ∧
    (c.Admitted f → ∀ e t, refresh c.inputs (f, w) = (.error e, t) → c.run (f, w) = (.error e, t) ∧
      ∃ s, t.1 = { f with slots := s, state := .compiled } ∧
        f.slots.Related (Cell.Overwritten fun _ => 0) s) ∧
    (c.Admitted f → ∀ t, refresh c.inputs (f, w) = (.ok (), t) →
      ∃ s, (c.run (f, w)).2.1 = { f with slots := s, state := .evaluated, lastInputs := c.inputs } ∧
        s.Computed f.plan (Graph.supplied inputs c.inputs) ∧
        (g.Oblivious outputs inv → inv w →
          s.Current f.plan w (Graph.supplied inputs c.inputs)) ∧
        f.slots.Related (Cell.Overwritten (Call.counts (c.task f))) s) := by
  have layout := Plan.layout_of_compile built (create_eq_ok created).1
  have consistent := reached.consistent layout built.sound created
  have plan : f.plan = f₀.plan := consistent.plan
  have placed : f.plan.Placed := plan ▸ layout.placed
  refine ⟨fun rejected => ?_, fun admitted e t failed => ?_, fun admitted t ran => ?_⟩
  · obtain ⟨e, refused⟩ := Call.exists_refusal rejected
    exact ⟨e, run_rejected placed refused, fun log =>
      run_rejected placed.noted (Call.check_noted.trans refused)⟩
  · have fitting := (checkInputs_eq_ok layout plan).mp admitted.inputs_checked
    obtain ⟨s, same, -, revalued⟩ := (post_refresh_computed layout consistent fitting).of_error failed
    exact ⟨run_of_stale placed admitted failed, s, same, revalued.imp fun _ _ h => h.overwritten⟩
  · obtain ⟨state, computed, -, overwritten⟩ := attempted_run layout consistent admitted ran
    refine ⟨_, state, plan ▸ computed, fun oblivious hw => ?_, overwritten⟩
    have setting := setting_of_create built created oblivious hw
    have settled := Settled.run setting (reached.settled setting created hw) c
    have last : (c.run (f, w)).2.1.lastInputs = c.inputs := congrArg (·.lastInputs) state
    rw [plan, ← last]
    exact settled.current (congrArg (·.state) state)

end Program

/-- The reciprocal of an integer: zero has none, and it has no derivatives. -/
def Primitive.reciprocal : Primitive Int where
  name := "reciprocal"
  arity := 1
  outputShape _ := .ok (1, 1)
  evaluate
    | [x] => if x = .scalar 0 then .error (.internal "zero") else .ok (x.map (1 / ·))
    | _ => .error (.internal "one operand")
  forward _ _ _ := .error (.internal "discrete")
  adjoint _ _ _ := .error (.internal "discrete")

/-- The reciprocal of a symbol. -/
def Graph.reciprocal : Graph Int Unit :=
  ⟨#[⟨.symbol "x", [], (1, 1)⟩, ⟨.apply Primitive.reciprocal.operation, [⟨0⟩], (1, 1)⟩]⟩

theorem Graph.built_reciprocal : Graph.reciprocal.Built := by
  have answered : (Graph.empty.symbol "x" (1, 1)).2.apply Primitive.reciprocal.operation [⟨0⟩] =
    .ok (⟨1⟩, Graph.reciprocal) := rfl
  exact (Built.empty.symbol "x" (1, 1)).apply answered

namespace Program

/-- After an evaluation at one: no inputs at all are refused, at zero there is no value, and at two it
is the derivatives that fail. -/
theorem failures_contained_reciprocal :
    ∃ (f₀ f : Program Int Unit), create "f" Graph.reciprocal [⟨0⟩] [⟨1⟩] = .ok f₀ ∧
      Reached (fun _ => True) f₀ f ∧ f.state = .evaluated ∧
      (∃ e, (Call.evaluate []).run (f, ()) = (.error e, (f, ()))) ∧
      ((Call.evaluate [.scalar 0]).run (f, ())).2.1.state = .compiled ∧
      (∃ e, ((Call.jacobian 0 0 [.scalar 2]).run (f, ())).1 = .error e) ∧
      ((Call.jacobian 0 0 [.scalar 2]).run (f, ())).2.1.state = .evaluated ∧
      ((Call.jacobian 0 0 [.scalar 2]).run (f, ())).2.1.lastInputs = [.scalar 2] := by
  obtain ⟨f₀, created⟩ : ∃ f₀, create "f" Graph.reciprocal [⟨0⟩] [⟨1⟩] = .ok f₀ := ⟨_, rfl⟩
  obtain ⟨f, reached, evaluated, rejected, zero, two, failed, refused, moved⟩ :
      ∃ f, Reached (fun _ => True) f₀ f ∧ f.state = .evaluated ∧
        (Call.evaluate []).check f ≠ .ok () ∧ (Call.evaluate [.scalar 0]).check f = .ok () ∧
        (Call.jacobian 0 0 [.scalar 2]).check f = .ok () ∧
        ((Call.jacobian 0 0 [.scalar 2]).run (f, ())).1.isOk = false ∧
        (refresh [.scalar 0] (f, ())).1 = .error (.internal "zero") ∧
        (refresh [.scalar 2] (f, ())).1 = .ok () := by
    refine ⟨_, .call .fresh (.evaluate [.scalar 1]) (w := ()) trivial, ?_⟩
    cases created
    decide +kernel
  have calls (c : Call Int) := failures_contained Graph.built_reciprocal created reached c ()
  obtain ⟨e, rejection, -⟩ := (calls (.evaluate [])).1 (mt Call.admitted_iff.mp rejected)
  obtain ⟨ran, s, compiled, -⟩ := (calls (.evaluate [.scalar 0])).2.1 (Call.admitted_iff.mpr zero)
    _ _ (Prod.ext refused rfl)
  obtain ⟨s', attempted, -⟩ := (calls (.jacobian 0 0 [.scalar 2])).2.2
    (Call.admitted_iff.mpr two) _ (Prod.ext moved rfl)
  refine ⟨f₀, f, created, reached, evaluated, ⟨e, rejection⟩, ?_, ?_, ?_, ?_⟩
  · rw [ran, compiled]
  · cases answer : ((Call.jacobian 0 0 [.scalar 2]).run (f, ())).1 with
    | error e => exact ⟨e, rfl⟩
    | ok x => rw [answer] at failed; cases failed
  · rw [attempted]
  · rw [attempted]
    rfl

end Program

end Cotangent
