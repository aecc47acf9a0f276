import Cotangent.Proofs.CallStages
import Cotangent.Proofs.SharedSolves

/-! Calls with a record of what is asked of the operations. A program is given operations that note
every request, with the node it is made for, before they do what they did; their state is the old one
with the record beside it. Nothing else of the program changes, and nothing reads the record, so a
call does with the recording program what it does with the plain one and adds its requests at the
end. These requests are therefore a function of the call, the program and the state. -/
namespace Cotangent

variable {α σ τ β γ : Type}

/-- A request for a value. -/
def Operation.Request.isEvaluate : Operation.Request α → Bool
  | .evaluate _ => true
  | _ => false

/-- The requests made to operations in their order, each with the node it was made for. -/
abbrev Requests (α : Type) := List (NodeId × Operation.Request α)

namespace Requests

/-- The nodes that were asked for their value. -/
def evaluated (log : Requests α) : List NodeId := (log.filter (·.2.isEvaluate)).map (·.1)

@[simp] theorem evaluated_append (log log' : Requests α) :
    (log ++ log').evaluated = log.evaluated ++ log'.evaluated := by
  simp [evaluated]

theorem evaluated_eq_nil {log : Requests α} :
    log.evaluated = [] ↔ ∀ r ∈ log, r.2.isEvaluate = false := by
  simp [evaluated]

end Requests

/-! ### Noting a request -/

/-- A request is noted, then carried out. -/
def Run.noted {ρ : Type} (r : ρ) (act : Run σ β) : Run (σ × List ρ) β := fun (w, log) =>
  let (outcome, w) := act w
  (outcome, (w, log ++ [r]))

/-- The operation of a node with a record of its requests. -/
def Operation.noted (id : NodeId) (op : Operation α σ) : Operation α (σ × Requests α) where
  name := op.name
  arity := op.arity
  outputShape := op.outputShape
  evaluate xs := (op.evaluate xs).noted (id, .evaluate xs)
  forward xs y seeds := (op.forward xs y seeds).noted (id, .forward xs y seeds)
  adjoint xs y seed := (op.adjoint xs y seed).noted (id, .adjoint xs y seed)
  forwardBatch xs y seeds := (op.forwardBatch xs y seeds).noted (id, .forwardBatch xs y seeds)
  adjointBatch xs y seeds := (op.adjointBatch xs y seeds).noted (id, .adjointBatch xs y seeds)

def NodeKind.noted (id : NodeId) : NodeKind α σ → NodeKind α (σ × Requests α)
  | symbol name => symbol name
  | constant value => constant value
  | apply op => apply (op.noted id)

def Graph.noted (g : Graph α σ) : Graph α (σ × Requests α) :=
  ⟨g.nodes.mapIdx fun i n => ⟨n.kind.noted ⟨i⟩, n.children, n.shape⟩⟩

def Entry.noted (e : Entry α σ) : Entry α (σ × Requests α) :=
  ⟨e.node, e.kind.noted e.node, e.shape, e.children⟩

def Plan.noted (p : Plan α σ) : Plan α (σ × Requests α) :=
  ⟨p.graph.noted, p.entries.map Entry.noted, p.position, p.inputs, p.outputs⟩

/-- The program with operations that note their requests. -/
def Program.noted (f : Program α σ) : Program α (σ × Requests α) :=
  ⟨f.name, f.plan.noted, f.slots, f.state, f.lastInputs⟩

/-- What a call asks of the operations of a program. -/
def Call.requests [Scalar α] (c : Call α) (f : Program α σ) (w : σ) : Requests α :=
  (c.run (f.noted, (w, []))).2.2.2

/-! ### The record does not show -/

/-- From a state with a record, a computation does what another one does without it, and adds requests
of one sort. -/
def Run.Notes {ρ : Type} (P : ρ → Prop) (record : σ → List ρ → τ) (act : Run τ β)
    (act' : Run σ β) : Prop :=
  ∀ s, ∃ new, (∀ r ∈ new, P r) ∧
    ∀ log, act (record s log) = ((act' s).1, record (act' s).2 (log ++ new))

namespace Run.Notes

variable {ρ : Type} {P : ρ → Prop} {record : σ → List ρ → τ} {act : Run τ β} {act' : Run σ β}

/-- Nothing is noted. -/
theorem silent (same : ∀ s log, act (record s log) = ((act' s).1, record (act' s).2 log)) :
    Notes P record act act' := by
  intro s
  refine ⟨[], nofun, fun log => ?_⟩
  rw [List.append_nil]
  exact same s log

theorem pure (x : β) : Notes P record (pure x) (pure x) := silent fun _ _ => rfl

theorem bind {next : β → Run τ γ} {next' : β → Run σ γ} (first : Notes P record act act')
    (later : ∀ x, Notes P record (next x) (next' x)) :
    Notes P record (act >>= next) (act' >>= next') := by
  intro s
  obtain ⟨new, sort, ran⟩ := first s
  simp only [bind_apply, ran]
  rcases act' s with ⟨e | x, t⟩
  · exact ⟨new, sort, fun log => rfl⟩
  · obtain ⟨new', sort', ran'⟩ := later x t
    refine ⟨new ++ new', List.forall_mem_append.mpr ⟨sort, sort'⟩, fun log => ?_⟩
    rw [← List.append_assoc]
    exact ran' (log ++ new)

theorem forM {δ : Type} {f : δ → Run τ Unit} {f' : δ → Run σ Unit} (xs : List δ)
    (each : ∀ x, Notes P record (f x) (f' x)) : Notes P record (forM xs f) (forM xs f') := by
  induction xs with
  | nil => exact silent fun _ _ => rfl
  | cons x xs ih =>
    rw [List.forM_cons, List.forM_cons]
    exact (each x).bind fun _ => ih

theorem imp {Q : ρ → Prop} (h : Notes P record act act') (wider : ∀ r, P r → Q r) :
    Notes Q record act act' := by
  intro s
  obtain ⟨new, sort, ran⟩ := h s
  exact ⟨new, fun r member => wider r (sort r member), ran⟩

end Run.Notes

/-- What is known of a computation is known of one that does the same beside a record. -/
theorem Run.Post.through {act : Run τ β} {act' : Run σ β} {t : τ} {s : σ} {done : β → σ → Prop}
    {failed : Error → σ → Prop} (h : Run.Post act' s done failed) (view : σ → τ)
    (ran : act t = ((act' s).1, view (act' s).2)) :
    Run.Post act t (fun x u => ∃ s', u = view s' ∧ done x s')
      (fun e u => ∃ s', u = view s' ∧ failed e s') := by
  rcases same : act' s with ⟨_ | _, s'⟩ <;> simp only [Run.Post, ran, same] at h ⊢ <;>
    exact ⟨s', rfl, h⟩

theorem Plan.placed_noted (p : Plan α σ) :
    p.noted.placed = p.placed.map fun e => (e.1.noted, e.2) := by
  simp [placed, noted, List.zipIdx_map, Prod.map]

namespace Sweep

/-- Numbers and a state, with a record. -/
def record (t : Slots α × σ) (log : Requests α) : Slots α × (σ × Requests α) := (t.1, (t.2, log))

variable {P : NodeId × Operation.Request α → Prop}

theorem update_record (k : Nat) (rule : Cell α → Except Error (Cell α)) (t : Slots α × σ)
    (log : Requests α) : update k rule (record t log) =
      ((update k rule t).1, record (update k rule t).2 log) := by
  simp only [record, update]
  cases t.1[k]? with
  | none => rfl
  | some c =>
    dsimp only
    cases rule c <;> rfl

theorem notes_update (k : Nat) (rule : Cell α → Except Error (Cell α)) :
    Run.Notes P record (update k rule) (update k rule : Sweep α σ Unit) :=
  .silent (update_record k rule)

theorem notes_updateAll (rule : Cell α → Cell α) :
    Run.Notes P record (updateAll rule) (updateAll rule : Sweep α σ Unit) :=
  .silent fun _ _ => rfl

theorem notes_call {act : Slots α → Run σ β} {request : Slots α → NodeId × Operation.Request α}
    (sort : ∀ s, P (request s)) :
    Run.Notes P record (call fun s => (act s).noted (request s)) (call act) :=
  fun t => ⟨[request t.1], by simpa using sort t.1, fun _ => rfl⟩

end Sweep

namespace Plan

open Sweep

variable {P : NodeId × Operation.Request α → Prop}

theorem notes_bindInputs (p : Plan α σ) (xs : List (DenseMatrix α)) :
    Run.Notes P record (p.noted.bindInputs xs) (p.bindInputs xs) :=
  .forM _ fun _ => notes_update _ _

/-- Every step of a walk notes requests of one sort. -/
theorem notes_walk (p : Plan α σ) {step : Entry α (σ × Requests α) × Nat → Sweep α _ Unit}
    {step' : Entry α σ × Nat → Sweep α σ Unit}
    (each : ∀ e, Run.Notes P record (step (e.1.noted, e.2)) (step' e)) :
    Run.Notes P record (p.noted.placed.forM step) (p.placed.forM step') := by
  rw [placed_noted]
  change Run.Notes P record (forM (p.placed.map fun e => (e.1.noted, e.2)) step) _
  rw [List.forM_map]
  exact .forM _ each

theorem notes_valueStep (e : Entry α σ × Nat) :
    Run.Notes (·.2.isEvaluate = true) record (valueStep (e.1.noted, e.2)) (valueStep e) := by
  obtain ⟨⟨node, kind, shape, children⟩, k⟩ := e
  cases kind with
  | symbol name => exact .pure ()
  | constant m => exact .pure ()
  | apply op => exact .bind (notes_call fun _ => rfl) fun m => notes_update _ _

theorem notes_valueSweep (p : Plan α σ) :
    Run.Notes (·.2.isEvaluate = true) record p.noted.valueSweep p.valueSweep :=
  p.notes_walk notes_valueStep

variable [Scalar α]

theorem notes_forwardStep (count : Nat) (e : Entry α σ × Nat) :
    Run.Notes (·.2.isEvaluate = false) record (forwardStep count (e.1.noted, e.2))
      (forwardStep count e) := by
  obtain ⟨⟨node, kind, shape, children⟩, k⟩ := e
  cases kind with
  | symbol name => exact .pure ()
  | constant m => exact notes_update k fun c => .ok { c with forward := clear count c.forward }
  | apply op =>
    refine .bind (notes_call fun _ => rfl) fun found => ?_
    simp only [Operation.noted]
    split
    · exact .silent fun _ _ => rfl
    · exact .forM _ fun _ => notes_update _ _

theorem notes_forwardSweep (p : Plan α σ) (seeds : List (List (DenseMatrix α))) :
    Run.Notes (·.2.isEvaluate = false) record (p.noted.forwardSweep seeds)
      (p.forwardSweep seeds) := by
  refine .bind (notes_updateAll _) fun _ => ?_
  refine .bind (.forM _ fun direction => .forM _ fun _ => notes_update _ _) fun _ => ?_
  exact p.notes_walk (notes_forwardStep seeds.length)

theorem notes_spread (name : String) (children : List Nat)
    (contributions : List (Option (DenseMatrix α))) (d : Nat)
    {P : NodeId × Operation.Request α → Prop} :
    Run.Notes P record (spread name children contributions d)
      (spread name children contributions d : Sweep α σ Unit) := by
  unfold spread
  split
  · exact .silent fun _ _ => rfl
  · refine .forM _ fun (k, m) => ?_
    cases m with
    | some m => exact notes_update _ _
    | none => exact .pure ()

theorem notes_adjointStep (count : Nat) (e : Entry α σ × Nat) :
    Run.Notes (·.2.isEvaluate = false) record (adjointStep count (e.1.noted, e.2))
      (adjointStep count e) := by
  obtain ⟨⟨node, kind, shape, children⟩, k⟩ := e
  cases kind with
  | symbol name => exact .pure ()
  | constant m => exact .pure ()
  | apply op =>
    refine .bind (notes_call fun _ => rfl) fun found => ?_
    simp only [Operation.noted]
    split
    · exact .silent fun _ _ => rfl
    · exact .forM _ fun _ => notes_spread _ _ _ _

theorem notes_adjointSweep (p : Plan α σ) (seeds : List (List (DenseMatrix α))) :
    Run.Notes (·.2.isEvaluate = false) record (p.noted.adjointSweep seeds)
      (p.adjointSweep seeds) := by
  refine .bind (notes_updateAll _) fun _ => ?_
  refine .bind (.forM _ fun direction => .forM _ fun _ => notes_update _ _) fun _ => ?_
  rw [placed_noted, ← List.map_reverse]
  change Run.Notes _ record (forM (p.placed.reverse.map fun e => (e.1.noted, e.2)) _) _
  rw [List.forM_map]
  exact .forM _ (notes_adjointStep seeds.length)

theorem notes_sensitize (p : Plan α σ) (task : SweepKind × List (List (DenseMatrix α))) :
    Run.Notes (·.2.isEvaluate = false) record (p.noted.sensitize task) (p.sensitize task) := by
  obtain ⟨_ | _, seeds⟩ := task
  · exact p.notes_forwardSweep seeds
  · exact p.notes_adjointSweep seeds

omit [Scalar α] in
@[simp] theorem shapeAt?_noted (p : Plan α σ) : p.noted.shapeAt? = p.shapeAt? := by
  funext k
  simp [shapeAt?, noted, Function.comp_def, Entry.noted]

omit [Scalar α] in
theorem Placed.noted {p : Plan α σ} (placed : p.Placed) : p.noted.Placed where
  inputs k bound := by
    obtain ⟨e, at_k⟩ := placed.inputs k bound
    exact ⟨e.noted, by simp [Plan.noted, at_k]⟩
  outputs k bound := by
    obtain ⟨e, at_k⟩ := placed.outputs k bound
    exact ⟨e.noted, by simp [Plan.noted, at_k]⟩

end Plan

namespace Program

/-- A program and a state, with a record. -/
def record (t : Program α σ × σ) (log : Requests α) :
    Program α (σ × Requests α) × (σ × Requests α) :=
  (t.1.noted, (t.2, log))

theorem notes_sweep {P : NodeId × Operation.Request α → Prop}
    (act : Plan α (σ × Requests α) → Sweep α (σ × Requests α) Unit) (act' : Plan α σ → Sweep α σ Unit)
    (same : ∀ p, Run.Notes P Sweep.record (act p.noted) (act' p)) :
    Run.Notes P record (sweep act) (sweep act') := by
  rintro ⟨f, w⟩
  obtain ⟨new, sort, ran⟩ := same f.plan (f.slots, w)
  refine ⟨new, sort, fun log => ?_⟩
  have here : act f.plan.noted (f.slots, (w, log)) = _ := ran log
  simp only [record, sweep, noted, here]
  rfl

variable [Scalar α] {f : Program α σ} {w : σ}

theorem notes_refresh (xs : List (DenseMatrix α)) :
    Run.Notes (·.2.isEvaluate = true) (record (σ := σ)) (refresh xs) (refresh xs) := by
  rintro ⟨f, w⟩
  by_cases fresh : f.state = .evaluated ∧ f.lastInputs = xs
  · refine ⟨[], nofun, fun log => ?_⟩
    rw [refresh_reused fresh, List.append_nil]
    exact refresh_reused (f := f.noted) fresh
  · obtain ⟨new, sort, ran⟩ := (f.plan.notes_bindInputs xs).bind
      (fun _ => f.plan.notes_valueSweep) (f.slots, w)
    refine ⟨new, sort, fun log => ?_⟩
    have here : (f.noted.plan.bindInputs xs >>= fun _ => f.noted.plan.valueSweep)
      (f.noted.slots, (w, log)) = _ := ran log
    rw [refresh_anew fresh, record, refresh_anew (f := f.noted) fresh, here]
    rcases (f.plan.bindInputs xs >>= fun _ => f.plan.valueSweep) (f.slots, w) with
      ⟨_ | _, s, v⟩ <;> rfl

omit [Scalar α] in
@[simp] theorem inputShape?_noted (f : Program α σ) :
    f.noted.plan.inputShape? = f.plan.inputShape? :=
  funext fun i => congrArg (f.plan.inputs[i]?.bind ·) f.plan.shapeAt?_noted

omit [Scalar α] in
@[simp] theorem outputShape?_noted (f : Program α σ) :
    f.noted.plan.outputShape? = f.plan.outputShape? :=
  funext fun o => congrArg (f.plan.outputs[o]?.bind ·) f.plan.shapeAt?_noted

omit [Scalar α] in
@[simp] theorem outputs_noted (f : Program α σ) : f.noted.outputs = f.outputs := rfl

omit [Scalar α] in
@[simp] theorem checkInputs_noted (f : Program α σ) (xs : List (DenseMatrix α)) :
    f.noted.checkInputs xs = f.checkInputs xs := by
  rw [checkInputs, inputShape?_noted]
  rfl

omit [Scalar α] in
@[simp] theorem checkForward_noted (f : Program α σ) (seeds : List (List (DenseMatrix α))) :
    f.noted.checkForward seeds = f.checkForward seeds := by
  rw [checkForward, inputShape?_noted]
  rfl

omit [Scalar α] in
@[simp] theorem checkAdjoint_noted (f : Program α σ) (seeds : List (List (DenseMatrix α))) :
    f.noted.checkAdjoint seeds = f.checkAdjoint seeds := by
  rw [checkAdjoint, outputShape?_noted]
  rfl

end Program

namespace Call

variable [Scalar α] {c : Call α} {f : Program α σ} {w : σ}

omit [Scalar α] in
@[simp] theorem elements_noted : c.elements f.noted = c.elements f := by
  cases c with
  | jacobian input output xs => simp [elements]
  | _ => rfl

omit [Scalar α] in
@[simp] theorem check_noted : c.check f.noted = c.check f := by
  cases c with
  | jacobian input output xs => simp [check]; rfl
  | _ => simp [check]

theorem admitted_noted : c.Admitted f.noted ↔ c.Admitted f := by
  rw [admitted_iff, admitted_iff, check_noted]

theorem task_noted : c.task f.noted = c.task f := by
  cases c with
  | jacobian input output xs => simp [task]; rfl
  | _ => rfl

omit [Scalar α] in
@[simp] theorem found_noted (t : Program α σ) (count : Nat) (kind : SweepKind) :
    found t.noted count kind = found t count kind := by
  cases kind <;> rfl

theorem reading_noted (t : Program α σ) : c.reading f.noted t.noted = c.reading f t := by
  cases c <;> simp [reading]

end Call

namespace Program

variable [Scalar α] {c : Call α} {f : Program α σ} {w : σ}

theorem notes_sweeps (task : Option (SweepKind × List (List (DenseMatrix α)))) :
    Run.Notes (·.2.isEvaluate = false) (record (σ := σ)) (Call.sweeps task) (Call.sweeps task) := by
  cases task with
  | none => exact .pure ()
  | some task => exact notes_sweep (·.sensitize task) (·.sensitize task) fun p => p.notes_sensitize task

/-- After the values, no node is asked for its value. -/
theorem notes_rest (c : Call α) (f : Program α σ) :
    Run.Notes (·.2.isEvaluate = false) record
      (do Call.sweeps (c.task f.noted); return c.reading f.noted (← current))
      (do Call.sweeps (c.task f); return c.reading f (← current)) := by
  rw [Call.task_noted]
  exact (notes_sweeps _).bind fun _ => .silent fun t log =>
    congrArg (Except.ok · , record t log) (Call.reading_noted t.1)

/-- Recording changes nothing: the requests of a call come to those noted before. -/
theorem run_noted (placed : f.plan.Placed) (c : Call α) (log : Requests α) :
    c.run (f.noted, (w, log)) = ((c.run (f, w)).1,
      ((c.run (f, w)).2.1.noted, ((c.run (f, w)).2.2, log ++ c.requests f w))) := by
  by_cases admitted : c.Admitted f
  · obtain ⟨new, -, ran⟩ : ∃ new : Requests α, (∀ r ∈ new, True) ∧ ∀ log, c.stages f.noted
        (record (f, w) log) = ((c.stages f (f, w)).1, record (c.stages f (f, w)).2 (log ++ new)) :=
      ((notes_refresh c.inputs).imp fun _ _ => trivial).bind
        (fun _ => (notes_rest c f).imp fun _ _ => trivial) (f, w)
    have noted (log) : c.run (f.noted, (w, log)) = _ :=
      (run_admitted placed.noted (Call.admitted_noted.mpr admitted)).trans (ran log)
    rw [Call.requests, noted, noted, run_admitted placed admitted]
    rfl
  · obtain ⟨e, refused⟩ : ∃ e, c.check f = .error e := Call.exists_refusal admitted
    have ran := run_rejected (w := w) placed refused
    have noted (log : Requests α) : c.run (f.noted, (w, log)) = (.error e, (f.noted, (w, log))) :=
      run_rejected placed.noted (Call.check_noted.trans refused)
    rw [Call.requests, noted, noted, ran, List.append_nil]

/-- A call asks for values where they are brought up to date. -/
theorem evaluated_requests (placed : f.plan.Placed) (admitted : c.Admitted f) :
    (c.requests f w).evaluated = (refresh c.inputs (f.noted, (w, []))).2.2.2.evaluated := by
  obtain ⟨new, -, ran⟩ := notes_refresh c.inputs (f, w)
  rw [Call.requests, run_admitted placed.noted (Call.admitted_noted.mpr admitted), Call.stages,
    Run.bind_apply]
  have here : refresh c.inputs (f.noted, (w, [])) = _ := ran []
  rw [here]
  rcases refresh c.inputs (f, w) with ⟨_ | _, t⟩
  · rfl
  · obtain ⟨new', sort, ran'⟩ := notes_rest c f t
    have rest := ran' ([] ++ new)
    simp only [rest]
    simp [record, Requests.evaluated_eq_nil.mpr sort]

/-- A call that is refused asks nothing. -/
theorem requests_of_rejected (placed : f.plan.Placed) (rejected : ¬ c.Admitted f) :
    c.requests f w = [] := by
  obtain ⟨e, refused⟩ := Call.exists_refusal rejected
  rw [Call.requests, run_rejected placed.noted (Call.check_noted.trans refused)]

end Program

end Cotangent
