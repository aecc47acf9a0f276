import Cotangent.Proofs.RecordedCalls

/-! Every operation that some output needs is evaluated once in a value sweep, and only there. A plan
has one entry for each of them, however many other nodes or outputs use it, and the sweep takes the
entries in turn; so the nodes that are asked for their value are those of the plan in its order, up to
the first one that has none. A call makes a sweep unless the values are those of its inputs, and
whether they are can be told from the calls before it: from the inputs of the last one that asked for
values, and from whether all nodes have values for these. -/
namespace Cotangent

variable {α σ : Type}

def NodeKind.isApply : NodeKind α σ → Bool
  | apply _ => true
  | _ => false

namespace Plan

/-- The nodes of a plan that apply an operation, in their order. -/
def applied (p : Plan α σ) : List NodeId := (p.entries.toList.filter (·.kind.isApply)).map (·.node)

/-- Every node of the plan has a value for what is supplied. -/
def Evaluable (p : Plan α σ) (w : σ) (given : NodeId → Option (DenseMatrix α)) : Prop :=
  ∀ e ∈ p.entries.toList, ∃ m, p.graph.value w given e.node = .ok m

/-- The nodes whose value a sweep asks for: those that apply an operation, up to the first one that
has no value. -/
def due (p : Plan α σ) (w : σ) (given : NodeId → Option (DenseMatrix α)) : List NodeId :=
  p.applied.take (p.applied.findIdx (fun id => !(p.graph.value w given id).isOk) + 1)

variable {g : Graph α σ} {inputs outputs : List NodeId} {p : Plan α σ} {inv : σ → Prop}
  {w w₀ : σ} {given : NodeId → Option (DenseMatrix α)}

/-- Operations before a position. -/
def appliedBefore (p : Plan α σ) (k : Nat) : List NodeId :=
  ((p.entries.toList.take k).filter (·.kind.isApply)).map (·.node)

theorem appliedBefore_succ {k : Nat} {e : Entry α σ} (at_k : p.entries[k]? = some e) :
    p.appliedBefore (k + 1) = p.appliedBefore k ++ if e.kind.isApply then [e.node] else [] := by
  rw [appliedBefore, List.take_add_one, Array.getElem?_toList, at_k]
  simp only [Option.toList_some, List.filter_append, List.map_append, appliedBefore]
  cases what : e.kind.isApply <;> simp [what]

theorem appliedBefore_size : p.appliedBefore p.entries.size = p.applied := by
  rw [appliedBefore, List.take_of_length_le (by simp), applied]

/-- A node applies an operation of the plan if it is one that some output needs. -/
theorem Layout.mem_applied (layout : p.Layout g inputs outputs) (id : NodeId) :
    id ∈ p.applied ↔ ∃ n op, g.Applied outputs id n op := by
  simp only [Plan.applied, List.mem_map, List.mem_filter]
  constructor
  · rintro ⟨e, ⟨member, what⟩, rfl⟩
    obtain ⟨k, at_k⟩ := List.mem_iff_getElem?.mp member
    rw [Array.getElem?_toList] at at_k
    obtain ⟨n, known⟩ := layout.known at_k
    cases kind : e.kind with
    | apply op => exact ⟨n, op, layout.applied at_k known kind⟩
    | _ => simp [kind, NodeKind.isApply] at what
  · rintro ⟨n, op, needed, known, kind⟩
    obtain ⟨e, member, rfl⟩ := List.mem_map.mp ((layout.mem_iff id).mpr (.inr needed))
    obtain ⟨k, at_k⟩ := List.mem_iff_getElem?.mp member
    rw [Array.getElem?_toList] at at_k
    exact ⟨e, ⟨member, by rw [(layout.operands at_k known).1, kind]; rfl⟩, rfl⟩

theorem Layout.nodup_applied (layout : p.Layout g inputs outputs) : p.applied.Nodup :=
  layout.nodup.sublist (List.filter_sublist.map _)

/-- When all nodes have values, all operations are due. -/
theorem due_of_evaluable (evaluable : p.Evaluable w given) : p.due w given = p.applied := by
  have every : ∀ id ∈ p.applied, (!(p.graph.value w given id).isOk) = false := by
    intro id member
    obtain ⟨e, among, rfl⟩ := List.mem_map.mp member
    obtain ⟨m, value⟩ := evaluable e (List.mem_of_mem_filter among)
    simp [value, Except.isOk, Except.toBool]
  rw [due, List.findIdx_eq_length_of_false every, List.take_of_length_le (by omega)]

theorem evaluable_of_current {read : Nat → DenseMatrix α} (current : ∀ (k : Nat) e,
    p.entries[k]? = some e → p.graph.value w given e.node = .ok (read k)) :
    p.Evaluable w given := by
  intro e member
  obtain ⟨k, at_k⟩ := List.mem_iff_getElem?.mp member
  exact ⟨_, current k e (Array.getElem?_toList .. ▸ at_k)⟩

theorem due_of_none (none : p.applied = []) : p.due w given = [] := by simp [due, none]

theorem due_ne_nil (some : p.applied ≠ []) : p.due w given ≠ [] := by
  obtain ⟨id, rest, split⟩ := List.exists_cons_of_ne_nil some
  simp [due, split]

/-- When an operation is the first node without a value, it is the last one due. -/
theorem due_of_first {k : Nat} {e : Entry α σ} {x : Error} (at_k : p.entries[k]? = some e)
    (apply : e.kind.isApply = true) (failed : p.graph.value w given e.node = .error x)
    (earlier : ∀ (j : Nat) e', j < k → p.entries[j]? = some e' →
      ∃ m, p.graph.value w given e'.node = .ok m) :
    p.due w given = p.appliedBefore (k + 1) := by
  have before : ∀ id ∈ p.appliedBefore k, (!(p.graph.value w given id).isOk) = false := by
    intro id member
    obtain ⟨e', among, rfl⟩ := List.mem_map.mp member
    obtain ⟨j, inside, rfl⟩ := List.mem_take_iff_getElem.mp (List.mem_of_mem_filter among)
    obtain ⟨m, value⟩ := earlier j p.entries.toList[j] (by omega) (by simp)
    rw [value]
    rfl
  obtain ⟨later, split⟩ : ∃ later, p.applied = p.appliedBefore k ++ e.node :: later := by
    obtain ⟨inside, rfl⟩ := Array.getElem?_eq_some_iff.mp at_k
    refine ⟨((p.entries.toList.drop (k + 1)).filter (·.kind.isApply)).map (·.node), ?_⟩
    have whole : p.entries.toList =
        p.entries.toList.take k ++ p.entries[k] :: p.entries.toList.drop (k + 1) := by
      rw [← Array.getElem_toList, ← List.drop_eq_getElem_cons, List.take_append_drop]
    rw [applied]
    nth_rewrite 1 [whole]
    simp [appliedBefore, apply]
  have first : p.applied.findIdx (fun id => !(p.graph.value w given id).isOk) =
      (p.appliedBefore k).length := by
    rw [split, List.findIdx_append, List.findIdx_eq_length_of_false before, if_neg (by simp),
      List.findIdx_cons]
    simp [failed, Except.isOk, Except.toBool]
  rw [due, first, split, appliedBefore_succ at_k, if_pos apply, List.take_length_add_append]
  rfl

/-! ### A value sweep asks each operation once -/

/-- A step asks the node of its entry for its value, if that applies an operation. -/
theorem valueStep_noted (e : Entry α σ) (k : Nat) (t : Slots α × σ) (log : Requests α) :
    ∃ new : Requests α, new.evaluated = (if e.kind.isApply then [e.node] else []) ∧
      valueStep (e.noted, k) (Sweep.record t log) =
        ((valueStep (e, k) t).1, Sweep.record (valueStep (e, k) t).2 (log ++ new)) := by
  obtain ⟨node, kind, shape, children⟩ := e
  cases kind with
  | symbol name => exact ⟨[], rfl, by rw [List.append_nil]; rfl⟩
  | constant m => exact ⟨[], rfl, by rw [List.append_nil]; rfl⟩
  | apply op =>
    refine ⟨[(node, .evaluate (children.map t.1.value))], rfl, ?_⟩
    have plain : Sweep.call (fun s => op.evaluate (children.map s.value)) t =
        ((op.evaluate (children.map t.1.value) t.2).1,
          (t.1, (op.evaluate (children.map t.1.value) t.2).2)) := rfl
    have asked : Sweep.call (fun s => (op.noted node).evaluate (children.map s.value))
        (Sweep.record t log) = ((op.evaluate (children.map t.1.value) t.2).1,
          Sweep.record (t.1, (op.evaluate (children.map t.1.value) t.2).2)
            (log ++ [(node, .evaluate (children.map t.1.value))])) := rfl
    simp only [valueStep, Entry.noted, NodeKind.noted, Run.bind_apply, asked, plain]
    rcases op.evaluate (children.map t.1.value) t.2 with ⟨_ | m, v⟩
    · rfl
    · exact Sweep.update_record ..

/-- What holds of the recording sweep before an entry: all operations before it have been asked. -/
structure Asked (p : Plan α σ) (inv : σ → Prop) (given : NodeId → Option (DenseMatrix α))
    (before : List NodeId) (k : Nat) (u : Slots α × (σ × Requests α)) : Prop where
  ready : p.Ready inv given (u.1, u.2.1)
  evaluated : u.2.2.evaluated = before ++ p.appliedBefore k

/-- A step asks its node if that applies an operation, and goes on if the node has a value. -/
theorem Asked.step (layout : p.Layout g inputs outputs) (oblivious : g.Oblivious outputs inv)
    (hw₀ : inv w₀) {before : List NodeId} {u : Slots α × (σ × Requests α)} {k : Nat}
    {e : Entry α σ} {n : Node α σ} (at_k : p.entries[k]? = some e)
    (known : g.node? e.node = some n) (asked : p.Asked inv given before k u) :
    Run.Post (valueStep (e.noted, k)) u
      (fun _ v => p.Asked inv given before (k + 1) v ∧
        Graph.valueRule w₀ given e.node n (e.children.map u.1.value) = .ok (v.1.value k) ∧
        ∀ j, j ≠ k → v.1.value j = u.1.value j)
      (fun x v => (e.kind.isApply = true ∧
          v.2.2.evaluated = before ++ p.appliedBefore (k + 1)) ∧
        Graph.valueRule w₀ given e.node n (e.children.map u.1.value) = .error x) := by
  obtain ⟨s, w, log⟩ := u
  obtain ⟨new, here, ran⟩ := valueStep_noted e k (s, w) log
  have evaluated : Requests.evaluated (log ++ new) = before ++ p.appliedBefore (k + 1) := by
    rw [Requests.evaluated_append, asked.evaluated, here, appliedBefore_succ at_k,
      List.append_assoc]
  have stepped := post_valueStep layout oblivious hw₀ k e n (s, w) at_k known asked.ready
  refine (stepped.through (Sweep.record · (log ++ new)) ran).imp ?_ ?_
  · rintro _ _ ⟨⟨s', w'⟩, rfl, ready, right, others⟩
    exact ⟨⟨ready, evaluated⟩, right, others⟩
  · rintro x _ ⟨⟨s', w'⟩, rfl, ready, wrong⟩
    refine ⟨⟨?_, evaluated⟩, wrong⟩
    -- symbols are bound and constants are there, so only an operation can fail
    rw [Graph.valueRule, ← (layout.operands at_k known).1] at wrong
    cases what : e.kind with
    | apply op => rfl
    | constant m =>
      rw [what] at wrong
      cases wrong
    | symbol name =>
      have bound := asked.ready.bound k e at_k (by rw [what]; rfl)
      simp [what, Graph.required_eq_ok.mpr bound] at wrong

/-- The nodes that a value sweep asks are those due. It succeeds if every node has a value. -/
theorem post_valueSweep_noted (layout : p.Layout g inputs outputs) (sound : g.Sound)
    (oblivious : g.Oblivious outputs inv) (hw₀ : inv w₀) {t : Slots α × σ}
    (ready : p.Ready inv given t) (log : Requests α) :
    Run.Post p.noted.valueSweep (Sweep.record t log)
      (fun _ u => u.2.2.evaluated = log.evaluated ++ p.due w₀ given ∧ p.Evaluable w₀ given)
      (fun _ u => u.2.2.evaluated = log.evaluated ++ p.due w₀ given ∧ ¬ p.Evaluable w₀ given) := by
  have plain : p.noted.valueSweep = p.placed.forM fun e => valueStep (e.1.noted, e.2) := by
    rw [valueSweep, placed_noted]
    exact List.forM_map
  rw [plain]
  refine (post_walk_at layout sound (Graph.valueRule w₀ given)
    (fun u : Slots α × (σ × Requests α) => u.1.value) (p.Asked inv given log.evaluated)
    (fun k u => ∃ e, p.entries[k]? = some e ∧ e.kind.isApply = true ∧
      u.2.2.evaluated = log.evaluated ++ p.appliedBefore (k + 1))
    (fun k e n u at_k known asked => ?_) (s := Sweep.record t log) ⟨ready, ?_⟩).imp ?_ ?_
  · exact (asked.step layout oblivious hw₀ at_k known).imp (fun _ _ => id)
      fun x v ⟨⟨apply, evaluated⟩, wrong⟩ => ⟨⟨e, at_k, apply, evaluated⟩, wrong⟩
  · simp [Sweep.record, appliedBefore]
  · rintro _ u ⟨asked, current⟩
    have evaluable : p.Evaluable w₀ given := evaluable_of_current (layout.graph.symm ▸ current)
    rw [due_of_evaluable evaluable, ← appliedBefore_size]
    exact ⟨asked.evaluated, evaluable⟩
  · rintro x u ⟨k, e, at_k, ⟨e', at_k', apply, evaluated⟩, failed, earlier⟩
    cases at_k.symm.trans at_k'
    have known : ∀ (j : Nat) e', j < k → p.entries[j]? = some e' →
        ∃ m, p.graph.value w₀ given e'.node = .ok m := layout.graph.symm ▸ earlier
    have unknown : p.graph.value w₀ given e.node = .error x := layout.graph.symm ▸ failed
    refine ⟨(due_of_first at_k apply unknown known).symm ▸ evaluated, fun evaluable => ?_⟩
    obtain ⟨m, value⟩ := evaluable e (List.mem_of_getElem? (Array.getElem?_toList .. ▸ at_k))
    cases value.symm.trans unknown

end Plan

namespace Program

variable [Scalar α] {g : Graph α σ} {inputs outputs : List NodeId} {p : Plan α σ} {inv : σ → Prop}
  {w w₀ : σ} {f f₀ : Program α σ} {xs : List (DenseMatrix α)} {c : Call α}

/-- Bringing the values up to date asks the operations that are due, unless the values are those of
the inputs. -/
theorem evaluated_refresh (setting : p.Setting g inputs outputs inv w₀)
    (settled : Settled p inv w₀ inputs (f, w)) (fitting : p.Fitting p.inputs xs)
    (stale : ¬ (f.state = .evaluated ∧ f.lastInputs = xs)) :
    (refresh xs (f.noted, (w, []))).2.2.2.evaluated = p.due w₀ (Graph.supplied inputs xs) := by
  obtain ⟨rfl, fit, hw, -⟩ := settled
  obtain ⟨new, none, ran⟩ := f.plan.notes_bindInputs (P := fun _ => False) xs (f.slots, w)
  obtain rfl := List.eq_nil_iff_forall_not_mem.mpr none
  have bound := Plan.post_bindInputs setting.layout fit hw fitting
  have swept : Run.Post (f.plan.noted.bindInputs xs >>= fun _ => f.plan.noted.valueSweep)
      (Sweep.record (f.slots, w) [])
      (fun _ u => u.2.2.evaluated = f.plan.due w₀ (Graph.supplied inputs xs))
      (fun _ u => u.2.2.evaluated = f.plan.due w₀ (Graph.supplied inputs xs)) := by
    refine ((bound.through (Sweep.record · ([] ++ [])) (ran [])).imp (fun _ _ => id)
      fun _ _ ⟨_, _, impossible⟩ => impossible).bind_sure ?_
    rintro _ _ ⟨t, rfl, ready⟩
    exact (Plan.post_valueSweep_noted setting.layout setting.sound setting.oblivious setting.state
      ready []).imp (fun _ _ asked => asked.1) fun _ _ asked => asked.1
  have reached := swept.always (P := fun u : Slots α × (σ × Requests α) => u.2.2.evaluated = _)
  rw [refresh_anew (f := f.noted) stale]
  rcases ran : (f.noted.plan.bindInputs xs >>= fun _ => f.noted.plan.valueSweep)
    (f.noted.slots, (w, [])) with ⟨_ | _, s, v⟩ <;> rw [← reached] <;>
    exact congrArg (fun u => u.2.2.2.evaluated) ran.symm

/-- After an admitted call the values are said to belong to its inputs if every node has a value for
them, and to no inputs otherwise. -/
theorem freshness_run (setting : p.Setting g inputs outputs inv w₀)
    (settled : Settled p inv w₀ inputs (f, w)) (admitted : c.Admitted f) :
    ((c.run (f, w)).2.1.state = .evaluated ↔ p.Evaluable w₀ (Graph.supplied inputs c.inputs)) ∧
      ((c.run (f, w)).2.1.state = .evaluated → (c.run (f, w)).2.1.lastInputs = c.inputs) := by
  obtain rfl := settled.plan
  have fitting := (checkInputs_eq_ok setting.layout rfl).mp admitted.inputs_checked
  obtain ⟨s, same⟩ := run_keeps (w := w) setting.layout.placed admitted
  have refreshed := post_refresh setting settled fitting
  rw [same]
  rcases ran : refresh c.inputs (f, w) with ⟨x | _, t⟩
  · obtain ⟨⟨-, compiled⟩, failed⟩ := refreshed.of_error ran
    refine ⟨⟨fun evaluated => ?_, fun evaluable => ?_⟩, fun evaluated => ?_⟩
    · cases compiled.symm.trans evaluated
    · obtain ⟨e, member, x, unknown⟩ := Outcome.mapM_eq_error.mp ⟨x, failed⟩
      obtain ⟨m, value⟩ := evaluable e member
      cases value.symm.trans unknown
    · cases compiled.symm.trans evaluated
  · have fresh := refreshed.of_ok ran
    exact ⟨⟨fun _ => Plan.evaluable_of_current fresh.current, fun _ => fresh.evaluated⟩,
      fun _ => fresh.last⟩

/-- An admitted call asks the operations that are due if the values are not those of its inputs. -/
theorem evaluated_of_stale (setting : p.Setting g inputs outputs inv w₀)
    (settled : Settled p inv w₀ inputs (f, w)) (admitted : c.Admitted f)
    (stale : ¬ (f.state = .evaluated ∧ f.lastInputs = c.inputs)) :
    (c.requests f w).evaluated = p.due w₀ (Graph.supplied inputs c.inputs) := by
  obtain rfl := settled.plan
  rw [evaluated_requests setting.layout.placed admitted]
  exact evaluated_refresh setting settled
    ((checkInputs_eq_ok setting.layout rfl).mp admitted.inputs_checked) stale

/-- If the values are those of the inputs, a call asks for none. -/
theorem evaluated_of_fresh (placed : f.plan.Placed) (admitted : c.Admitted f)
    (fresh : f.state = .evaluated ∧ f.lastInputs = c.inputs) :
    (c.requests f w).evaluated = [] := by
  rw [evaluated_requests placed admitted, refresh_reused (f := f.noted) fresh]
  rfl

/-! ### Which calls make a value sweep -/

end Program

/-- A call that was made, with what it asked of the operations. -/
structure Exchange (α : Type) where
  call : Call α
  requests : Requests α

/-- The inputs of the most recent value sweep, given what was asked in all calls, the latest first. -/
def lastSweep : List (Exchange α) → Option (List (DenseMatrix α))
  | [] => none
  | x :: earlier =>
    if x.requests.evaluated = [] then lastSweep earlier else some x.call.inputs

namespace Program

variable [Scalar α] {g : Graph α σ} {inputs outputs : List NodeId} {p : Plan α σ} {inv : σ → Prop}
  {w w₀ : σ} {f f₀ : Program α σ} {c : Call α} {history : List (Exchange α)}

/-- A program after calls, the latest first. Whoever else uses the operations may change their state
between two calls. -/
inductive Ran (inv : σ → Prop) (f₀ : Program α σ) : List (Exchange α) → Program α σ → Prop
  | fresh : Ran inv f₀ [] f₀
  | call {history : List (Exchange α)} {f : Program α σ} (before : Ran inv f₀ history f)
      (c : Call α) {w : σ} (allowed : inv w) :
      Ran inv f₀ (⟨c, c.requests f w⟩ :: history) (c.run (f, w)).2.1

theorem Ran.reached (ran : Ran inv f₀ history f) : Reached inv f₀ f := by
  induction ran with
  | fresh => exact .fresh
  | call before c allowed ih => exact .call ih c allowed

/-- The values are said to belong to some inputs if the last value sweep was for these and all nodes
have values for them. -/
theorem Ran.fresh_iff {name : String} (setting : f₀.plan.Setting g inputs outputs inv w₀)
    (created : create name g inputs outputs = .ok f₀) (ran : Ran inv f₀ history f)
    (some : f₀.plan.applied ≠ []) (xs : List (DenseMatrix α)) :
    f.state = .evaluated ∧ f.lastInputs = xs ↔
      lastSweep history = .some xs ∧ f₀.plan.Evaluable w₀ (Graph.supplied inputs xs) := by
  induction ran generalizing xs with
  | fresh =>
    rw [(create_eq_ok created).2]
    exact ⟨fun ⟨evaluated, _⟩ => (nomatch evaluated), fun ⟨swept, _⟩ => (nomatch swept)⟩
  | @call history f before c v allowed ih =>
    have settled : Settled f₀.plan inv w₀ inputs (f, v) :=
      before.reached.settled setting created allowed
    have placed : f.plan.Placed := settled.plan ▸ setting.layout.placed
    by_cases admitted : c.Admitted f
    · -- a call that finds its values fresh is for the inputs of the last sweep as well
      have last : lastSweep (⟨c, c.requests f v⟩ :: history) = .some c.inputs := by
        rw [lastSweep]
        by_cases fresh : f.state = .evaluated ∧ f.lastInputs = c.inputs
        · rw [if_pos (evaluated_of_fresh placed admitted fresh)]
          exact ((ih c.inputs).mp fresh).1
        · rw [evaluated_of_stale setting settled admitted fresh, if_neg (Plan.due_ne_nil some)]
      obtain ⟨evaluated, inputs⟩ := freshness_run setting settled admitted
      rw [last, Option.some_inj]
      constructor
      · rintro ⟨here, rfl⟩
        exact ⟨(inputs here).symm, inputs here ▸ evaluated.mp here⟩
      · rintro ⟨rfl, evaluable⟩
        exact ⟨evaluated.mpr evaluable, inputs (evaluated.mpr evaluable)⟩
    · obtain ⟨e, refused⟩ := Call.exists_refusal admitted
      rw [run_rejected placed refused, lastSweep, requests_of_rejected placed admitted]
      exact ih xs

/-- There was no value sweep before, or the last one failed, or it was for other inputs. -/
def SweepDue (p : Plan α σ) (w : σ) (inputs : List NodeId) (history : List (Exchange α))
    (xs : List (DenseMatrix α)) : Prop :=
  ∀ ys, lastSweep history = some ys →
    ¬ p.Evaluable w (Graph.supplied inputs ys) ∨ ys ≠ xs

theorem Ran.sweepDue_iff {name : String} (setting : f₀.plan.Setting g inputs outputs inv w₀)
    (created : create name g inputs outputs = .ok f₀) (ran : Ran inv f₀ history f)
    (some : f₀.plan.applied ≠ []) (xs : List (DenseMatrix α)) :
    SweepDue f₀.plan w₀ inputs history xs ↔ ¬ (f.state = .evaluated ∧ f.lastInputs = xs) := by
  rw [ran.fresh_iff setting created some xs]
  constructor
  · rintro due ⟨last, evaluable⟩
    exact (due xs last).elim (absurd evaluable) (absurd rfl)
  · intro other ys last
    by_cases same : ys = xs
    · exact .inl fun evaluable => other ⟨same ▸ last, same ▸ evaluable⟩
    · exact .inr same

/-- In every history of calls of a program with deterministic operations: a call with accepted
arguments, and with room for the matrix if it asks for one, asks every operation that some output
needs for its value, each once, in the order of the plan and up to the first that has none, if there
was no value sweep before, or the last one failed, or it was for other inputs; in every other case no
operation is asked for its value. The requests are those of the program itself, as recording changes
nothing, and a sweep fails exactly if some node has no value. Inputs are compared as they are stored,
so a number that is not one is the same as itself. -/
theorem evaluated_once_per_sweep {name : String} (built : g.Built)
    (created : create name g inputs outputs = .ok f₀) (oblivious : g.Oblivious outputs inv)
    (ran : Ran inv f₀ history f) (hw : inv w) (c : Call α) :
    (f.plan.applied.Nodup ∧ ∀ id, id ∈ f.plan.applied ↔ ∃ n op, g.Applied outputs id n op) ∧
    (c.Admitted f ∧ SweepDue f.plan w inputs history c.inputs →
      (c.requests f w).evaluated = f.plan.due w (Graph.supplied inputs c.inputs)) ∧
    (¬ (c.Admitted f ∧ SweepDue f.plan w inputs history c.inputs) →
      (c.requests f w).evaluated = []) ∧
    (c.Admitted f → ((c.run (f, w)).2.1.state = .evaluated ↔
      f.plan.Evaluable w (Graph.supplied inputs c.inputs))) ∧
    ∀ log, c.run (f.noted, (w, log)) = ((c.run (f, w)).1,
      ((c.run (f, w)).2.1.noted, ((c.run (f, w)).2.2, log ++ c.requests f w))) := by
  have setting := setting_of_create built created oblivious hw
  have settled := ran.reached.settled setting created hw
  have plan : f.plan = f₀.plan := settled.plan
  have placed : f.plan.Placed := plan ▸ setting.layout.placed
  have due_iff := ran.sweepDue_iff setting created
  refine ⟨plan ▸ ⟨setting.layout.nodup_applied, setting.layout.mem_applied⟩, ?_, ?_,
    fun admitted => plan ▸ (freshness_run setting settled admitted).1,
    fun log => run_noted placed c log⟩
  · rintro ⟨admitted, due⟩
    rw [plan] at due ⊢
    by_cases fresh : f.state = .evaluated ∧ f.lastInputs = c.inputs
    · have none : f₀.plan.applied = [] :=
        by_contra fun some => (due_iff some c.inputs).mp due fresh
      rw [evaluated_of_fresh placed admitted fresh, Plan.due_of_none none]
    · exact evaluated_of_stale setting settled admitted fresh
  · intro other
    rw [plan] at other
    by_cases admitted : c.Admitted f
    · by_cases fresh : f.state = .evaluated ∧ f.lastInputs = c.inputs
      · exact evaluated_of_fresh placed admitted fresh
      · have none : f₀.plan.applied = [] :=
          by_contra fun some => other ⟨admitted, (due_iff some c.inputs).mpr fresh⟩
        rw [evaluated_of_stale setting settled admitted fresh, Plan.due_of_none none]
    · rw [requests_of_rejected placed admitted]
      rfl

/-- With one node for two outputs and two nodes for one operand, other inputs cost one evaluation of
each operation and the same inputs cost none, also after a call that was refused. -/
theorem evaluated_once_per_sweep_sharing :
    ∃ (f₀ f : Program Int Unit) (history : List (Exchange Int)),
      create "f" Graph.sharing [⟨0⟩, ⟨1⟩] [⟨5⟩, ⟨4⟩, ⟨5⟩] = .ok f₀ ∧
      Ran (fun _ => True) f₀ history f ∧
      f.plan.due () (Graph.supplied [⟨0⟩, ⟨1⟩] [.scalar 3, .column [7, 8]]) = [⟨3⟩, ⟨4⟩, ⟨5⟩] ∧
      ((Call.evaluate [.scalar 3, .column [7, 8]]).requests f ()).evaluated =
        [⟨3⟩, ⟨4⟩, ⟨5⟩] ∧
      ((Call.jacobian 0 1 [.scalar 2, .column [7, 8]]).requests f ()).evaluated = [] := by
  obtain ⟨f₀, created⟩ :
    ∃ f₀, create "f" Graph.sharing [⟨0⟩, ⟨1⟩] [⟨5⟩, ⟨4⟩, ⟨5⟩] = .ok f₀ := ⟨_, rfl⟩
  obtain ⟨f, history, ran, some, fresh, last, checked, asked⟩ :
      ∃ f history, Ran (fun _ => True) f₀ history f ∧ f₀.plan.applied ≠ [] ∧
        (f.state = .evaluated ∧ f.lastInputs = [.scalar 2, .column [7, 8]]) ∧
        lastSweep history = Option.some [.scalar 2, .column [7, 8]] ∧
        f.checkInputs [.scalar 3, .column [7, 8]] = .ok () ∧
        ((Call.evaluate [.scalar 3, .column [7, 8]]).requests f ()).evaluated =
          [⟨3⟩, ⟨4⟩, ⟨5⟩] := by
    refine ⟨_, _, .call (.call .fresh (.evaluate [.scalar 2, .column [7, 8]]) (w := ()) trivial)
      (.forward [.scalar 2] []) (w := ()) trivial, ?_⟩
    cases created
    decide +kernel
  have oblivious := Graph.stateless_sharing.oblivious [⟨5⟩, ⟨4⟩, ⟨5⟩] fun _ => True
  have calls := evaluated_once_per_sweep Graph.built_sharing created oblivious ran (w := ()) trivial
  have setting : f₀.plan.Setting Graph.sharing [⟨0⟩, ⟨1⟩] [⟨5⟩, ⟨4⟩, ⟨5⟩] (fun _ => True) () :=
    setting_of_create Graph.built_sharing created oblivious trivial
  have plan : f.plan = f₀.plan := (ran.reached.settled (w := ()) setting created trivial).plan
  refine ⟨f₀, f, history, created, ran, ?_, asked, ?_⟩
  · refine ((calls (.evaluate _)).2.1
      ⟨Call.admitted_iff.mpr checked, fun ys swept => .inr ?_⟩).symm.trans asked
    cases last.symm.trans swept
    decide +kernel
  · refine (calls _).2.2.1 fun due => ?_
    exact (ran.sweepDue_iff setting created some _).mp (plan ▸ due.2) fresh

end Program

end Cotangent
