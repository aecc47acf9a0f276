import Cotangent.Program.Jacobian
import Cotangent.Proofs.Calls

/-! What came before does not show. A program is used again and again, and a call may find any
numbers that earlier calls left: rows of directions it did not ask for, values of which a failure
overwrote some, inputs of a sweep that succeeded long ago. Two programs of one plan that are settled
nevertheless answer a call alike, since a call reads only what it has just written or what settled
programs have in common. -/
namespace Cotangent

variable {α σ : Type}

/-- A call of a program with its arguments. -/
inductive Call (α : Type) where
  | evaluate (inputs : List (DenseMatrix α))
  | forward (inputs : List (DenseMatrix α)) (seeds : List (List (DenseMatrix α)))
  | adjoint (inputs : List (DenseMatrix α)) (seeds : List (List (DenseMatrix α)))
  | jacobian (input output : Nat) (inputs : List (DenseMatrix α))

/-- What a call answers. -/
inductive Answer (α : Type) where
  | outputs (values : List (DenseMatrix α))
  | sensitivities (found : Sensitivities α)
  | matrix (derivatives : DenseMatrix α)

def Call.run [Scalar α] : Call α → Run (Program α σ × σ) (Answer α)
  | .evaluate inputs => .outputs <$> Program.evaluate inputs
  | .forward inputs seeds => .sensitivities <$> Program.forward inputs seeds
  | .adjoint inputs seeds => .sensitivities <$> Program.adjoint inputs seeds
  | .jacobian input output inputs => .matrix <$> Program.jacobian input output inputs

/-- A program after any calls, successful or not. Whoever else uses the operations may change their
state between two calls. -/
inductive Program.Reached [Scalar α] (inv : σ → Prop) (f₀ : Program α σ) : Program α σ → Prop
  | fresh : Reached inv f₀ f₀
  | call {f : Program α σ} (before : Reached inv f₀ f) (c : Call α) {w : σ} (allowed : inv w) :
      Reached inv f₀ (c.run (f, w)).2.1

namespace Slots

variable {p : Plan α σ} {w : σ} {given : NodeId → Option (DenseMatrix α)} {s s' : Slots α}

/-- Current values are determined by what is supplied. -/
theorem Current.unique (current : s.Current p w given) (current' : s'.Current p w given)
    (fit : s.Fit p) (fit' : s'.Fit p) (k : Nat) : s.value k = s'.value k := by
  by_cases inside : k < p.entries.size
  · have at_k := Array.getElem?_eq_getElem inside
    exact Except.ok.inj ((current k _ at_k).symm.trans (current' k _ at_k))
  · have outside : s.size ≤ k := by rw [fit.size]; omega
    have outside' : s'.size ≤ k := by rw [fit'.size]; omega
    simp [value, outside, outside']

end Slots

/-- A list of successes is no failure. -/
theorem Plan.mapM_ne_error {β : Type} {p : Plan α σ} {rule : Entry α σ → Except Error β}
    {read : Nat → β} (all : ∀ (k : Nat) e, p.entries[k]? = some e → rule e = .ok (read k))
    {x : Error} (failed : p.entries.toList.mapM rule = .error x) : False := by
  obtain ⟨e, member, x, failed⟩ := Outcome.mapM_eq_error.mp ⟨x, failed⟩
  obtain ⟨k, at_k⟩ := List.mem_iff_getElem?.mp member
  rw [all k e (Array.getElem?_toList .. ▸ at_k)] at failed
  cases failed

namespace Program

variable {g : Graph α σ} {inputs outputs : List NodeId} {p : Plan α σ}
  {inv : σ → Prop} {w w' w₀ : σ} {f f' f₀ : Program α σ} {xs : List (DenseMatrix α)}
  {seeds : List (List (DenseMatrix α))}

/-! ### Two settled programs answer alike -/

section Steps

variable {β : Type} {t t' : Program α σ × σ} {after : Program α σ × σ → Program α σ × σ → Prop}

theorem agree_checked {check : Program α σ → Except Error Unit}
    {next : Unit → Run (Program α σ × σ) β} (same : check t.1 = check t'.1)
    (h : check t.1 = .ok () → Run.Agree (next ()) (next ()) t t' after) :
    Run.Agree (current >>= fun f => Run.ofExcept (check f) >>= next)
      (current >>= fun f => Run.ofExcept (check f) >>= next) t t' after := by
  change Run.Agree (Run.ofExcept (check t.1) >>= next) (Run.ofExcept (check t'.1) >>= next) t t' _
  rw [← same]
  cases checked : check t.1 with
  | error e => exact rfl
  | ok u => exact h checked

theorem agree_current {next : Program α σ → Run (Program α σ × σ) β}
    (h : Run.Agree (next t.1) (next t'.1) t t' after) :
    Run.Agree (current >>= next) (current >>= next) t t' after := h

theorem agree_sweep {act : Plan α σ → Sweep α σ Unit} {R : Slots α × σ → Slots α × σ → Prop}
    (h : Run.Agree (act t.1.plan) (act t'.1.plan) (t.1.slots, t.2) (t'.1.slots, t'.2) R) :
    Run.Agree (sweep act) (sweep act) t t' (fun u u' => ∃ s s', u.1 = { t.1 with slots := s } ∧
      u'.1 = { t'.1 with slots := s' } ∧ R (s, u.2) (s', u'.2)) := by
  obtain ⟨f, w⟩ := t
  obtain ⟨f', w'⟩ := t'
  simp only [Run.Agree, sweep] at h ⊢
  rcases ran : act f.plan (f.slots, w) with ⟨_ | _, s, v⟩ <;>
    rcases ran' : act f'.plan (f'.slots, w') with ⟨_ | _, s', v'⟩ <;>
    simp only [ran, ran'] at h ⊢
  · exact h
  · exact ⟨trivial, s, s', rfl, rfl, h.2⟩

end Steps

/-- Both programs are up to date for the same inputs. -/
def BothUpToDate (p : Plan α σ) (inv : σ → Prop) (w₀ : σ) (inputs : List NodeId)
    (xs : List (DenseMatrix α)) (t t' : Program α σ × σ) : Prop :=
  UpToDate p inv w₀ inputs xs t ∧ UpToDate p inv w₀ inputs xs t'

theorem BothUpToDate.value {t t' : Program α σ × σ} (both : BothUpToDate p inv w₀ inputs xs t t')
    (k : Nat) : t.1.slots.value k = t'.1.slots.value k :=
  both.1.current.unique both.2.current both.1.settled.fit both.2.settled.fit k

theorem BothUpToDate.outputs_eq {t t' : Program α σ × σ}
    (both : BothUpToDate p inv w₀ inputs xs t t') : t.1.outputs = t'.1.outputs := by
  unfold Program.outputs
  rw [both.1.settled.plan, both.2.settled.plan]
  exact List.map_congr_left fun k _ => both.value k

variable [Scalar α]

theorem agree_refresh (setting : p.Setting g inputs outputs inv w₀)
    (settled : Settled p inv w₀ inputs (f, w)) (settled' : Settled p inv w₀ inputs (f', w'))
    (fitting : p.Fitting p.inputs xs) :
    Run.Agree (refresh xs) (refresh xs) (f, w) (f', w') (BothUpToDate p inv w₀ inputs xs) := by
  refine Run.Agree.of_post (post_refresh setting settled fitting)
    (post_refresh setting settled' fitting) (fun _ _ _ _ fresh fresh' => ⟨rfl, fresh, fresh'⟩)
    ?_ ?_ ?_
  · intro x x' _ _ failed failed'
    exact Except.error.inj (failed.2.symm.trans failed'.2)
  · exact fun _ _ _ _ h => Plan.mapM_ne_error h.1.current h.2.2
  · exact fun _ _ _ _ h => Plan.mapM_ne_error h.2.current h.1.2

theorem agree_evaluate (setting : p.Setting g inputs outputs inv w₀)
    (settled : Settled p inv w₀ inputs (f, w)) (settled' : Settled p inv w₀ inputs (f', w')) :
    Run.Agree (evaluate xs) (evaluate xs) (f, w) (f', w') (BothUpToDate p inv w₀ inputs xs) := by
  have plan : f.plan = f'.plan := settled.plan.trans settled'.plan.symm
  refine agree_checked (by simp only [checkInputs, inputCount, plan]) ?_
  intro accepted
  have fitting := (checkInputs_eq_ok setting.layout settled.plan).mp accepted
  refine (agree_refresh setting settled settled' fitting).bind ?_
  exact fun _ _ _ both => ⟨both.outputs_eq, both⟩

theorem agree_forwardSweep (setting : p.Setting g inputs outputs inv w₀)
    {t t' : Program α σ × σ} (both : BothUpToDate p inv w₀ inputs xs t t')
    (seeding : ∀ direction ∈ seeds, p.Fitting p.inputs direction) :
    Run.Agree (sweep fun p => p.forwardSweep seeds) (sweep fun p => p.forwardSweep seeds) t t'
      (fun t t' => BothUpToDate p inv w₀ inputs xs t t' ∧ ∀ (k : Nat) e, p.entries[k]? = some e →
        t.1.slots.row seeds.length k = t'.1.slots.row seeds.length k) := by
  refine Run.Agree.of_post (post_forwardSweep setting both.1 seeding)
    (post_forwardSweep setting both.2 seeding) ?_ ?_ ?_ ?_
  · rintro _ _ _ _ ⟨fresh, rows⟩ ⟨fresh', rows'⟩
    refine ⟨rfl, ⟨fresh, fresh'⟩, ?_⟩
    intro k e at_k
    exact Except.ok.inj ((rows k e at_k).symm.trans (rows' k e at_k))
  · rintro x x' _ _ ⟨-, failed⟩ ⟨-, failed'⟩
    exact Except.error.inj (failed.symm.trans failed')
  · exact fun _ _ _ _ h => Plan.mapM_ne_error h.1.2 h.2.2
  · exact fun _ _ _ _ h => Plan.mapM_ne_error h.2.2 h.1.2

theorem agree_forward (setting : p.Setting g inputs outputs inv w₀)
    (settled : Settled p inv w₀ inputs (f, w)) (settled' : Settled p inv w₀ inputs (f', w')) :
    Run.Agree (forward xs seeds) (forward xs seeds) (f, w) (f', w')
      (BothUpToDate p inv w₀ inputs xs) := by
  have plan : f.plan = f'.plan := settled.plan.trans settled'.plan.symm
  refine agree_checked (by simp only [checkInputs, inputCount, plan]) ?_
  intro accepted
  refine agree_checked (by simp only [checkForward, inputCount, plan]) ?_
  intro accepted'
  have fitting := (checkInputs_eq_ok setting.layout settled.plan).mp accepted
  have seeding := (checkForward_eq_ok setting.layout settled.plan).mp accepted'
  refine (agree_refresh setting settled settled' fitting).bind ?_
  intro _ _ _ both
  refine (agree_forwardSweep setting both seeding).bind ?_
  intro _ t t' reached
  obtain ⟨both, rows⟩ := reached
  refine ⟨?_, both⟩
  rw [both.outputs_eq, both.1.settled.plan, both.2.settled.plan]
  refine congrArg _ (List.map_congr_left fun d few => List.map_congr_left fun k bound => ?_)
  obtain ⟨e, at_k⟩ := setting.layout.placed_output bound
  exact List.map_inj_left.mp (rows k e at_k) d few

theorem agree_adjoint (setting : p.Setting g inputs outputs inv w₀)
    (settled : Settled p inv w₀ inputs (f, w)) (settled' : Settled p inv w₀ inputs (f', w')) :
    Run.Agree (adjoint xs seeds) (adjoint xs seeds) (f, w) (f', w') fun _ _ => True := by
  have plan : f.plan = f'.plan := settled.plan.trans settled'.plan.symm
  refine agree_checked (by simp only [checkInputs, inputCount, plan]) ?_
  intro accepted
  refine agree_checked (by simp only [checkAdjoint, outputCount, plan]) ?_
  intro _
  have fitting := (checkInputs_eq_ok setting.layout settled.plan).mp accepted
  refine (agree_refresh setting settled settled' fitting).bind ?_
  rintro _ ⟨f, w⟩ ⟨f', w'⟩ both
  obtain rfl := both.1.settled.plan
  have plan : f'.plan = f.plan := both.2.settled.plan
  have swept : Run.Agree (f.plan.adjointSweep seeds) (f'.plan.adjointSweep seeds) (f.slots, w)
      (f'.slots, w') (f.plan.Twins inv seeds.length f.slots.value) := by
    rw [plan]
    exact Plan.agree_adjointSweep setting.layout setting.oblivious both.1.settled.fit
      both.2.settled.fit both.1.settled.state both.2.settled.state both.value seeds
  refine (agree_sweep swept).bind ?_
  rintro _ ⟨_, v⟩ ⟨_, v'⟩ ⟨s, s', rfl, rfl, twins⟩
  refine ⟨?_, trivial⟩
  have values : s.value = s'.value :=
    funext fun k => (twins.left.value k).trans (twins.right.value k).symm
  simp only [Program.outputs, plan, values]
  refine congrArg _ (List.map_congr_left fun d few => List.map_congr_left fun k _ => ?_)
  exact twins.adjoint d (List.mem_range.mp few) k

theorem agree_jacobian (setting : p.Setting g inputs outputs inv w₀)
    (settled : Settled p inv w₀ inputs (f, w)) (settled' : Settled p inv w₀ inputs (f', w'))
    (input output : Nat) :
    Run.Agree (jacobian input output xs) (jacobian input output xs) (f, w) (f', w')
      fun _ _ => True := by
  have plan : f.plan = f'.plan := settled.plan.trans settled'.plan.symm
  refine agree_current ?_
  simp only [inputCount, outputCount, plan]
  cases f'.plan.inputShape? input with
  | none => exact rfl
  | some inShape =>
    cases f'.plan.outputShape? output with
    | none => exact rfl
    | some outShape =>
      refine Run.Agree.check _ fun _ _ => ?_
      split
      · exact (agree_forward setting settled settled').bind fun _ _ _ _ => ⟨rfl, trivial⟩
      · exact (agree_adjoint setting settled settled').bind fun _ _ _ _ => ⟨rfl, trivial⟩

/-- A call answers alike in two settled programs. -/
theorem answer_eq (setting : p.Setting g inputs outputs inv w₀)
    (settled : Settled p inv w₀ inputs (f, w)) (settled' : Settled p inv w₀ inputs (f', w'))
    (c : Call α) : (c.run (f, w)).1 = (c.run (f', w')).1 := by
  have mapped {β : Type} {act : Run (Program α σ × σ) β} {after}
      (agree : Run.Agree act act (f, w) (f', w') after) (form : β → Answer α) :
      ((form <$> act) (f, w)).1 = ((form <$> act) (f', w')).1 :=
    (agree.map form).outcome
  cases c with
  | evaluate xs => exact mapped (agree_evaluate setting settled settled') _
  | forward xs seeds => exact mapped (agree_forward setting settled settled') _
  | adjoint xs seeds => exact mapped (agree_adjoint setting settled settled') _
  | jacobian input output xs => exact mapped (agree_jacobian setting settled settled' _ _) _

/-! ### Calls keep a program settled -/

theorem settled_evaluate (setting : p.Setting g inputs outputs inv w₀)
    (settled : Settled p inv w₀ inputs (f, w)) :
    Run.Post (evaluate xs) (f, w) (fun _ => Settled p inv w₀ inputs)
      (fun _ => Settled p inv w₀ inputs) := by
  cases checked : f.checkInputs xs with
  | error e => exact post_rejected checked settled
  | ok u =>
    have fitting := (checkInputs_eq_ok setting.layout settled.plan).mp checked
    exact (post_evaluate setting settled fitting).imp (fun _ _ h => h.1.settled) fun _ _ h => h.1

theorem settled_forward (setting : p.Setting g inputs outputs inv w₀)
    (settled : Settled p inv w₀ inputs (f, w)) :
    Run.Post (forward xs seeds) (f, w) (fun _ => Settled p inv w₀ inputs)
      (fun _ => Settled p inv w₀ inputs) := by
  cases checked : f.checkInputs xs with
  | error e => exact post_rejected checked settled
  | ok u =>
    cases checked' : f.checkForward seeds with
    | error e => exact post_accepted checked (post_rejected checked' settled)
    | ok u =>
      have fitting := (checkInputs_eq_ok setting.layout settled.plan).mp checked
      have seeding := (checkForward_eq_ok setting.layout settled.plan).mp checked'
      exact (post_forward setting settled fitting seeding).imp (fun _ _ h => h.1.settled)
        fun _ _ h => h.1

theorem settled_adjoint (setting : p.Setting g inputs outputs inv w₀)
    (settled : Settled p inv w₀ inputs (f, w)) :
    Run.Post (adjoint xs seeds) (f, w) (fun _ => Settled p inv w₀ inputs)
      (fun _ => Settled p inv w₀ inputs) := by
  cases checked : f.checkInputs xs with
  | error e => exact post_rejected checked settled
  | ok u =>
    cases checked' : f.checkAdjoint seeds with
    | error e => exact post_accepted checked (post_rejected checked' settled)
    | ok u =>
      have fitting := (checkInputs_eq_ok setting.layout settled.plan).mp checked
      have seeding := (checkAdjoint_eq_ok setting.layout settled.plan).mp checked'
      exact (post_adjoint setting settled fitting seeding (Q := fun _ => True)
        fun _ _ _ _ _ => Run.Post.any).imp (fun _ _ h => h.1.settled) fun _ _ h => h

theorem settled_jacobian (setting : p.Setting g inputs outputs inv w₀)
    (settled : Settled p inv w₀ inputs (f, w)) (input output : Nat) :
    Run.Post (jacobian input output xs) (f, w) (fun _ => Settled p inv w₀ inputs)
      (fun _ => Settled p inv w₀ inputs) := by
  refine post_current ?_
  cases f.plan.inputShape? input with
  | none => exact settled
  | some inShape =>
    cases f.plan.outputShape? output with
    | none => exact settled
    | some outShape =>
      refine Run.Post.check _ (fun _ _ => settled) fun _ _ => ?_
      split
      · exact (settled_forward setting settled).bind fun _ _ h => h
      · exact (settled_adjoint setting settled).bind fun _ _ h => h

/-- Every call keeps a program settled, also one that fails. -/
theorem Settled.run (setting : p.Setting g inputs outputs inv w₀)
    (settled : Settled p inv w₀ inputs (f, w)) (c : Call α) :
    Settled p inv w₀ inputs (c.run (f, w)).2 := by
  cases c with
  | evaluate xs => exact ((settled_evaluate setting settled).map _).always
  | forward xs seeds => exact ((settled_forward setting settled).map _).always
  | adjoint xs seeds => exact ((settled_adjoint setting settled).map _).always
  | jacobian input output xs =>
    exact ((settled_jacobian setting settled input output).map _).always

theorem create_eq_ok {name : String} (created : create name g inputs outputs = .ok f₀) :
    Plan.compile g inputs outputs = .ok f₀.plan ∧
      f₀ = ⟨name, f₀.plan, f₀.plan.startSlots, .compiled, []⟩ := by
  obtain ⟨p, compiled, rfl⟩ := Outcome.map_eq_ok.mp created
  exact ⟨compiled, rfl⟩

theorem setting_of_create {name : String} (built : g.Built)
    (created : create name g inputs outputs = .ok f₀) (oblivious : g.Oblivious outputs inv)
    (hw₀ : inv w₀) : f₀.plan.Setting g inputs outputs inv w₀ where
  layout := Plan.layout_of_compile built (create_eq_ok created).1
  sound := built.sound
  oblivious := oblivious
  state := hw₀

/-- A program is settled from its making on. -/
theorem Reached.settled {name : String} (setting : f₀.plan.Setting g inputs outputs inv w₀)
    (created : create name g inputs outputs = .ok f₀) (reached : Reached inv f₀ f) (hw : inv w) :
    Settled f₀.plan inv w₀ inputs (f, w) := by
  induction reached generalizing w with
  | fresh =>
    obtain ⟨-, fresh⟩ := create_eq_ok created
    refine ⟨rfl, ?_, hw, ?_⟩
    · rw [fresh]
      exact Plan.fit_startSlots (setting.layout.constant_shape setting.sound)
    · rw [fresh]
      intro evaluated
      cases evaluated
  | @call f before c v allowed ih =>
    have settled := Settled.run setting (ih allowed) c
    exact { settled with state := hw }

/-- Whatever calls came before, a program answers the next call as a new one does. When its values
are said to belong to the last inputs, every place holds the value of its node for them. -/
theorem history_invisible {name : String} (built : g.Built)
    (created : create name g inputs outputs = .ok f₀) (oblivious : g.Oblivious outputs inv)
    (reached : Reached inv f₀ f) (hw : inv w) (hw' : inv w') :
    (∀ next : Call α, (next.run (f, w)).1 = (next.run (f₀, w')).1) ∧
      (f.state = .evaluated → ∀ (k : Nat) e, f.plan.entries[k]? = some e →
        g.value w (Graph.supplied inputs f.lastInputs) e.node = .ok (f.slots.value k)) := by
  have setting := setting_of_create built created oblivious hw
  have settled := reached.settled setting created hw
  have settled₀ := Reached.fresh.settled setting created hw'
  refine ⟨answer_eq setting settled settled₀, ?_⟩
  intro evaluated k e at_k
  have plan : f.plan = f₀.plan := settled.plan
  exact setting.layout.current (settled.current evaluated) (plan ▸ at_k)

theorem history_invisible_sharing :
    ∃ f₀ f : Program Int Unit, create "f" Graph.sharing [⟨0⟩, ⟨1⟩] [⟨5⟩, ⟨0⟩] = .ok f₀ ∧
      Reached (fun _ => True) f₀ f ∧ f.state = .evaluated ∧
      f.lastInputs = [.scalar 2, .column [7, 8]] ∧
      ∀ next : Call Int, (next.run (f, ())).1 = (next.run (f₀, ())).1 := by
  obtain ⟨f₀, created⟩ : ∃ f₀, create "f" Graph.sharing [⟨0⟩, ⟨1⟩] [⟨5⟩, ⟨0⟩] = .ok f₀ := ⟨_, rfl⟩
  have reached : Reached (fun _ => True) f₀ _ :=
    .call (.call .fresh (.evaluate [.scalar 2, .column [7, 8]]) (w := ()) trivial)
      (.forward [.scalar 2] []) (w := ()) trivial
  refine ⟨f₀, _, created, reached, ?_, ?_,
    (history_invisible Graph.built_sharing created (Graph.stateless_sharing.oblivious _ _) reached
      trivial trivial).1⟩
  · cases created
    decide +kernel
  · cases created
    decide +kernel

end Program

end Cotangent
