import Cotangent.Program.Basic
import Cotangent.Proofs.ForwardSweep
import Cotangent.Proofs.AdjointSweep

/-! The calls of a program. A call checks its arguments, brings the values up to date and sweeps.
The one thing that holds between calls, after failures too, is that the shapes fit and that the
values belong to the last inputs if they are said to. That is enough for a call to know what it
reads. -/
namespace Cotangent

variable {α σ : Type}

namespace Plan

/-- A plan of a sound graph, whose operations are oblivious in the states they are called in. -/
structure Setting (g : Graph α σ) (inputs outputs : List NodeId) (p : Plan α σ) (inv : σ → Prop)
    (w₀ : σ) : Prop where
  layout : p.Layout g inputs outputs
  sound : g.Sound
  oblivious : g.Oblivious outputs inv
  state : inv w₀

end Plan

namespace Program

/-- Accepted arguments are those that have the shapes of their places. -/
theorem checkArguments_eq_ok {p : Plan α σ} {positions : List Nat} {xs : List (DenseMatrix α)}
    {what : String} {u : Unit} (placed : ∀ k ∈ positions, ∃ e, p.entries[k]? = some e) :
    checkArguments what positions.length (fun i => positions[i]?.bind p.shapeAt?) xs = .ok u ↔
      p.Fitting positions xs := by
  have shapes : ∀ (i k : Nat), positions[i]? = some k → ∃ e, p.entries[k]? = some e ∧
      positions[i]?.bind p.shapeAt? = some e.shape := by
    intro i k at_i
    obtain ⟨e, at_k⟩ := placed k (List.mem_of_getElem? at_i)
    exact ⟨e, at_k, by simp [at_i, Plan.shapeAt?, at_k]⟩
  unfold checkArguments Plan.Fitting
  by_cases length : xs.length = positions.length
  · rw [if_neg (not_not_intro length)]
    rw [Outcome.forM_eq_ok, List.forall₂_iff_get]
    constructor
    · intro checked
      refine ⟨length.symm, ?_⟩
      intro i inside inside'
      obtain ⟨e, at_k, shape⟩ := shapes i _ (List.getElem?_eq_getElem inside)
      have fits := checked (xs[i], i)
        (List.mem_zipIdx_iff_getElem?.mpr (List.getElem?_eq_getElem inside'))
      simp only [shape] at fits
      exact ⟨e, at_k, Sweep.checkShape_eq_ok.mp fits⟩
    · rintro ⟨-, fits⟩ ⟨m, i⟩ member
      have at_i : xs[i]? = some m := List.mem_zipIdx_iff_getElem?.mp member
      obtain ⟨inside, rfl⟩ := List.getElem?_eq_some_iff.mp at_i
      have inside' := length ▸ inside
      obtain ⟨e, at_k, shape⟩ := shapes i _ (List.getElem?_eq_getElem inside')
      obtain ⟨e', at_k', fit⟩ := fits i inside' inside
      simp only [List.get_eq_getElem] at at_k' fit
      cases at_k.symm.trans at_k'
      simp only [shape]
      exact Sweep.checkShape_eq_ok.mpr fit
  · rw [if_pos length]
    constructor
    · intro accepted
      cases accepted
    · intro fitting
      exact absurd fitting.length_eq.symm length

variable {g : Graph α σ} {inputs outputs : List NodeId} {p : Plan α σ}
  {inv : σ → Prop} {w w₀ : σ} {f : Program α σ} {xs : List (DenseMatrix α)}
  {seeds : List (List (DenseMatrix α))}

/-- What holds between calls: the plan has not changed, shapes fit, and values that are said to
belong to the last inputs do. -/
structure Settled (p : Plan α σ) (inv : σ → Prop) (w₀ : σ) (inputs : List NodeId)
    (t : Program α σ × σ) : Prop where
  plan : t.1.plan = p
  fit : t.1.slots.Fit p
  state : inv t.2
  current : t.1.state = .evaluated →
    t.1.slots.Current p w₀ (Graph.supplied inputs t.1.lastInputs)

/-- What holds after a successful value sweep: the values belong to the inputs. -/
structure UpToDate (p : Plan α σ) (inv : σ → Prop) (w₀ : σ) (inputs : List NodeId)
    (xs : List (DenseMatrix α)) (t : Program α σ × σ) : Prop where
  settled : Settled p inv w₀ inputs t
  evaluated : t.1.state = .evaluated
  last : t.1.lastInputs = xs

theorem UpToDate.current {t : Program α σ × σ} (fresh : UpToDate p inv w₀ inputs xs t) :
    t.1.slots.Current p w₀ (Graph.supplied inputs xs) :=
  fresh.last ▸ fresh.settled.current fresh.evaluated

/-- A sweep changes numbers only. -/
theorem UpToDate.swept {f : Program α σ} {s : Slots α} {w' : σ}
    (fresh : UpToDate p inv w₀ inputs xs (f, w)) (fit : s.Fit p) (state : inv w')
    (current : s.Current p w₀ (Graph.supplied inputs xs)) :
    UpToDate p inv w₀ inputs xs ({ f with slots := s }, w') where
  settled := ⟨fresh.settled.plan, fit, state, fun _ => fresh.last.symm ▸ current⟩
  evaluated := fresh.evaluated
  last := fresh.last

theorem checkInputs_eq_ok [Scalar α] (layout : p.Layout g inputs outputs)
    (plan : f.plan = p) {u : Unit} : f.checkInputs xs = .ok u ↔ p.Fitting p.inputs xs := by
  subst plan
  exact checkArguments_eq_ok fun _ bound => layout.placed_input bound

theorem checkForward_eq_ok [Scalar α] (layout : p.Layout g inputs outputs)
    (plan : f.plan = p) {u : Unit} :
    f.checkForward seeds = .ok u ↔ ∀ direction ∈ seeds, p.Fitting p.inputs direction := by
  subst plan
  unfold checkForward
  rw [Outcome.forM_eq_ok]
  exact forall₂_congr fun _ _ =>
    checkArguments_eq_ok fun _ bound => layout.placed_input bound

theorem checkAdjoint_eq_ok [Scalar α] (layout : p.Layout g inputs outputs)
    (plan : f.plan = p) {u : Unit} :
    f.checkAdjoint seeds = .ok u ↔ ∀ direction ∈ seeds, p.Fitting p.outputs direction := by
  subst plan
  unfold checkAdjoint
  rw [Outcome.forM_eq_ok]
  exact forall₂_congr fun _ _ =>
    checkArguments_eq_ok fun _ bound => layout.placed_output bound

section Steps

variable {β : Type} {t : Program α σ × σ} {done : β → Program α σ × σ → Prop}
  {failed : Error → Program α σ × σ → Prop}

theorem post_current {next : Program α σ → Run (Program α σ × σ) β}
    (h : Run.Post (next t.1) t done failed) : Run.Post (current >>= next) t done failed := h

/-- A call goes on when a check accepts. -/
theorem post_accepted {check : Program α σ → Except Error Unit}
    {next : Unit → Run (Program α σ × σ) β} (accepted : check t.1 = .ok ())
    (h : Run.Post (next ()) t done failed) :
    Run.Post (current >>= fun f => Run.ofExcept (check f) >>= next) t done failed := by
  change Run.Post (Run.ofExcept (check t.1) >>= next) t done failed
  rw [accepted]
  exact h

/-- A call has no effect when a check refuses. -/
theorem post_rejected {check : Program α σ → Except Error Unit}
    {next : Unit → Run (Program α σ × σ) β} {e : Error} (refused : check t.1 = .error e)
    (h : failed e t) :
    Run.Post (current >>= fun f => Run.ofExcept (check f) >>= next) t done failed := by
  change Run.Post (Run.ofExcept (check t.1) >>= next) t done failed
  rw [refused]
  exact h

/-- A call that answers has passed its check. -/
theorem accepted_of_answer {check : Program α σ → Except Error Unit}
    {next : Unit → Run (Program α σ × σ) β} {x : β}
    (answered : ((current >>= fun f => Run.ofExcept (check f) >>= next) t).1 = .ok x) :
    check t.1 = .ok () ∧ (next () t).1 = .ok x := by
  cases checked : check t.1 with
  | ok u =>
    change ((Run.ofExcept (check t.1) >>= next) t).1 = .ok x at answered
    rw [checked] at answered
    exact ⟨rfl, answered⟩
  | error e =>
    have refused : Run.Post (current >>= fun f => Run.ofExcept (check f) >>= next) t
        (fun _ _ => False) fun _ _ => True := post_rejected checked trivial
    exact (refused.result answered).elim

/-- A sweep of a program is a sweep of its plan. -/
theorem post_sweep {act : Plan α σ → Sweep α σ Unit} {done : Unit → Slots α × σ → Prop}
    {failed : Error → Slots α × σ → Prop} (h : Run.Post (act f.plan) (f.slots, w) done failed) :
    Run.Post (sweep act) (f, w)
      (fun u t => ∃ s, t.1 = { f with slots := s } ∧ done u (s, t.2))
      (fun x t => ∃ s, t.1 = { f with slots := s } ∧ failed x (s, t.2)) := by
  simp only [Run.Post, sweep] at h ⊢
  rcases ran : act f.plan (f.slots, w) with ⟨_ | _, s, w'⟩ <;> rw [ran] at h <;>
    exact ⟨s, rfl, h⟩

end Steps

variable [Scalar α]

/-- Values are brought up to date, or some node of the plan has no value. -/
theorem post_refresh (setting : p.Setting g inputs outputs inv w₀)
    (settled : Settled p inv w₀ inputs (f, w)) (fitting : p.Fitting p.inputs xs) :
    Run.Post (refresh xs) (f, w) (fun _ => UpToDate p inv w₀ inputs xs)
      (fun x t => (Settled p inv w₀ inputs t ∧ t.1.state = .compiled) ∧ p.entries.toList.mapM
        (fun e => p.graph.value w₀ (Graph.supplied inputs xs) e.node) = .error x) := by
  obtain ⟨rfl, fit, hw, current⟩ := settled
  -- a sweep is skipped when the values are said to belong to these very inputs
  by_cases skipped : f.state = .evaluated ∧ f.lastInputs = xs
  · simp only [Run.Post, refresh, if_pos skipped]
    exact ⟨⟨rfl, fit, hw, current⟩, skipped.1, skipped.2⟩
  · have swept := (Plan.post_bindInputs setting.layout fit hw fitting).bind_sure fun _ t ready =>
      Plan.post_valueSweep setting.layout setting.sound setting.oblivious setting.state ready
    simp only [Run.Post, refresh, if_neg skipped] at swept ⊢
    rcases ran : (f.plan.bindInputs xs >>= fun _ => f.plan.valueSweep) (f.slots, w) with
      ⟨x | _, s, w'⟩
    · simp only [ran] at swept ⊢
      obtain ⟨ready, failed⟩ := swept
      refine ⟨⟨⟨rfl, ready.fit, ready.state, ?_⟩, trivial⟩, failed⟩
      intro evaluated
      cases evaluated
    · simp only [ran] at swept ⊢
      obtain ⟨ready, current⟩ := swept
      exact ⟨⟨rfl, ready.fit, ready.state, fun _ => current⟩, rfl, rfl⟩

theorem post_forwardSweep (setting : p.Setting g inputs outputs inv w₀)
    (fresh : UpToDate p inv w₀ inputs xs (f, w))
    (seeding : ∀ direction ∈ seeds, p.Fitting p.inputs direction) :
    Run.Post (sweep fun p => p.forwardSweep seeds) (f, w)
      (fun _ t => UpToDate p inv w₀ inputs xs t ∧ ∀ (k : Nat) e, p.entries[k]? = some e →
        g.recurse (g.rowRule w₀ (Graph.supplied inputs xs) (seeds.map (Graph.supplied inputs)))
          e.node = .ok (t.1.slots.row seeds.length k))
      (fun x t => UpToDate p inv w₀ inputs xs t ∧ p.entries.toList.mapM (fun e => g.recurse
        (g.rowRule w₀ (Graph.supplied inputs xs) (seeds.map (Graph.supplied inputs))) e.node) =
          .error x) := by
  obtain rfl := fresh.settled.plan
  have swept := Plan.post_forwardSweep setting.layout setting.sound setting.oblivious
    setting.state fresh.settled.fit fresh.settled.state fresh.current seeding
  refine (post_sweep swept).imp ?_ ?_
  · rintro _ ⟨_, w'⟩ ⟨s, rfl, ⟨fit, hw, current⟩, rows⟩
    exact ⟨fresh.swept fit hw current, rows⟩
  · rintro x ⟨_, w'⟩ ⟨s, rfl, ⟨fit, hw, current⟩, failed⟩
    exact ⟨fresh.swept fit hw current, failed⟩

theorem post_adjointSweep (setting : p.Setting g inputs outputs inv w₀)
    (fresh : UpToDate p inv w₀ inputs xs (f, w)) {Q : Slots α → Prop}
    (swept : ∀ s w, s.Fit p → inv w → s.Current p w₀ (Graph.supplied inputs xs) →
      Run.Post (p.adjointSweep seeds) (s, w) (fun _ t => Q t.1) (fun _ _ => True)) :
    Run.Post (sweep fun p => p.adjointSweep seeds) (f, w)
      (fun _ t => UpToDate p inv w₀ inputs xs t ∧ Q t.1.slots)
      (fun _ => UpToDate p inv w₀ inputs xs) := by
  obtain rfl := fresh.settled.plan
  have kept := Plan.post_adjointSweep setting.layout setting.oblivious fresh.settled.fit
    fresh.settled.state fresh.current seeds
  have found := swept _ _ fresh.settled.fit fresh.settled.state fresh.current
  refine (post_sweep (kept.and found)).imp ?_ ?_
  · rintro _ ⟨_, w'⟩ ⟨s, rfl, ⟨fit, hw, current⟩, found⟩
    exact ⟨fresh.swept fit hw current, found⟩
  · rintro x ⟨_, w'⟩ ⟨s, rfl, ⟨fit, hw, current⟩, -⟩
    exact fresh.swept fit hw current

/-! ### The three calls -/

theorem post_evaluate (setting : p.Setting g inputs outputs inv w₀)
    (settled : Settled p inv w₀ inputs (f, w)) (fitting : p.Fitting p.inputs xs) :
    Run.Post (evaluate xs) (f, w)
      (fun outs t => UpToDate p inv w₀ inputs xs t ∧ outs = p.outputs.map t.1.slots.value)
      (fun x t => Settled p inv w₀ inputs t ∧ p.entries.toList.mapM
        (fun e => p.graph.value w₀ (Graph.supplied inputs xs) e.node) = .error x) := by
  refine post_accepted ((checkInputs_eq_ok setting.layout settled.plan).mpr fitting) ?_
  refine Run.Post.bind ((post_refresh setting settled fitting).imp (fun _ _ => id) ?_) ?_
  · rintro x t ⟨⟨settled, -⟩, failed⟩
    exact ⟨settled, failed⟩
  · rintro _ ⟨f, w⟩ fresh
    refine ⟨fresh, ?_⟩
    rw [← fresh.settled.plan]
    rfl

theorem post_forward (setting : p.Setting g inputs outputs inv w₀)
    (settled : Settled p inv w₀ inputs (f, w)) (fitting : p.Fitting p.inputs xs)
    (seeding : ∀ direction ∈ seeds, p.Fitting p.inputs direction) :
    Run.Post (forward xs seeds) (f, w)
      (fun r t => UpToDate p inv w₀ inputs xs t ∧
        (∀ (k : Nat) e, p.entries[k]? = some e →
          g.recurse (g.rowRule w₀ (Graph.supplied inputs xs) (seeds.map (Graph.supplied inputs)))
            e.node = .ok (t.1.slots.row seeds.length k)) ∧
        r = ⟨p.outputs.map t.1.slots.value,
          (List.range seeds.length).map fun d => p.outputs.map (t.1.slots.forward d)⟩)
      (fun x t => Settled p inv w₀ inputs t ∧
        (p.entries.toList.mapM
          (fun e => p.graph.value w₀ (Graph.supplied inputs xs) e.node) = .error x ∨
        UpToDate p inv w₀ inputs xs t ∧ p.entries.toList.mapM (fun e => g.recurse
          (g.rowRule w₀ (Graph.supplied inputs xs) (seeds.map (Graph.supplied inputs))) e.node) =
            .error x)) := by
  refine post_accepted ((checkInputs_eq_ok setting.layout settled.plan).mpr fitting) ?_
  refine post_accepted ((checkForward_eq_ok setting.layout settled.plan).mpr seeding) ?_
  refine Run.Post.bind ((post_refresh setting settled fitting).imp (fun _ _ => id) ?_) ?_
  · rintro x t ⟨⟨settled, -⟩, failed⟩
    exact ⟨settled, .inl failed⟩
  · rintro _ ⟨f, w⟩ fresh
    refine Run.Post.bind ((post_forwardSweep setting fresh seeding).imp (fun _ _ => id) ?_) ?_
    · exact fun _ _ failed => ⟨failed.1.settled, .inr failed⟩
    · rintro _ t ⟨fresh, rows⟩
      refine ⟨fresh, rows, ?_⟩
      rw [← fresh.settled.plan]
      rfl

/-- An adjoint call answers what an adjoint sweep over current values leaves at the inputs. -/
theorem post_adjoint (setting : p.Setting g inputs outputs inv w₀)
    (settled : Settled p inv w₀ inputs (f, w)) (fitting : p.Fitting p.inputs xs)
    (seeding : ∀ direction ∈ seeds, p.Fitting p.outputs direction) {Q : Slots α → Prop}
    (swept : ∀ s w, s.Fit p → inv w → s.Current p w₀ (Graph.supplied inputs xs) →
      Run.Post (p.adjointSweep seeds) (s, w) (fun _ t => Q t.1) (fun _ _ => True)) :
    Run.Post (adjoint xs seeds) (f, w)
      (fun r t => UpToDate p inv w₀ inputs xs t ∧ Q t.1.slots ∧ r = ⟨p.outputs.map t.1.slots.value,
        (List.range seeds.length).map fun d => p.inputs.map (t.1.slots.adjoint d)⟩)
      (fun _ => Settled p inv w₀ inputs) := by
  refine post_accepted ((checkInputs_eq_ok setting.layout settled.plan).mpr fitting) ?_
  refine post_accepted ((checkAdjoint_eq_ok setting.layout settled.plan).mpr seeding) ?_
  refine Run.Post.bind ((post_refresh setting settled fitting).imp (fun _ _ => id) ?_) ?_
  · exact fun _ _ failed => failed.1.1
  · rintro _ ⟨f, w⟩ fresh
    refine Run.Post.bind ((post_adjointSweep setting fresh swept).imp (fun _ _ => id) ?_) ?_
    · exact fun _ _ fresh => fresh.settled
    · rintro _ t ⟨fresh, found⟩
      refine ⟨fresh, found, ?_⟩
      rw [← fresh.settled.plan]
      rfl

/-! ### Calls that succeed have accepted arguments -/

theorem accepted_of_forward {r : Sensitivities α} (answered : (forward xs seeds (f, w)).1 = .ok r) :
    f.checkInputs xs = .ok () ∧ f.checkForward seeds = .ok () := by
  obtain ⟨checked, rest⟩ := accepted_of_answer answered
  exact ⟨checked, (accepted_of_answer rest).1⟩

theorem accepted_of_adjoint {r : Sensitivities α} (answered : (adjoint xs seeds (f, w)).1 = .ok r) :
    f.checkInputs xs = .ok () ∧ f.checkAdjoint seeds = .ok () := by
  obtain ⟨checked, rest⟩ := accepted_of_answer answered
  exact ⟨checked, (accepted_of_answer rest).1⟩

end Program

end Cotangent
