import Cotangent.Proofs.SafeCalls

/-! The stages of a call. A call that passes its checks brings the values up to date, then makes one
sweep for sensitivities or none, and then reads its answer off the numbers; a call that does not is
over before the first of these. All four calls are of this form, so what is to be said of every call
is said of the stages. -/
namespace Cotangent

variable {α σ : Type}

/-- The two sweeps for sensitivities. -/
inductive SweepKind where
  | forward
  | adjoint
  deriving DecidableEq, Repr

/-- The positions where a program gets its arguments and reads its answers are in the plan. -/
structure Plan.Placed (p : Plan α σ) : Prop where
  inputs : ∀ k ∈ p.inputs, ∃ e, p.entries[k]? = some e
  outputs : ∀ k ∈ p.outputs, ∃ e, p.entries[k]? = some e

theorem Plan.Layout.placed {g : Graph α σ} {inputs outputs : List NodeId} {p : Plan α σ}
    (layout : p.Layout g inputs outputs) : p.Placed where
  inputs _ := layout.placed_input
  outputs _ := layout.placed_output

/-- The inputs that a call is made with. -/
def Call.inputs : Call α → List (DenseMatrix α)
  | .evaluate xs => xs
  | .forward xs _ => xs
  | .adjoint xs _ => xs
  | .jacobian _ _ xs => xs

variable [Scalar α]

/-- The sweep of a kind for seeds by direction. -/
def Plan.sensitize (p : Plan α σ) :
    SweepKind × List (List (DenseMatrix α)) → Sweep α σ Unit
  | (.forward, seeds) => p.forwardSweep seeds
  | (.adjoint, seeds) => p.adjointSweep seeds

namespace Call

/-- The checks of a call, in their order. -/
def check (f : Program α σ) : Call α → Except Error Unit
  | .evaluate xs => f.checkInputs xs
  | .forward xs seeds => do
    f.checkInputs xs
    f.checkForward seeds
  | .adjoint xs seeds => do
    f.checkInputs xs
    f.checkAdjoint seeds
  | .jacobian input output xs =>
    if f.inputCount ≤ input then .error (.invalidArgument (.inputIndex input f.inputCount))
    else if f.outputCount ≤ output then
      .error (.invalidArgument (.outputIndex output f.outputCount))
    else do
      checkRoom (elements f (.jacobian input output xs))
      f.checkInputs xs

/-- Admitted calls are those that pass the checks. -/
theorem admitted_iff {f : Program α σ} {c : Call α} : c.Admitted f ↔ c.check f = .ok () := by
  constructor
  · rintro ⟨accepted, room⟩
    cases accepted with
    | evaluate checked => exact checked
    | forward checked checked' => exact Outcome.bind_eq_ok.mpr ⟨(), checked, checked'⟩
    | adjoint checked checked' => exact Outcome.bind_eq_ok.mpr ⟨(), checked, checked'⟩
    | jacobian column row checked =>
      rw [check, if_neg (Nat.not_le.mpr column), if_neg (Nat.not_le.mpr row)]
      exact Outcome.bind_eq_ok.mpr ⟨(), checkRoom_of_lt room, checked⟩
  · intro passed
    have few : 0 < wordLimit := by decide
    cases c with
    | evaluate xs => exact ⟨.evaluate passed, few⟩
    | forward xs seeds =>
      obtain ⟨_, checked, checked'⟩ := Outcome.bind_eq_ok.mp passed
      exact ⟨.forward checked checked', few⟩
    | adjoint xs seeds =>
      obtain ⟨_, checked, checked'⟩ := Outcome.bind_eq_ok.mp passed
      exact ⟨.adjoint checked checked', few⟩
    | jacobian input output xs =>
      rw [check] at passed
      split at passed
      · cases passed
      next column =>
        split at passed
        · cases passed
        next row =>
          obtain ⟨_, room, checked⟩ := Outcome.bind_eq_ok.mp passed
          exact ⟨.jacobian (Nat.not_le.mp column) (Nat.not_le.mp row) checked,
            checkRoom_eq_ok_iff.mp room⟩

theorem Admitted.inputs_checked {f : Program α σ} {c : Call α} (admitted : c.Admitted f) :
    f.checkInputs c.inputs = .ok () := by
  cases admitted.accepted <;> assumption

/-- Accepted arguments without room for the matrix they ask for fail the check for it. -/
theorem Accepted.check_of_crowded {f : Program α σ} {c : Call α} (accepted : c.Accepted f)
    (crowded : wordLimit ≤ c.elements f) : c.check f = .error .sizeOverflow := by
  have few : 0 < wordLimit := by decide
  cases accepted with
  | evaluate | forward | adjoint => exact absurd few (Nat.not_lt.mpr crowded)
  | jacobian column row =>
    rw [check, if_neg (Nat.not_le.mpr column), if_neg (Nat.not_le.mpr row), checkRoom_of_le crowded]
    rfl

theorem exists_refusal {f : Program α σ} {c : Call α} (rejected : ¬ c.Admitted f) :
    ∃ e, c.check f = .error e := by
  cases checked : c.check f with
  | ok u => exact absurd (admitted_iff.mpr checked) rejected
  | error e => exact ⟨e, rfl⟩

/-- The sweep that a call makes for sensitivities, with its seeds. -/
def task (f : Program α σ) : Call α → Option (SweepKind × List (List (DenseMatrix α)))
  | .evaluate _ => none
  | .forward _ seeds => some (.forward, seeds)
  | .adjoint _ seeds => some (.adjoint, seeds)
  | .jacobian input output _ =>
    let nin := (f.plan.inputShape? input).elim 0 Shape.elements
    let nout := (f.plan.outputShape? output).elim 0 Shape.elements
    if nin ≤ nout then
      some (.forward, (List.range nin).map fun j =>
        Program.unitSeeds f.inputCount input j f.plan.inputShape?)
    else
      some (.adjoint, (List.range nout).map fun k =>
        Program.unitSeeds f.outputCount output k f.plan.outputShape?)

/-- The sensitivities that a sweep of a kind has left. -/
def found (t : Program α σ) (count : Nat) : SweepKind → Sensitivities α
  | .forward =>
    ⟨t.outputs, (List.range count).map fun d => t.plan.outputs.map (t.slots.forward d)⟩
  | .adjoint =>
    ⟨t.outputs, (List.range count).map fun d => t.plan.inputs.map (t.slots.adjoint d)⟩

/-- What a call of a program reads off the numbers after its sweeps. -/
def reading (f : Program α σ) : Call α → Program α σ → Answer α
  | .evaluate _, t => .outputs t.outputs
  | .forward _ seeds, t => .sensitivities (found t seeds.length .forward)
  | .adjoint _ seeds, t => .sensitivities (found t seeds.length .adjoint)
  | .jacobian input output _, t =>
    let nin := (f.plan.inputShape? input).elim 0 Shape.elements
    let nout := (f.plan.outputShape? output).elim 0 Shape.elements
    .matrix <| if nin ≤ nout then
      .ofFn nout nin fun k j => Program.element (found t nin .forward) j output k
    else
      .ofFn nout nin fun k j => Program.element (found t nout .adjoint) k input j

/-- The sweep for sensitivities that is asked for, if any. -/
def sweeps : Option (SweepKind × List (List (DenseMatrix α))) → Run (Program α σ × σ) Unit
  | none => pure ()
  | some task => Program.sweep fun p => p.sensitize task

/-- A call that passes its checks. -/
def stages (f : Program α σ) (c : Call α) : Run (Program α σ × σ) (Answer α) := do
  Program.refresh c.inputs
  sweeps (c.task f)
  return c.reading f (← Program.current)

end Call

omit [Scalar α] in
theorem Run.map_apply {β γ : Type} (act : Run σ β) (form : β → γ) (s : σ) :
    (form <$> act) s = ((act s).1.map form, (act s).2) := by
  rw [← bind_pure_comp, bind_apply]
  rcases act s with ⟨_ | _, _⟩ <;> rfl

namespace Program

variable {f : Program α σ} {w : σ}

section Checks

omit [Scalar α]

variable {β : Type} {check : Program α σ → Except Error Unit} {t : Program α σ × σ}
  {next : Unit → Run (Program α σ × σ) β}

theorem run_checked (accepted : check t.1 = .ok ()) :
    (current >>= fun f => Run.ofExcept (check f) >>= next) t = next () t := by
  change (Run.ofExcept (check t.1) >>= next) t = _
  rw [accepted]
  rfl

theorem run_refused {e : Error} (refused : check t.1 = .error e) :
    (current >>= fun f => Run.ofExcept (check f) >>= next) t = (.error e, t) := by
  change (Run.ofExcept (check t.1) >>= next) t = _
  rw [refused]
  rfl

/-- Either of two checks may refuse. -/
theorem run_refused_by_either {check' : Program α σ → Except Error Unit} {e : Error}
    (refused : (check t.1 >>= fun _ => check' t.1) = .error e) :
    (current >>= fun f => Run.ofExcept (check f) >>= fun _ =>
      current >>= fun f => Run.ofExcept (check' f) >>= next) t = (.error e, t) := by
  cases checked : check t.1 with
  | error e' =>
    rw [checked] at refused
    cases refused
    exact run_refused checked
  | ok u =>
    rw [checked] at refused
    exact (run_checked checked).trans (run_refused refused)

theorem run_current {next : Program α σ → Run (Program α σ × σ) β} :
    (current >>= next) t = next t.1 t := rfl

end Checks

/-- Values that belong to the inputs are kept. -/
theorem refresh_reused {xs : List (DenseMatrix α)}
    (fresh : f.state = .evaluated ∧ f.lastInputs = xs) : refresh xs (f, w) = (.ok (), (f, w)) :=
  if_pos fresh

/-- Other values make way for those of a value sweep. -/
theorem refresh_anew {xs : List (DenseMatrix α)}
    (stale : ¬ (f.state = .evaluated ∧ f.lastInputs = xs)) :
    refresh xs (f, w) =
      match (f.plan.bindInputs xs >>= fun _ => f.plan.valueSweep) (f.slots, w) with
      | (.ok (), s, w') =>
        (.ok (), ({ f with slots := s, state := .evaluated, lastInputs := xs }, w'))
      | (.error e, s, w') => (.error e, ({ f with slots := s, state := .compiled }, w')) := by
  simp only [refresh, if_neg stale]
  rcases (f.plan.bindInputs xs >>= fun _ => f.plan.valueSweep) (f.slots, w) with ⟨_ | _, _, _⟩ <;>
    rfl

/-- The seeds of a Jacobian pass the check of a call. -/
theorem checkForward_unitSeeds (placed : f.plan.Placed) (input n : Nat) :
    f.checkForward ((List.range n).map fun j =>
      unitSeeds f.inputCount input j f.plan.inputShape?) = .ok () := by
  refine Outcome.forM_eq_ok.mpr fun direction along => ?_
  obtain ⟨j, -, rfl⟩ := List.mem_map.mp along
  exact (checkArguments_eq_ok placed.inputs).mpr (fitting_unitSeeds placed.inputs input j)

theorem checkAdjoint_unitSeeds (placed : f.plan.Placed) (output n : Nat) :
    f.checkAdjoint ((List.range n).map fun k =>
      unitSeeds f.outputCount output k f.plan.outputShape?) = .ok () := by
  refine Outcome.forM_eq_ok.mpr fun direction along => ?_
  obtain ⟨k, -, rfl⟩ := List.mem_map.mp along
  exact (checkArguments_eq_ok placed.outputs).mpr (fitting_unitSeeds placed.outputs output k)

/-- Between an input and an output that exist, a Jacobian for which there is room is read off a sweep
along its smaller side. -/
theorem jacobian_of_shapes {input output : Nat} {xs : List (DenseMatrix α)} {column row : Shape}
    (here : f.plan.inputShape? input = some column) (there : f.plan.outputShape? output = some row) :
    jacobian input output xs (f, w) = (do
        Run.ofExcept (checkRoom (row.elements * column.elements))
        if column.elements ≤ row.elements then
          let s ← forward xs ((List.range column.elements).map fun j =>
            unitSeeds f.inputCount input j f.plan.inputShape?)
          return DenseMatrix.ofFn row.elements column.elements fun k j => element s j output k
        else
          let s ← adjoint xs ((List.range row.elements).map fun k =>
            unitSeeds f.outputCount output k f.plan.outputShape?)
          return DenseMatrix.ofFn row.elements column.elements fun k j => element s k input j)
      (f, w) := by
  rw [jacobian, run_current]
  simp only [here, there]

omit [Scalar α] in
/-- Only a position that is listed has a shape. -/
theorem lt_length_of_shape {positions : List Nat} {i : Nat} {s : Shape}
    (here : positions[i]?.bind f.plan.shapeAt? = some s) : i < positions.length := by
  obtain ⟨k, at_i, -⟩ := Option.bind_eq_some_iff.mp here
  exact (List.getElem?_eq_some_iff.mp at_i).1

/-- A call that passes its checks goes through its stages. -/
theorem run_admitted (placed : f.plan.Placed) {c : Call α} (admitted : c.Admitted f) :
    c.run (f, w) = c.stages f (f, w) := by
  obtain ⟨accepted, room⟩ := admitted
  cases accepted with
  | evaluate checked =>
    simp only [Call.run, evaluate, map_bind, map_pure]
    rw [run_checked checked]
    rfl
  | forward checked checked' =>
    simp only [Call.run, forward, map_bind, map_pure]
    rw [run_checked checked, run_checked checked']
    rfl
  | adjoint checked checked' =>
    simp only [Call.run, adjoint, map_bind, map_pure]
    rw [run_checked checked, run_checked checked']
    rfl
  | @jacobian input output xs column row checked =>
    obtain ⟨inShape, here⟩ : ∃ s, f.plan.inputShape? input = some s :=
      Option.ne_none_iff_exists'.mp (shape_ne_none placed.inputs column)
    obtain ⟨outShape, there⟩ : ∃ s, f.plan.outputShape? output = some s :=
      Option.ne_none_iff_exists'.mp (shape_ne_none placed.outputs row)
    rw [Call.run, Run.map_apply, jacobian_of_shapes here there, ← Run.map_apply, Call.stages]
    simp only [Call.elements, here, there, Option.elim_some] at room
    simp only [Call.task, Call.reading, here, there, Option.elim_some]
    rw [checkRoom_of_lt room, Run.ofExcept_ok_bind]
    split
    · simp only [forward, bind_assoc, map_bind, map_pure]
      rw [run_checked checked, run_checked (checkForward_unitSeeds placed input _)]
      simp [Call.sweeps, Plan.sensitize, Call.found, Call.inputs]
    · simp only [adjoint, bind_assoc, map_bind, map_pure]
      rw [run_checked checked, run_checked (checkAdjoint_unitSeeds placed output _)]
      simp [Call.sweeps, Plan.sensitize, Call.found, Call.inputs]

/-- A call that fails a check answers what the first such check says, and nothing has happened. -/
theorem run_rejected (placed : f.plan.Placed) {c : Call α} {e : Error}
    (refused : c.check f = .error e) : c.run (f, w) = (.error e, (f, w)) := by
  cases c with
  | evaluate xs => rw [Call.run, Run.map_apply, evaluate, run_refused refused]; rfl
  | forward xs seeds =>
    rw [Call.run, Run.map_apply, forward, run_refused_by_either refused]
    rfl
  | adjoint xs seeds =>
    rw [Call.run, Run.map_apply, adjoint, run_refused_by_either refused]
    rfl
  | jacobian input output xs =>
    rw [Call.run, Run.map_apply]
    cases here : f.plan.inputShape? input with
    | none =>
      have outside : f.inputCount ≤ input :=
        Nat.not_lt.mp fun inside => shape_ne_none placed.inputs inside here
      rw [Call.check, if_pos outside] at refused
      cases refused
      rw [jacobian, run_current]
      simp only [here]
      rfl
    | some column =>
      have inside : input < f.inputCount := lt_length_of_shape here
      rw [Call.check, if_neg (Nat.not_le.mpr inside)] at refused
      cases there : f.plan.outputShape? output with
      | none =>
        have outside : f.outputCount ≤ output :=
          Nat.not_lt.mp fun inside => shape_ne_none placed.outputs inside there
        rw [if_pos outside] at refused
        cases refused
        rw [jacobian, run_current]
        simp only [here, there]
        rfl
      | some row =>
        have inside' : output < f.outputCount := lt_length_of_shape there
        rw [if_neg (Nat.not_le.mpr inside')] at refused
        rw [jacobian_of_shapes here there]
        simp only [Call.elements, here, there, Option.elim_some] at refused
        cases room : checkRoom (row.elements * column.elements) with
        | error e' =>
          rw [room] at refused
          cases refused
          rfl
        | ok u =>
          rw [room, Outcome.ok_bind] at refused
          rw [Run.ofExcept_ok_bind]
          split
          · simp only [forward, bind_assoc]
            rw [run_refused refused]
            rfl
          · simp only [adjoint, bind_assoc]
            rw [run_refused refused]
            rfl

/-- A call whose values cannot be brought up to date is over then. -/
theorem run_of_stale (placed : f.plan.Placed) {c : Call α} (admitted : c.Admitted f) {e : Error}
    {t : Program α σ × σ} (failed : refresh c.inputs (f, w) = (.error e, t)) :
    c.run (f, w) = (.error e, t) := by
  rw [run_admitted placed admitted, Call.stages, Run.bind_apply, failed]

/-- A call whose values are up to date leaves what its sweep for sensitivities leaves. -/
theorem run_of_refreshed (placed : f.plan.Placed) {c : Call α} (admitted : c.Admitted f)
    {t : Program α σ × σ} (refreshed : refresh c.inputs (f, w) = (.ok (), t)) :
    (c.run (f, w)).2 = (Call.sweeps (c.task f) t).2 := by
  rw [run_admitted placed admitted, Call.stages, Run.bind_apply, refreshed]
  simp only [Run.bind_apply]
  rcases Call.sweeps (c.task f) t with ⟨_ | _, _⟩ <;> rfl

/-- The sweep for sensitivities changes numbers only. -/
theorem sweeps_keep (task : Option (SweepKind × List (List (DenseMatrix α))))
    (t : Program α σ × σ) : ∃ s, (Call.sweeps task t).2.1 = { t.1 with slots := s } := by
  cases task with
  | none => exact ⟨t.1.slots, rfl⟩
  | some task => exact ⟨_, rfl⟩

/-- After the values are brought up to date, a call changes numbers only. -/
theorem run_keeps (placed : f.plan.Placed) {c : Call α} (admitted : c.Admitted f) :
    ∃ s, (c.run (f, w)).2.1 = { (refresh c.inputs (f, w)).2.1 with slots := s } := by
  rcases ran : refresh c.inputs (f, w) with ⟨_ | _, t⟩
  · exact ⟨t.1.slots, by rw [run_of_stale placed admitted ran]⟩
  · rw [run_of_refreshed placed admitted ran]
    exact sweeps_keep _ t

end Program

end Cotangent
