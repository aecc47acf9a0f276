import Cotangent.Proofs.SingleSweeps

/-! Calls treat directions apart. In every session a call with several directions answers each of them
bit for bit as a call with that direction alone, and it fails only where such a call fails, or where
the right-hand sides of a solve node have more columns side by side than a size can count. Nothing is
asked of the numbers, and nothing of the calls made before. -/
namespace Cotangent

variable {α σ ω : Type}

/-! ### Plans -/

section Assembled

variable [Scalar α] {solves : List Solve}

omit [Scalar α] in
theorem Operation.Separates.imp {inv : σ → Prop} {op : Operation α σ} {shapes : List Shape}
    {shape : Shape} {crowded crowded' : Nat → Error → Prop}
    (separates : op.Separates inv shapes shape crowded)
    (more : ∀ count x, crowded count x → crowded' count x) :
    op.Separates inv shapes shape crowded' where
  forwardNone := separates.forwardNone
  adjointNone := separates.adjointNone
  forward xs y seeds w fits result seeding hw d seed at_d :=
    (separates.forward xs y seeds w fits result seeding hw d seed at_d).excused (more _)
  adjoint xs y seeds w fits result seeding hw d seed at_d :=
    (separates.adjoint xs y seeds w fits result seeding hw d seed at_d).excused (more _)

/-- Every operation of the library treats directions apart, and only a solve can be crowded. -/
theorem Operation.Offered.separates {op : Operation α (Store α (BuiltIn α) ω)} {shapes : List Shape}
    {e : Entry α (Store α (BuiltIn α) ω)} (offered : op.Offered solves)
    (promised : op.outputShape shapes = .ok e.shape) (sized : ∀ s ∈ e.shape :: shapes, s.Sized)
    (kind : e.kind = .apply op) : op.Separates (Store.Serves solves) shapes e.shape e.Crowded := by
  cases offered with
  | unary k => exact (k.shaped promised).separates _ _
  | binary k => exact (k.shaped promised).separates _ _
  | matmul => exact (Primitive.matmul_shaped promised sized).separates _ _
  | transpose => exact (Primitive.transpose_shaped promised).separates _ _
  | sum => exact (Primitive.sum_shaped promised).separates _ _
  | @solve op member =>
    exact (Solve.separates member promised sized).imp fun count x crowd => ⟨op, kind, crowd⟩

theorem Graph.Assembled.separates {g : Graph α (Store α (BuiltIn α) ω)}
    {inputs outputs : List NodeId} {p : Plan α (Store α (BuiltIn α) ω)}
    (assembled : g.Assembled solves) (compiled : Plan.compile g inputs outputs = .ok p) :
    p.Separates (Store.Serves solves) Entry.Refuses Entry.Crowded := by
  intro k e op at_k kind
  obtain ⟨offered, shapes, operands, promised, sized⟩ := assembled.entry_offered compiled at_k kind
  exact ⟨shapes, operands, offered.shaped promised sized kind rfl,
    offered.separates promised sized kind⟩

end Assembled

/-! ### Calls -/

/-- What answers for several directions have to do with answers for one of them. -/
structure Directionwise (answer : List (List (DenseMatrix α)) → Except Error (Sensitivities α))
    (check : List (DenseMatrix α) → Except Error Unit) (values : Except Error (List (DenseMatrix α)))
    (crowded : Nat → Error → Prop) (seeds : List (List (DenseMatrix α))) : Prop where
  /-- Each direction is answered as it is alone, next to the same outputs. -/
  answers : ∀ r, answer seeds = .ok r → r.sensitivities.length = seeds.length ∧
    ∀ (d : Nat) seed, seeds[d]? = some seed →
      ∃ row, r.sensitivities[d]? = some row ∧ answer [seed] = .ok ⟨r.outputs, [row]⟩
  /-- A failure is that of a direction alone, or there are too many. Without directions it is that of
  the values, which every direction that fits meets. -/
  fails : ∀ x, answer seeds = .error x →
    (∃ seed ∈ seeds, answer [seed] = .error x) ∨ crowded seeds.length x ∨
      (seeds = [] ∧ values = .error x ∧ ∀ seed, check seed = .ok () → answer [seed] = .error x)

/-- A way to ask for sensitivities: the check of a direction, the sweep, and what is read of each
direction. -/
structure Sense (α σ : Type) where
  check : Plan α σ → List (DenseMatrix α) → Except Error Unit
  sweep : Plan α σ → List (List (DenseMatrix α)) → Sweep α σ Unit
  row : Plan α σ → Slots α → Nat → List (DenseMatrix α)

namespace Sense

open Program

variable [Scalar α] {g : Graph α σ} {inputs outputs : List NodeId} {p : Plan α σ} {inv : σ → Prop}
  {refuses crowded : Entry α σ → Nat → Error → Prop} {f : Program α σ} {w : σ} {sense : Sense α σ}
  {xs : List (DenseMatrix α)} {seeds : List (List (DenseMatrix α))} {d : Nat}

/-- What a call does when its checks have accepted. -/
def rest (sense : Sense α σ) (xs : List (DenseMatrix α)) (seeds : List (List (DenseMatrix α))) :
    Run (Program α σ × σ) (Sensitivities α) := do
  refresh xs
  Program.sweep fun p => sense.sweep p seeds
  let f ← current
  return ⟨f.outputs, (List.range seeds.length).map (sense.row f.plan f.slots)⟩

/-- A call for the values of the outputs and sensitivities. -/
def call (sense : Sense α σ) (xs : List (DenseMatrix α)) (seeds : List (List (DenseMatrix α))) :
    Run (Program α σ × σ) (Sensitivities α) := do
  Run.ofExcept ((← current).checkInputs xs)
  Run.ofExcept (seeds.forM (sense.check (← current).plan))
  sense.rest xs seeds

def forward : Sense α σ where
  check p := checkArguments "forward seeds" p.inputs.length p.inputShape?
  sweep := Plan.forwardSweep
  row p s d := p.outputs.map (s.forward d)

def adjoint : Sense α σ where
  check p := checkArguments "adjoint seeds" p.outputs.length p.outputShape?
  sweep := Plan.adjointSweep
  row p s d := p.inputs.map (s.adjoint d)

theorem call_forward : (forward : Sense α σ).call xs seeds = Program.forward xs seeds := rfl

theorem call_adjoint : (adjoint : Sense α σ).call xs seeds = Program.adjoint xs seeds := rfl

/-- Sweeps of accepted directions treat them apart. -/
structure Apart (sense : Sense α σ) (p : Plan α σ) (inv : σ → Prop)
    (crowded : Entry α σ → Nat → Error → Prop) : Prop where
  follows : ∀ (s : Slots α) w seeds (d : Nat) seed, s.Fit p → inv w →
    (∀ seed ∈ seeds, sense.check p seed = .ok ()) → seeds[d]? = some seed →
    Run.Follows (sense.sweep p seeds) (sense.sweep p [seed]) (s, w) (s, w)
      (p.Refuses crowded seeds.length) fun _ _ t t' =>
        t.1.value = t'.1.value ∧ sense.row p t.1 d = sense.row p t'.1 0
  none : ∀ (s : Slots α) w, s.Fit p → inv w →
    Run.Post (sense.sweep p []) (s, w) (fun _ _ => True) fun _ _ => False

theorem apart_forward (layout : p.Layout g inputs outputs)
    (separates : p.Separates inv refuses crowded) : (forward : Sense α σ).Apart p inv crowded where
  follows s w seeds d seed fit hw accepted at_d := by
    have fitting (direction) (along : direction ∈ seeds) : p.Fitting p.inputs direction :=
      (checkArguments_eq_ok fun _ bound => layout.placed_input bound).mp (accepted direction along)
    refine (Plan.follows_forwardSweep layout separates fit hw fitting at_d).imp ?_
    intro _ _ t t' alone
    refine ⟨alone.value, List.map_congr_left fun k bound => alone.forward k (.inr ?_)⟩
    obtain ⟨e, at_k⟩ := layout.placed_output bound
    exact (Array.getElem?_eq_some_iff.mp at_k).1
  none _ _ fit hw :=
    (Plan.post_forwardSweep_none separates fit hw).imp (fun _ _ _ => trivial) fun _ _ => id

theorem apart_adjoint (layout : p.Layout g inputs outputs)
    (separates : p.Separates inv refuses crowded) : (adjoint : Sense α σ).Apart p inv crowded where
  follows s w seeds d seed fit hw accepted at_d := by
    have fitting (direction) (along : direction ∈ seeds) : p.Fitting p.outputs direction :=
      (checkArguments_eq_ok fun _ bound => layout.placed_output bound).mp (accepted direction along)
    refine (Plan.follows_adjointSweep layout separates fit hw fitting at_d).imp ?_
    intro _ _ t t' alone
    exact ⟨alone.value, congrArg (fun read => p.inputs.map read) alone.adjoint⟩
  none _ _ fit hw :=
    (Plan.post_adjointSweep_none separates fit hw).imp (fun _ _ _ => trivial) fun _ _ => id

theorem outcome_call : (sense.call xs seeds (f, w)).1 = (f.checkInputs xs >>= fun _ =>
    seeds.forM (sense.check f.plan) >>= fun _ => (sense.rest xs seeds (f, w)).1) := by
  change ((Run.ofExcept (f.checkInputs xs) >>= fun _ => current >>= _) (f, w)).1 = _
  cases f.checkInputs xs with
  | error e => rfl
  | ok u =>
    change ((Run.ofExcept (seeds.forM (sense.check f.plan)) >>= fun _ => _) (f, w)).1 = _
    cases seeds.forM (sense.check f.plan) <;> rfl

theorem outcome_evaluate : (evaluate xs (f, w)).1 = (f.checkInputs xs >>= fun _ =>
    ((refresh xs >>= fun _ => Program.outputs <$> current) (f, w)).1) := by
  change ((Run.ofExcept (f.checkInputs xs) >>= fun _ => _) (f, w)).1 = _
  cases f.checkInputs xs <;> rfl

theorem length_of_call {t : Program α σ × σ} {r : Sensitivities α}
    (answered : (sense.call xs seeds t).1 = .ok r) : r.sensitivities.length = seeds.length := by
  obtain ⟨f, w⟩ := t
  rw [outcome_call] at answered
  obtain ⟨_, -, answered⟩ := Outcome.bind_eq_ok.mp answered
  obtain ⟨_, -, answered⟩ := Outcome.bind_eq_ok.mp answered
  obtain ⟨_, -, answered⟩ := Run.ok_of_bind answered
  obtain ⟨_, -, answered⟩ := Run.ok_of_bind answered
  cases answered
  simp

omit [Scalar α] in
/-- Sweeps of a program in step. -/
theorem follows_sweep {act act' : Plan α σ → Sweep α σ Unit} {excuse : Error → Prop}
    {both : Slots α × σ → Slots α × σ → Prop}
    (h : Run.Follows (act f.plan) (act' f.plan) (f.slots, w) (f.slots, w) excuse
      fun _ _ => both) :
    Run.Follows (Program.sweep act) (Program.sweep act') (f, w) (f, w) excuse fun _ _ t t' =>
      ∃ s s', t.1 = { f with slots := s } ∧ t'.1 = { f with slots := s' } ∧
        both (s, t.2) (s', t'.2) := by
  refine (post_sweep h).imp ?_ ?_
  · rintro _ t ⟨s, same, _, ⟨s', w'⟩, ran, holds⟩
    exact ⟨(), ({ f with slots := s' }, w'), by simp only [Program.sweep, ran], s, s', same, rfl, holds⟩
  · rintro x t ⟨s, -, failed⟩
    exact failed.imp_right fun refused => refused

theorem Apart.follows_rest (apart : sense.Apart p inv crowded) (layout : p.Layout g inputs outputs)
    (promises : p.Promises inv refuses) (fitted : Fitted p inv (f, w))
    (accepted : f.checkInputs xs = .ok ()) (each : ∀ seed ∈ seeds, sense.check p seed = .ok ())
    {seed : List (DenseMatrix α)} (at_d : seeds[d]? = some seed) :
    Run.Follows (sense.rest xs seeds) (sense.rest xs [seed]) (f, w) (f, w)
      (p.Refuses crowded seeds.length) fun r r' _ _ =>
        ∃ row, r.sensitivities[d]? = some row ∧ r' = ⟨r.outputs, [row]⟩ := by
  have few := (List.getElem?_eq_some_iff.mp at_d).1
  refine Run.Follows.bind (.itself (fitted.refresh layout promises
    ((checkInputs_eq_ok layout fitted.plan).mp accepted))) ?_
  rintro _ _ ⟨f, v⟩ _ ⟨⟨-, rfl⟩, rfl, fit, hw⟩
  refine Run.Follows.bind (follows_sweep (apart.follows f.slots v seeds d _ fit hw each at_d)) ?_
  rintro _ _ ⟨_, v⟩ ⟨_, v'⟩ ⟨s, s', rfl, rfl, value, row⟩
  refine ⟨_, _, rfl, sense.row f.plan s d, by simp [few], ?_⟩
  change (⟨f.plan.outputs.map s'.value, [sense.row f.plan s' 0]⟩ : Sensitivities α) =
    ⟨f.plan.outputs.map s.value, [sense.row f.plan s d]⟩
  rw [value, row]

/-- Without directions only the values can fail. -/
theorem Apart.rest_none (apart : sense.Apart p inv crowded) (layout : p.Layout g inputs outputs)
    (promises : p.Promises inv refuses) (fitted : Fitted p inv (f, w))
    (accepted : f.checkInputs xs = .ok ()) {x : Error}
    (failed : (sense.rest xs [] (f, w)).1 = .error x) :
    ((refresh xs : Run (Program α σ × σ) Unit) (f, w)).1 = .error x := by
  have swept : Run.Post (sense.rest xs []) (f, w) (fun _ _ => True)
      fun x _ => ((refresh xs : Run (Program α σ × σ) Unit) (f, w)).1 = .error x := by
    have fresh := fitted.refresh layout promises
      ((checkInputs_eq_ok layout fitted.plan).mp accepted)
    have kept : Run.Post (refresh xs) (f, w) (fun _ => Fitted p inv)
        fun x _ => ((refresh xs : Run (Program α σ × σ) Unit) (f, w)).1 = .error x := by
      rcases ran : (refresh xs : Run (Program α σ × σ) Unit) (f, w) with ⟨e | _, t⟩
      · simp only [Run.Post, ran]
      · simpa only [Run.Post, ran] using fresh.of_ok ran
    refine kept.bind ?_
    rintro _ ⟨f, v⟩ ⟨rfl, fit, hw⟩
    have swept : Run.Post (Program.sweep fun p => sense.sweep p []) (f, v) (fun _ _ => True)
        fun _ _ => False := by
      refine (post_sweep (apart.none f.slots v fit hw)).imp (fun _ _ _ => trivial) ?_
      rintro _ _ ⟨_, -, impossible⟩
      exact impossible
    exact swept.bind_sure fun _ _ _ => trivial
  exact swept.of_error (Prod.ext failed rfl)

theorem Apart.directionwise (apart : sense.Apart p inv crowded) (layout : p.Layout g inputs outputs)
    (promises : p.Promises inv refuses) (fitted : Fitted p inv (f, w)) (xs : List (DenseMatrix α))
    (seeds : List (List (DenseMatrix α))) :
    Directionwise (fun seeds => (sense.call xs seeds (f, w)).1)
      (fun seed => [seed].forM (sense.check f.plan)) (evaluate xs (f, w)).1 (p.Refuses crowded)
      seeds := by
  obtain rfl : f.plan = p := fitted.plan
  refine ⟨fun r answered => ⟨length_of_call answered, fun d seed at_d => ?_⟩, fun x failed => ?_⟩
  · rw [outcome_call] at answered
    obtain ⟨_, accepted, answered⟩ := Outcome.bind_eq_ok.mp answered
    obtain ⟨_, accepted', answered⟩ := Outcome.bind_eq_ok.mp answered
    have each := Outcome.forM_eq_ok.mp accepted'
    obtain ⟨_, _, ran, row, at_row, rfl⟩ :=
      (apart.follows_rest layout promises fitted accepted each at_d).result answered
    refine ⟨row, at_row, ?_⟩
    rw [outcome_call, accepted, Outcome.forM_single, each seed (List.mem_of_getElem? at_d), ran]
    rfl
  · rw [outcome_call] at failed
    rcases Outcome.bind_eq_error.mp failed with refused | ⟨_, accepted, failed⟩
    · cases seeds with
      | nil =>
        refine .inr (.inr ⟨rfl, ?_, fun seed _ => ?_⟩)
        · rw [outcome_evaluate, refused, Outcome.error_bind]
        · rw [outcome_call, refused, Outcome.error_bind]
      | cons seed seeds =>
        exact .inl ⟨seed, List.mem_cons_self, by rw [outcome_call, refused, Outcome.error_bind]⟩
    rcases Outcome.bind_eq_error.mp failed with refused | ⟨_, accepted', failed⟩
    · obtain ⟨seed, member, alone⟩ := Outcome.exists_of_forM_error refused
      refine .inl ⟨seed, member, ?_⟩
      rw [outcome_call, accepted, Outcome.forM_single, alone]
      rfl
    have each := Outcome.forM_eq_ok.mp accepted'
    cases seeds with
    | nil =>
      have unvalued := apart.rest_none layout promises fitted accepted failed
      refine .inr (.inr ⟨rfl, ?_, fun seed fits => ?_⟩)
      · rw [outcome_evaluate, accepted]
        exact Run.error_of_first unvalued
      · rw [outcome_call, accepted, fits]
        exact Run.error_of_first unvalued
    | cons seed seeds =>
      have followed := (apart.follows_rest layout promises fitted accepted each
        (d := 0) rfl).of_error (Prod.ext failed rfl)
      refine followed.symm.imp (fun refused => ⟨seed, List.mem_cons_self, ?_⟩) .inl
      rw [outcome_call, accepted, Outcome.forM_single, each seed List.mem_cons_self, refused]
      rfl

end Sense

/-! ### Sessions -/

namespace Session

variable [Scalar α] {s : Session α ω} {f : Program α (Store α (BuiltIn α) ω)}

/-- Directions are independent. From every state that a session reaches, whatever was called before
with however many directions, a forward and an adjoint call answer for each direction what a call with
that direction alone answers, outputs included. They fail only as such a call fails, unless the number
of directions times the columns of some solve node is not a size; without directions they fail only as
an evaluation fails. -/
theorem directions_are_independent (reached : s.Reached) (member : f ∈ s.programs)
    (xs : List (DenseMatrix α)) (seeds : List (List (DenseMatrix α))) :
    Directionwise (fun seeds => (Program.forward xs seeds (f, s.store)).1)
        (fun seed => f.checkForward [seed]) (Program.evaluate xs (f, s.store)).1
        (f.plan.Refuses Entry.Crowded) seeds ∧
      Directionwise (fun seeds => (Program.adjoint xs seeds (f, s.store)).1)
        (fun seed => f.checkAdjoint [seed]) (Program.evaluate xs (f, s.store)).1
        (f.plan.Refuses Entry.Crowded) seeds := by
  obtain ⟨⟨g, inputs, outputs, assembled, compiled⟩, fit⟩ := reached.sound.programs f member
  have layout := Plan.layout_of_compile assembled.built compiled
  have separates := assembled.separates compiled
  have fitted : Program.Fitted f.plan (Store.Serves s.solves) (f, s.store) :=
    ⟨rfl, fit, reached.sound.store⟩
  have forwards :=
    (Sense.apart_forward layout separates).directionwise layout separates.promises fitted xs seeds
  have adjoints :=
    (Sense.apart_adjoint layout separates).directionwise layout separates.promises fitted xs seeds
  simp only [Sense.call_forward] at forwards
  simp only [Sense.call_adjoint] at adjoints
  exact ⟨forwards, adjoints⟩

/-- A system of one equation, along two directions. -/
theorem directions_are_independent_scalar :
    ∃ (s : Session Int Unit) (f : Program Int (Store Int (BuiltIn Int) Unit))
      (r : Sensitivities Int), s.Reached ∧ f ∈ s.programs ∧
        (Program.forward [.scalar 1, .scalar 7] [[.scalar 0, .scalar 2], [.scalar 3, .scalar 1]]
          (f, s.store)).1 = .ok r ∧ r.sensitivities[1]? = some [.scalar (-20)] ∧
        (Program.forward [.scalar 1, .scalar 7] [[.scalar 3, .scalar 1]] (f, s.store)).1 =
          .ok ⟨r.outputs, [[.scalar (-20)]]⟩ := by
  have small : Shape.Small (1, 1) := ⟨by decide, by decide⟩
  have created : Solve.create (.builtIn id : Catalogue Int (BuiltIn Int)) "lu" (.dense 1 1) false
      (⟨#[], ()⟩ : Store Int (BuiltIn Int) Unit) = .ok (_, _) := rfl
  obtain ⟨s, reached, member, held⟩ := reached_system small small created rfl rfl
  obtain ⟨f, member, both⟩ : ∃ f ∈ s.programs, (Program.forward [.scalar 1, .scalar 7]
      [[.scalar 0, .scalar 2], [.scalar 3, .scalar 1]] (f, s.store)).1.map (·.sensitivities) =
        .ok [[.scalar 2], [.scalar (-20)]] := ⟨_, member, by
    rw [held]
    decide +kernel⟩
  obtain ⟨r, answered, two⟩ := Outcome.map_eq_ok.mp both
  obtain ⟨row, at_row, alone⟩ := ((directions_are_independent reached member [.scalar 1, .scalar 7]
    [[.scalar 0, .scalar 2], [.scalar 3, .scalar 1]]).1.answers r answered).2 1 _ rfl
  rw [two] at at_row
  cases at_row
  exact ⟨s, f, r, reached, member, answered, by rw [two]; rfl, alone⟩

/-- A system without equations along a direction of `2 ^ 40` columns. It is answered, but `2 ^ 24` such
directions are not answered together. -/
theorem directions_crowd_side_by_side :
    ∃ (s : Session Int Unit) (f : Program Int (Store Int (BuiltIn Int) Unit))
      (xs seed : List (DenseMatrix Int)), s.Reached ∧ f ∈ s.programs ∧
        (Program.adjoint xs (List.replicate 16777216 seed) (f, s.store)).1 = .error .sizeOverflow ∧
        ∃ row, (Program.adjoint xs [seed] (f, s.store)).1.map (·.sensitivities) = .ok [row] := by
  have small : Shape.Small (0, 0) := ⟨by decide, by decide⟩
  have wide : Shape.Small (0, 1099511627776) := ⟨by decide, by decide⟩
  have created : Solve.create (.builtIn id : Catalogue Int (BuiltIn Int)) "lu" (.dense 0 0) false
      (⟨#[], ()⟩ : Store Int (BuiltIn Int) Unit) = .ok (_, _) := rfl
  obtain ⟨s, reached, member, held⟩ := reached_system small wide created rfl rfl
  let columns : DenseMatrix Int := ⟨0, 1099511627776, #[], rfl⟩
  have length : (List.replicate 16777216 [columns]).length = 16777216 := List.length_replicate
  have many : sizeLimit ≤ (List.replicate 16777216 [columns]).length * 1099511627776 := by
    rw [length]
    decide
  refine ⟨s, _, [.empty, columns], [columns], reached, member,
    (reached.sound.programs _ member).adjoint_of_crowded reached.sound.store rfl rfl
      (.adjoint rfl ?seeding) ?valued many, [.empty, columns], ?single⟩
  case seeding =>
    refine Outcome.forM_eq_ok.mpr fun direction along => ?_
    rw [List.eq_of_mem_replicate along]
    rfl
  case valued =>
    rw [held]
    decide +kernel
  case single =>
    rw [held]
    decide +kernel

end Session

end Cotangent
