import Cotangent.Proofs.ChainRule
import Cotangent.Proofs.Meaning
import Cotangent.Proofs.Sessions
import Cotangent.Proofs.SingleDirections

/-! Forward sensitivities are derivatives. In every session over the real numbers a store does not show
in what programs answer, so a program that has been called before answers as recursion over its graph
does, and by the chain rule the sensitivity that it answers for an output is the velocity of what its
graph denotes there when the inputs move along the direction. -/
namespace Cotangent

open Filter Topology

variable {α σ ω : Type}

/-! ### States that do not show -/

/-- A plan belongs to one graph with one choice of inputs and outputs. -/
theorem Plan.Layout.unique {p : Plan α σ} {g g' : Graph α σ} {inputs inputs' outputs outputs' :
    List NodeId} (layout : p.Layout g inputs outputs) (layout' : p.Layout g' inputs' outputs') :
    g = g' ∧ inputs = inputs' ∧ outputs = outputs' := by
  have same {id id' : NodeId} {k : Nat} (here : p.find? id = some k) (here' : p.find? id' = some k) :
      id = id' := by
    obtain ⟨e, at_k, rfl⟩ := (layout.find?_iff id k).mp here
    obtain ⟨e', at_k', rfl⟩ := (layout.find?_iff id' k).mp here'
    cases at_k.symm.trans at_k'
    rfl
  have length : inputs.length = inputs'.length := by
    simpa using congrArg List.length (layout.inputs_eq.symm.trans layout'.inputs_eq)
  refine ⟨layout.graph.symm.trans layout'.graph, List.ext_getElem length fun i inside inside' => ?_, ?_⟩
  · exact same (layout.front i _ (List.getElem?_eq_getElem inside))
      (layout'.front i _ (List.getElem?_eq_getElem inside'))
  · exact eq_of_forall₂ layout.outputs_at.flip layout'.outputs_at.flip
      fun k _ o o' here here' => same here here'

/-- The value of a node is the same in all states that an invariant allows. -/
theorem Graph.value_eq {g : Graph α σ} {outputs : List NodeId} {inv : σ → Prop} {w w' : σ}
    {given : NodeId → Option (DenseMatrix α)} {id : NodeId} (sound : g.Sound)
    (oblivious : g.Oblivious outputs inv) (hw : inv w) (hw' : inv w')
    (needed : ∃ o ∈ outputs, g.Reaches o id) : g.value w given id = g.value w' given id := by
  obtain ⟨o, output, path⟩ := needed
  refine recurse_congr sound fun c n xs below known => ?_
  unfold valueRule
  cases kind : n.kind with
  | symbol | constant => rfl
  | apply op =>
    have applied : g.Applied outputs c n op := ⟨⟨o, output, path.trans below⟩, known, kind⟩
    have answers := ((oblivious c n op applied).evaluate xs w w' ⟨hw, hw'⟩).1
    simp only [answers]

/-- A settled program is settled with respect to another state that its invariant allows. -/
theorem Program.Settled.rebase {g : Graph α σ} {inputs outputs : List NodeId} {p : Plan α σ}
    {inv inv' : σ → Prop} {w₀ w₁ : σ} {t : Program α σ × σ}
    (setting : p.Setting g inputs outputs inv w₀) (settled : Settled p inv w₀ inputs t)
    (allowed : inv w₁) (state : inv' t.2) : Settled p inv' w₁ inputs t where
  plan := settled.plan
  fit := settled.fit
  state := state
  current evaluated k e at_k := by
    rw [setting.layout.graph, ← settled.current evaluated k e at_k, setting.layout.graph]
    rcases setting.layout.origin at_k with declared | needed
    · obtain ⟨n, name, known, kind⟩ := setting.layout.symbol_of_mem declared
      have leaf : ∀ op, n.kind ≠ .apply op := by simp [kind]
      rw [Graph.value, Graph.value, Graph.recurse_leaf setting.sound known leaf,
        Graph.recurse_leaf setting.sound known leaf]
      simp only [Graph.valueRule, kind]
    · exact Graph.value_eq setting.sound setting.oblivious allowed setting.state needed

/-! ### Sessions -/

section Sessions

variable [Scalar α]

/-- Every solve operation has a cell that was made for its pattern. -/
def Store.Makes (s : Store α (BuiltIn α) ω) (solves : List Solve) : Prop :=
  ∀ op ∈ solves, ∃ plugin, s.made op.cell = some (op.pattern, plugin)

theorem Store.Makes.later {s t : Store α (BuiltIn α) ω} {solves : List Solve}
    (makes : s.Makes solves) (after : s.Extends t) : t.Makes solves := by
  intro op member
  obtain ⟨plugin, made⟩ := makes op member
  exact ⟨plugin, after.made _ _ made⟩

theorem Graph.Assembled.oblivious [ExactEq α] {g : Graph α (Store α (BuiltIn α) ω)} {solves : List Solve}
    {s : Store α (BuiltIn α) ω} (assembled : g.Assembled solves) (makes : s.Makes solves)
    (outputs : List NodeId) : g.Oblivious outputs s.Extends := by
  intro id n op applied
  cases (assembled.offered id n op applied.known applied.kind).1 with
  | unary | binary | matmul | transpose | sum => exact Primitive.oblivious _ _
  | solve member =>
    obtain ⟨plugin, made⟩ := makes _ member
    exact Solve.oblivious made

/-- A program of some graph that is settled with respect to the store. -/
def Program.Served (solves : List Solve) (s : Store α (BuiltIn α) ω)
    (f : Program α (Store α (BuiltIn α) ω)) : Prop :=
  ∃ g inputs outputs, g.Assembled solves ∧ f.plan.Setting g inputs outputs s.Extends s ∧
    Settled f.plan s.Extends s inputs (f, s)

namespace Program.Served

variable {solves solves' : List Solve} {s t : Store α (BuiltIn α) ω}
  {f : Program α (Store α (BuiltIn α) ω)}

/-- A program that is settled after something was done to the store. -/
theorem of_settled [ExactEq α] {g : Graph α (Store α (BuiltIn α) ω)} {inputs outputs : List NodeId}
    (assembled : g.Assembled solves') (setting : f.plan.Setting g inputs outputs s.Extends s)
    (settled : Settled f.plan s.Extends s inputs (f, t)) (makes : t.Makes solves') :
    f.Served solves' t := by
  have later : s.Extends t := settled.state
  have here : t.Extends t := .refl later.faithful
  refine ⟨g, inputs, outputs, assembled, { setting with state := here, oblivious := ?_ }, ?_⟩
  · exact assembled.oblivious makes outputs
  · exact settled.rebase setting later here

theorem later [ExactEq α] (served : f.Served solves s) (sub : solves ⊆ solves') (after : s.Extends t)
    (makes : t.Makes solves') : f.Served solves' t := by
  obtain ⟨g, inputs, outputs, assembled, setting, settled⟩ := served
  exact of_settled (assembled.mono sub) setting { settled with state := after } makes

/-- A call is a later store for everyone and keeps the program settled. -/
theorem run [ExactEq α] (served : f.Served solves s) (makes : s.Makes solves) (c : Call α) :
    s.Extends (c.run (f, s)).2.2 ∧ (c.run (f, s)).2.1.Served solves (c.run (f, s)).2.2 := by
  obtain ⟨g, inputs, outputs, assembled, setting, settled⟩ := served
  have after := Settled.run setting settled c
  have plan : (c.run (f, s)).2.1.plan = f.plan := after.plan
  exact ⟨after.state, of_settled assembled (plan ▸ setting) (plan ▸ after) (makes.later after.state)⟩

end Program.Served

namespace Session

variable {s s' : Session α ω} {f : Program α (Store α (BuiltIn α) ω)}

/-- What holds in every session in exact arithmetic: remembered factorizations do not show. -/
structure Faithful (s : Session α ω) : Prop where
  store : s.store.Faithful
  makes : s.store.Makes s.solves
  programs : ∀ f ∈ s.programs, f.Served s.solves s.store

/-- Something was done to the store, and solve operations were added. -/
theorem Faithful.extend [ExactEq α] (faithful : s.Faithful) {solves : List Solve}
    {store : Store α (BuiltIn α) ω} (sub : s.solves ⊆ solves) (after : s.store.Extends store)
    (makes : store.Makes solves) :
    ({ s with solves := solves, store := store } : Session α ω).Faithful :=
  ⟨after.faithful, makes, fun f member => (faithful.programs f member).later sub after makes⟩

theorem Faithful.step [ExactEq α] (graphs : ∀ g ∈ s.graphs, g.Assembled s.solves)
    (faithful : s.Faithful) (done : s.Step s') : s'.Faithful := by
  cases done with
  | graph | symbol | constant | apply => exact { faithful with }
  | @solve _ _ _ op store created =>
    obtain ⟨after, made⟩ := faithful.store.create created
    exact faithful.extend (List.subset_cons_self op s.solves) after
      (List.forall_mem_cons.mpr ⟨⟨_, made⟩, faithful.makes.later after⟩)
  | @compile g member name inputs outputs f created =>
    refine { faithful with programs := List.forall_mem_cons.mpr ⟨?_, faithful.programs⟩ }
    have assembled := graphs g member
    have here : s.store.Extends s.store := .refl faithful.store
    have setting := Program.setting_of_create assembled.built created
      (assembled.oblivious faithful.makes outputs) here
    exact ⟨g, inputs, outputs, assembled, setting,
      Program.Reached.fresh.settled setting created here⟩
  | @call f member c =>
    obtain ⟨after, served⟩ := (faithful.programs f member).run faithful.makes c
    have extended := faithful.extend (List.Subset.refl s.solves) after (faithful.makes.later after)
    exact { extended with programs := List.forall_mem_cons.mpr ⟨served, extended.programs⟩ }

theorem Reached.faithful [ExactEq α] (reached : s.Reached) : s.Faithful := by
  induction reached with
  | start world => exact ⟨nofun, nofun, nofun⟩
  | step before done ih => exact ih.step before.sound.graphs done

end Session

end Sessions

/-! ### Forward calls -/

section Real

variable {ω : Type} {s : Session ℝ ω} {g : Graph ℝ (Store ℝ (BuiltIn ℝ) ω)}
  {f : Program ℝ (Store ℝ (BuiltIn ℝ) ω)} {inputs outputs : List NodeId} {label : NodeId → Operator}
  {xs direction : List (DenseMatrix ℝ)} {seeds : List (List (DenseMatrix ℝ))} {r : Sensitivities ℝ}

/-- Inputs moved along a direction. -/
noncomputable def movedInputs (xs direction : List (DenseMatrix ℝ)) (t : ℝ) : List (DenseMatrix ℝ) :=
  List.zipWith (fun x dx => x.moved dx t) xs direction

theorem moved_supplied (inputs : List NodeId) (xs direction : List (DenseMatrix ℝ)) (t : ℝ) :
    Graph.moved (Graph.supplied inputs xs) (Graph.supplied inputs direction) t =
      Graph.supplied inputs (movedInputs xs direction t) := by
  funext id
  unfold Graph.moved Graph.supplied movedInputs
  rw [List.getElem?_zipWith]
  cases xs[inputs.idxOf id]? <;> cases direction[inputs.idxOf id]? <;> rfl

/-- Along every direction of a forward call, an output travels with the sensitivity that the call
answers, and it starts from the value that the call answers. -/
theorem Program.travels_of_forward {store : Store ℝ (BuiltIn ℝ) ω}
    (setting : f.plan.Setting g inputs outputs store.Extends store)
    (settled : Settled f.plan store.Extends store inputs (f, store))
    (answered : (forward xs seeds (f, store)).1 = .ok r) {i d : Nat} {o : NodeId}
    (output : outputs[i]? = some o) (along : seeds[d]? = some direction)
    (spelled : g.Spelled label [o] store)
    (regular : ∀ id, g.Reaches o id → g.RegularAt label (Graph.supplied inputs xs) id) :
    ∃ y row dy, r.outputs[i]? = some y ∧ r.sensitivities[d]? = some row ∧ row[i]? = some dy ∧
      g.value store (Graph.supplied inputs xs) o = .ok y ∧ g.Travels label store
        (Graph.supplied inputs xs) (Graph.supplied inputs direction) o dy := by
  have layout := setting.layout
  obtain ⟨accepted, accepted'⟩ := accepted_of_forward answered
  have fitting := (checkInputs_eq_ok layout rfl).mp accepted
  have seeding := (checkForward_eq_ok layout rfl).mp accepted'
  obtain ⟨fresh, rows, rfl⟩ := (post_forward setting settled fitting seeding).result answered
  generalize (forward xs seeds (f, store)).2 = t at fresh rows
  obtain ⟨k, bound, e, at_k, rfl⟩ : ∃ k, f.plan.outputs[i]? = some k ∧
      ∃ e, f.plan.entries[k]? = some e ∧ e.node = o := by
    obtain ⟨length, each⟩ := List.forall₂_iff_get.mp layout.outputs_at
    obtain ⟨inside, here⟩ := List.getElem?_eq_some_iff.mp output
    refine ⟨_, List.getElem?_eq_getElem (length ▸ inside), ?_⟩
    exact (layout.find?_iff o _).mp (here ▸ each i inside (length ▸ inside))
  have value := layout.current fresh.current at_k
  have travels := Graph.travels_of_row setting.sound (setting.state).faithful spelled
    (fun id needed => by
      obtain ⟨o', same, path⟩ := needed
      exact regular id (List.mem_singleton.mp same ▸ path))
    (layout.supplies fitting) (supplies_directions setting seeding)
    ⟨e.node, List.mem_singleton_self _, .refl⟩ value (rows k e at_k)
  obtain ⟨few, rfl⟩ := List.getElem?_eq_some_iff.mp along
  have here := (List.forall₂_iff_get.mp travels).2 d (by simpa using few)
    (by simpa [Slots.row] using few)
  simp only [List.get_eq_getElem, List.getElem_map, Slots.row, List.getElem_range] at here
  refine ⟨t.1.slots.value k, f.plan.outputs.map (t.1.slots.forward d), t.1.slots.forward d k,
    ?_, ?_, ?_, value, here⟩ <;> simp [bound, few]

namespace Session

/-- Every graph of a session has operators, and they take any invertible matrix if no solve operation
of the session has the Cholesky backend. -/
theorem exists_spelled (reached : s.Reached) (known : g ∈ s.graphs) (general : ∀ op ∈ s.solves,
    s.store.made op.cell ≠ some (op.pattern, "cholesky")) :
    ∃ label, ∀ outputs, g.Spelled label outputs s.store := by
  have each (id : NodeId) : ∃ o : Operator, ∀ n op, g.node? id = some n → n.kind = .apply op →
      op = o.operation ∧ o.General s.store := by
    by_cases application : ∃ n op, g.node? id = some n ∧ n.kind = .apply op
    · obtain ⟨n, op, here, kind⟩ := application
      have offered := ((reached.sound.graphs g known).offered id n op here kind).1
      suffices found : ∃ o : Operator, op = o.operation ∧ o.General s.store by
        obtain ⟨o, same, takes⟩ := found
        refine ⟨o, fun n' op' here' kind' => ?_⟩
        cases here.symm.trans here'
        cases kind.symm.trans kind'
        exact ⟨same, takes⟩
      cases offered with
      | unary k => exact ⟨.elementary (.unary k), rfl, trivial⟩
      | binary k => exact ⟨.elementary (.binary k), rfl, trivial⟩
      | matmul => exact ⟨.elementary .matmul, rfl, trivial⟩
      | transpose => exact ⟨.elementary .transpose, rfl, trivial⟩
      | sum => exact ⟨.elementary .sum, rfl, trivial⟩
      | @solve op member =>
        obtain ⟨plugin, made⟩ := reached.faithful.makes op member
        refine ⟨.solve op, rfl, plugin, ?_, made⟩
        rintro rfl
        exact general op member made
    · exact ⟨.elementary .sum, fun n op here kind => absurd ⟨n, op, here, kind⟩ application⟩
  choose label labels using each
  exact ⟨label, fun outputs =>
    ⟨fun id n op applied => (labels id n op applied.known applied.kind).1,
      fun id n op applied => (labels id n op applied.known applied.kind).2⟩⟩

/-- A forward call of accepted arguments is answered if every node has a value and a row of
sensitivities. -/
theorem exists_forward (reached : s.Reached) (known : g ∈ s.graphs) (member : f ∈ s.programs)
    (compiled : Plan.compile g inputs outputs = .ok f.plan) (accepted : f.checkInputs xs = .ok ())
    (accepted' : f.checkForward seeds = .ok ())
    (values : ∀ id, id.index < g.size → ∃ y, g.value s.store (Graph.supplied inputs xs) id = .ok y)
    (rows : ∀ id, id.index < g.size → ∃ row, g.recurse (g.rowRule s.store (Graph.supplied inputs xs)
      (seeds.map (Graph.supplied inputs))) id = .ok row) :
    ∃ r, (Program.forward xs seeds (f, s.store)).1 = .ok r := by
  have layout := Plan.layout_of_compile (reached.sound.graphs g known).built compiled
  obtain ⟨g', inputs', outputs', -, setting, settled⟩ := reached.faithful.programs f member
  obtain ⟨rfl, rfl, rfl⟩ := layout.unique setting.layout
  have post := Program.post_forward setting settled ((Program.checkInputs_eq_ok layout rfl).mp accepted)
    ((Program.checkForward_eq_ok layout rfl).mp accepted')
  have answered {β : Type} {rule : NodeId → Except Error β}
      (each : ∀ id, id.index < g.size → ∃ y, rule id = .ok y) (x : Error) :
      f.plan.entries.toList.mapM (fun e => rule e.node) ≠ .error x := by
    intro failed
    obtain ⟨e, place, y, missing⟩ := Outcome.mapM_eq_error.mp ⟨x, failed⟩
    obtain ⟨m, defined⟩ := each e.node (layout.lt_size place)
    cases missing.symm.trans defined
  rcases ran : Program.forward xs seeds (f, s.store) with ⟨x | r, t⟩
  · obtain ⟨-, failed | ⟨-, failed⟩⟩ := post.of_error ran
    · exact absurd (layout.graph ▸ failed) (answered values x)
    · exact absurd failed (answered rows x)
  · exact ⟨r, rfl⟩

/-- In every session, what a forward call of a program answers for an output and a direction is the
derivative of what its graph denotes. The inputs move along the direction; near time zero the graph
denotes the matrices of a motion and nothing else; the motion starts from the value that the call
answers, and its velocity is the sensitivity that the call answers. -/
theorem forward_differentiates (reached : s.Reached) (known : g ∈ s.graphs)
    (member : f ∈ s.programs) (compiled : Plan.compile g inputs outputs = .ok f.plan)
    (answered : (Program.forward xs seeds (f, s.store)).1 = .ok r) {i d : Nat} {o : NodeId}
    (output : outputs[i]? = some o) (along : seeds[d]? = some direction)
    (spelled : g.Spelled label [o] s.store)
    (regular : ∀ id, g.Reaches o id → g.RegularAt label (Graph.supplied inputs xs) id) :
    ∃ m : Motion, r.outputs[i]? = some m.value ∧
      (∃ row, r.sensitivities[d]? = some row ∧ row[i]? = some m.velocity) ∧
      ∀ᶠ t in 𝓝 0, ∀ y, g.Denotes label (Graph.supplied inputs (movedInputs xs direction t)) o y ↔
        y = m.path t := by
  have layout := Plan.layout_of_compile (reached.sound.graphs g known).built compiled
  obtain ⟨g', inputs', outputs', -, setting, settled⟩ := reached.faithful.programs f member
  obtain ⟨rfl, rfl, rfl⟩ := layout.unique setting.layout
  obtain ⟨y, row, dy, answer, found, entry, value, m, rfl, value', path⟩ :=
    Program.travels_of_forward setting settled answered output along spelled regular
  obtain rfl := Except.ok.inj (value.symm.trans value')
  refine ⟨m, answer, ⟨row, found, entry⟩, path.mono fun t denotes y => ?_⟩
  rw [moved_supplied] at denotes
  constructor
  · exact fun other => other.unique setting.sound denotes
  · rintro rfl
    exact denotes

/-- The logarithm of the solution of a system of one equation. -/
noncomputable def logarithm : Graph ℝ (Store ℝ (BuiltIn ℝ) Unit) :=
  ⟨#[⟨.symbol "A", [], (1, 1)⟩, ⟨.symbol "b", [], (1, 1)⟩,
    ⟨.apply (Solve.operation ⟨0, .dense 1 1, false⟩), [⟨0⟩, ⟨1⟩], (1, 1)⟩,
    ⟨.apply UnaryKind.log.primitive.operation, [⟨2⟩], (1, 1)⟩]⟩

/-- The operators of this graph. -/
noncomputable def logarithmLabel (id : NodeId) : Operator :=
  match id.index with
  | 2 => .solve ⟨0, .dense 1 1, false⟩
  | _ => .elementary (.unary .log)

theorem spelled_logarithm {s : Store ℝ (BuiltIn ℝ) Unit} (made : s.made 0 = some (.dense 1 1, "lu")) :
    logarithm.Spelled logarithmLabel outputs s := by
  suffices each : ∀ id n op, logarithm.node? id = some n → n.kind = .apply op →
      op = (logarithmLabel id).operation ∧ (logarithmLabel id).General s from
    ⟨fun id n op applied => (each id n op applied.known applied.kind).1,
      fun id n op applied => (each id n op applied.known applied.kind).2⟩
  intro ⟨i⟩ n op known kind
  have inside : i < 4 := (logarithm.node?_eq_some_iff_lt ⟨i⟩).mp ⟨n, known⟩
  interval_cases i <;> cases known <;> cases kind
  · exact ⟨rfl, "lu", by decide, made⟩
  · exact ⟨rfl, trivial⟩

/-- The system `2 x = 4` denotes a positive number. -/
theorem pos_of_denotes {x : DenseMatrix ℝ} (denotes : logarithm.Denotes logarithmLabel
    (Graph.supplied [⟨0⟩, ⟨1⟩] [.scalar 2, .scalar 4]) ⟨2⟩ x) :
    x.shape = (1, 1) ∧ 0 < x.entry 0 0 := by
  cases denotes with
  | symbol known kind | constant known kind =>
    cases known
    cases kind
  | apply known kind operands result =>
    cases known
    cases kind
    obtain ⟨a, b, rfl, solution, -⟩ := result
    obtain _ | ⟨first, _ | ⟨second, _⟩⟩ := operands
    cases (first.supplied rfl rfl : _ = some a)
    cases (second.supplied rfl rfl : _ = some b)
    refine ⟨solution.shape, ?_⟩
    have solved := congrFun (solution.solves 0 Nat.one_pos) ⟨0, Nat.one_pos⟩
    have equation : ∑ j : Fin 1, (if (0 : Nat) ∈ (Pattern.dense 1 1).col j then
        (DenseMatrix.scalar (2 : ℝ)).entry 0 j else 0) * x.entry j 0 = 4 := solved
    have inside : 0 ∈ (Pattern.dense 1 1).col 0 := by decide
    have factor : (DenseMatrix.scalar (2 : ℝ)).entry 0 0 = 2 := rfl
    rw [Fin.sum_univ_one, Fin.val_zero, if_pos inside, factor] at equation
    linarith

/-- The logarithm of a positive number is taken. -/
theorem regularAt_logarithm (id : NodeId) : logarithm.RegularAt logarithmLabel
    (Graph.supplied [⟨0⟩, ⟨1⟩] [.scalar 2, .scalar 4]) id := by
  intro n op xs known kind operands
  obtain ⟨i⟩ := id
  have inside : i < 4 := (logarithm.node?_eq_some_iff_lt ⟨i⟩).mp ⟨n, known⟩
  interval_cases i <;> cases known <;> cases kind
  · trivial
  · intro x member i hi j hj
    obtain _ | ⟨denotes, _ | _⟩ := operands
    obtain rfl := List.mem_singleton.mp member
    obtain ⟨shape, positive⟩ := pos_of_denotes denotes
    obtain ⟨rows, columns⟩ := Prod.mk.inj shape
    obtain rfl : i = 0 := Nat.lt_one_iff.mp (rows ▸ hi)
    obtain rfl : j = 0 := Nat.lt_one_iff.mp (columns ▸ hj)
    exact positive

/-- Every node of this graph has a value, and a row of sensitivities along a direction that moves `A`. -/
theorem exists_rows_logarithm {s : Store ℝ (BuiltIn ℝ) Unit} (faithful : s.Faithful)
    (sound : logarithm.Sound) (made : s.made 0 = some (.dense 1 1, "lu")) (id : NodeId)
    (inside : id.index < 4) :
    let given := Graph.supplied [⟨0⟩, ⟨1⟩] [(.scalar 2 : DenseMatrix ℝ), .scalar 4]
    let seed := Graph.supplied [⟨0⟩, ⟨1⟩] [(.scalar 1 : DenseMatrix ℝ), .scalar 0]
    (∃ y, logarithm.value s given id = .ok y) ∧
      ∃ row, logarithm.recurse (logarithm.rowRule s given [seed]) id = .ok row := by
  intro given seed
  -- the symbols
  have value₀ : logarithm.value s given ⟨0⟩ = .ok (.scalar 2) :=
    (Graph.recurse_eq_ok sound).mpr ⟨_, rfl, [], rfl, rfl⟩
  have value₁ : logarithm.value s given ⟨1⟩ = .ok (.scalar 4) :=
    (Graph.recurse_eq_ok sound).mpr ⟨_, rfl, [], rfl, rfl⟩
  have row₀ : logarithm.recurse (logarithm.rowRule s given [seed]) ⟨0⟩ = .ok [.scalar 1] :=
    (Graph.recurse_eq_ok sound).mpr ⟨_, rfl, [], rfl, rfl⟩
  have row₁ : logarithm.recurse (logarithm.rowRule s given [seed]) ⟨1⟩ = .ok [.scalar 0] :=
    (Graph.recurse_eq_ok sound).mpr ⟨_, rfl, [], rfl, rfl⟩
  -- the system
  have symbols : [⟨0⟩, ⟨1⟩].mapM (logarithm.value s given) = .ok [.scalar 2, .scalar 4] :=
    Outcome.mapM_eq_ok.mpr (.cons value₀ (.cons value₁ .nil))
  have solves (rhs : DenseMatrix ℝ) (rows : rhs.nrows = 1) :=
    Solve.exists_solved_scalar (x := (2 : ℝ)) two_ne_zero faithful made rows
  obtain ⟨x, solved, shape⟩ := solves (.scalar 4) rfl
  have value₂ : logarithm.value s given ⟨2⟩ = .ok x := (Graph.recurse_eq_ok sound).mpr
    ⟨_, rfl, _, symbols, (Graph.valueRule_apply rfl).mpr ⟨solved, shape⟩⟩
  have sized : Shape.Sized (1, 1) := ⟨⟨by decide, by decide⟩, by decide⟩
  obtain ⟨block, computed, fits⟩ : ∃ r, Solve.direction ⟨0, .dense 1 1, false⟩ x
      [.scalar 1, .scalar 0] = .ok r ∧ r.shape = (1, 1) :=
    Solve.exists_direction rfl rfl sized shape rfl
  obtain ⟨dx, solved', shape'⟩ := solves block (congrArg Prod.fst fits)
  have few : x.ncols < sizeLimit := (congrArg Prod.snd shape).trans_lt (by decide)
  have batch := Solve.forwardBatch_of_solved (b := .scalar 4) computed (fits.trans shape.symm) solved'
    shape' few
  have row₂ : logarithm.recurse (logarithm.rowRule s given [seed]) ⟨2⟩ = .ok [dx] :=
    (Graph.recurse_eq_ok sound).mpr ⟨_, rfl, [[.scalar 1], [.scalar 0]],
      Outcome.mapM_eq_ok.mpr (.cons row₀ (.cons row₁ .nil)), (Graph.rowRule_apply rfl symbols value₂).mpr
        ⟨batch, rfl, List.forall_mem_singleton.mpr (shape'.trans fits)⟩⟩
  -- its logarithm
  have solution : [⟨2⟩].mapM (logarithm.value s given) = .ok [x] :=
    Outcome.mapM_eq_ok.mpr (.cons value₂ .nil)
  have value₃ : logarithm.value s given ⟨3⟩ = .ok (x.map Real.log) := (Graph.recurse_eq_ok sound).mpr
    ⟨_, rfl, _, solution, (Graph.valueRule_apply rfl).mpr ⟨rfl, shape⟩⟩
  obtain ⟨dy, chained, whole⟩ := UnaryKind.log.exists_chain (y := x.map Real.log) shape shape
    (shape'.trans fits)
  have batch' := (UnaryKind.log.primitive.outcome_forwardBatch [x] (x.map Real.log) [[dx]] s).trans
    (show _ = .ok [dy] from Outcome.mapM_eq_ok.mpr (.cons chained .nil))
  have row₃ : logarithm.recurse (logarithm.rowRule s given [seed]) ⟨3⟩ = .ok [dy] :=
    (Graph.recurse_eq_ok sound).mpr ⟨_, rfl, [[dx]], Outcome.mapM_eq_ok.mpr (.cons row₂ .nil),
      (Graph.rowRule_apply rfl solution value₃).mpr
        ⟨batch', rfl, List.forall_mem_singleton.mpr whole⟩⟩
  obtain ⟨i⟩ := id
  interval_cases i
  · exact ⟨⟨_, value₀⟩, _, row₀⟩
  · exact ⟨⟨_, value₁⟩, _, row₁⟩
  · exact ⟨⟨_, value₂⟩, _, row₂⟩
  · exact ⟨⟨_, value₃⟩, _, row₃⟩

/-- The logarithm of the solution of `2 x = 4` along a direction in which `2` grows. -/
theorem forward_differentiates_logarithm :
    ∃ (s : Session ℝ Unit) (f : Program ℝ (Store ℝ (BuiltIn ℝ) Unit)) (r : Sensitivities ℝ)
      (label : NodeId → Operator), s.Reached ∧ logarithm ∈ s.graphs ∧ f ∈ s.programs ∧
      Plan.compile logarithm [⟨0⟩, ⟨1⟩] [⟨3⟩] = .ok f.plan ∧
      (Program.forward [.scalar 2, .scalar 4] [[.scalar 1, .scalar 0]] (f, s.store)).1 = .ok r ∧
      logarithm.Spelled label [⟨3⟩] s.store ∧
      ∃ m : Motion, r.outputs[0]? = some m.value ∧
        (∃ row, r.sensitivities[0]? = some row ∧ row[0]? = some m.velocity) ∧
        ∀ᶠ t in 𝓝 0, ∀ y, logarithm.Denotes label (Graph.supplied [⟨0⟩, ⟨1⟩]
          (movedInputs [.scalar 2, .scalar 4] [.scalar 1, .scalar 0] t)) ⟨3⟩ y ↔ y = m.path t := by
  have small : Shape.Small (1, 1) := ⟨by decide, by decide⟩
  let op : Solve := ⟨0, .dense 1 1, false⟩
  have created : Solve.create (.builtIn id : Catalogue ℝ (BuiltIn ℝ)) "lu" (.dense 1 1) false
      (⟨#[], ()⟩ : Store ℝ (BuiltIn ℝ) Unit) = .ok (op, _) := rfl
  have symbols := ((Has.empty (α := ℝ) ()).symbol "A" small).symbol "b" small
  have solved := (symbols.solve created).apply (.solve List.mem_cons_self)
    (show Graph.apply _ op.operation [⟨0⟩, ⟨1⟩] = .ok (⟨2⟩, _) from rfl)
  have applied := solved.apply (.unary .log)
    (show Graph.apply _ _ [⟨2⟩] = .ok (⟨3⟩, logarithm) from rfl)
  obtain ⟨f, created'⟩ : ∃ f, Program.create "f" logarithm [⟨0⟩, ⟨1⟩] [⟨3⟩] = .ok f := ⟨_, rfl⟩
  obtain ⟨s, reached, known, member, held⟩ := applied.compile created'
  have compiled := (Program.create_eq_ok created').1
  have made : s.store.made 0 = some (.dense 1 1, "lu") := held ▸ rfl
  have rows := exists_rows_logarithm reached.faithful.store
    (reached.sound.graphs _ known).built.sound made
  obtain ⟨r, answered⟩ : ∃ r, (Program.forward [.scalar 2, .scalar 4] [[.scalar 1, .scalar 0]]
      (f, s.store)).1 = .ok r := by
    refine exists_forward reached known member compiled ?_ ?_ (fun id inside => (rows id inside).1)
      fun id inside => (rows id inside).2
    · cases created'
      rfl
    · cases created'
      rfl
  have spelled : logarithm.Spelled logarithmLabel [⟨3⟩] s.store := spelled_logarithm made
  exact ⟨s, f, r, logarithmLabel, reached, known, member, compiled, answered, spelled,
    forward_differentiates reached known member compiled answered rfl rfl spelled
      fun id _ => regularAt_logarithm id⟩

end Session

end Real

end Cotangent
