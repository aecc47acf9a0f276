import Cotangent.Proofs.CallStages

/-! Sessions: graphs, solve operations and programs that grow side by side over one store. What was
made once can be used again and again, and programs of one graph share its solve operations. What
every step keeps, every session has: graphs in which each node has the shape its operation promised,
programs whose numbers fit, and a store with a cell for every solve operation. A call with accepted
arguments then fails only in a solve node. -/
namespace Cotangent

variable {α ω : Type} [Scalar α]

/-- Graphs, solve operations and programs, and the store that they share. -/
structure Session (α ω : Type) where
  graphs : List (Graph α (Store α (BuiltIn α) ω))
  solves : List Solve
  programs : List (Program α (Store α (BuiltIn α) ω))
  store : Store α (BuiltIn α) ω

namespace Session

/-- One thing done in a session. What is changed is added, so that copies made before remain. -/
inductive Step (s : Session α ω) : Session α ω → Prop
  | graph : Step s { s with graphs := .empty :: s.graphs }
  | symbol {g : Graph α (Store α (BuiltIn α) ω)} (member : g ∈ s.graphs) (name : String)
      {shape : Shape} (small : shape.Small) :
      Step s { s with graphs := (g.symbol name shape).2 :: s.graphs }
  | constant {g : Graph α (Store α (BuiltIn α) ω)} (member : g ∈ s.graphs)
      {value : DenseMatrix α} (small : value.shape.Small) :
      Step s { s with graphs := (g.constant value).2 :: s.graphs }
  | solve {plugin : String} {pattern : Pattern} {transposed : Bool} {op : Solve}
      {store : Store α (BuiltIn α) ω}
      (created : Solve.create (.builtIn id) plugin pattern transposed s.store = .ok (op, store)) :
      Step s { s with solves := op :: s.solves, store := store }
  | apply {g g' : Graph α (Store α (BuiltIn α) ω)} (member : g ∈ s.graphs)
      {op : Operation α (Store α (BuiltIn α) ω)} (offered : op.Offered s.solves)
      {children : List NodeId} {node : NodeId} (answered : g.apply op children = .ok (node, g')) :
      Step s { s with graphs := g' :: s.graphs }
  | compile {g : Graph α (Store α (BuiltIn α) ω)} (member : g ∈ s.graphs) {name : String}
      {inputs outputs : List NodeId} {f : Program α (Store α (BuiltIn α) ω)}
      (created : Program.create name g inputs outputs = .ok f) :
      Step s { s with programs := f :: s.programs }
  | call {f : Program α (Store α (BuiltIn α) ω)} (member : f ∈ s.programs) (c : Call α) :
      Step s { s with
        programs := (c.run (f, s.store)).2.1 :: s.programs
        store := (c.run (f, s.store)).2.2 }

/-- A session after any steps, calls that fail included. -/
inductive Reached : Session α ω → Prop
  | start (world : ω) : Reached ⟨[], [], [], ⟨#[], world⟩⟩
  | step {s s' : Session α ω} (before : Reached s) (done : Step s s') : Reached s'

end Session

/-- A program compiled from an assembled graph, whose numbers fit. -/
structure Program.Sound (solves : List Solve) (f : Program α (Store α (BuiltIn α) ω)) : Prop where
  compiled : ∃ g inputs outputs, g.Assembled solves ∧ Plan.compile g inputs outputs = .ok f.plan
  fit : f.slots.Fit f.plan

namespace Program.Sound

variable {solves solves' : List Solve} {f : Program α (Store α (BuiltIn α) ω)}
  {w : Store α (BuiltIn α) ω}

theorem mono (sound : f.Sound solves) (sub : solves ⊆ solves') : f.Sound solves' := by
  obtain ⟨⟨g, inputs, outputs, assembled, compiled⟩, fit⟩ := sound
  exact ⟨⟨g, inputs, outputs, assembled.mono sub, compiled⟩, fit⟩

theorem of_create {g : Graph α (Store α (BuiltIn α) ω)} {name : String}
    {inputs outputs : List NodeId} (assembled : g.Assembled solves)
    (created : Program.create name g inputs outputs = .ok f) : f.Sound solves := by
  obtain ⟨compiled, fresh⟩ := create_eq_ok created
  refine ⟨⟨g, inputs, outputs, assembled, compiled⟩, ?_⟩
  have layout := Plan.layout_of_compile assembled.built compiled
  rw [fresh]
  exact Plan.fit_startSlots (layout.constant_shape assembled.built.sound)

/-- A call of a sound program, whatever its outcome. -/
theorem run (sound : f.Sound solves) (serves : w.Serves solves) (c : Call α) :
    Run.Post c.run (f, w) (fun r t => c.Answers f r ∧ t.1.Sound solves ∧ t.2.Serves solves)
      (fun x t => (c.Accepted f → x = .sizeOverflow ∧ wordLimit ≤ c.elements f ∨
        Refused f.plan Entry.Refuses (c.directions f) x) ∧
          t.1.Sound solves ∧ t.2.Serves solves) := by
  obtain ⟨⟨g, inputs, outputs, assembled, compiled⟩, fit⟩ := sound
  have layout := Plan.layout_of_compile assembled.built compiled
  have kept (t : Program α (Store α (BuiltIn α) ω) × Store α (BuiltIn α) ω)
      (fitted : Fitted f.plan (Store.Serves solves) t) :
      t.1.Sound solves ∧ t.2.Serves solves :=
    ⟨⟨⟨g, inputs, outputs, assembled, fitted.plan ▸ compiled⟩, fitted.plan ▸ fitted.fit⟩,
      fitted.state⟩
  refine (Fitted.run layout (assembled.promises compiled) ⟨rfl, fit, serves⟩ c).imp ?_ ?_
  · exact fun r t answered => ⟨answered.1, kept t answered.2⟩
  · exact fun x t failed => ⟨failed.1, kept t failed.2⟩

/-- A matrix without room is refused before anything happens. -/
theorem run_of_crowded (sound : f.Sound solves) {c : Call α} (accepted : c.Accepted f)
    (crowded : wordLimit ≤ c.elements f) : c.run (f, w) = (.error .sizeOverflow, (f, w)) := by
  obtain ⟨⟨g, inputs, outputs, assembled, compiled⟩, -⟩ := sound
  have layout := Plan.layout_of_compile assembled.built compiled
  exact run_rejected layout.placed (accepted.check_of_crowded crowded)

/-- An adjoint sweep begins with the last entry. If that is a solve node and the directions have more
columns together than a size can count, it is over there. -/
theorem post_adjointSweep_of_crowded {s : Slots α} (sound : f.Sound solves) (serves : w.Serves solves)
    (fit : s.Fit f.plan) {e : Entry α (Store α (BuiltIn α) ω)} {op : Solve}
    (last : f.plan.entries.toList.getLast? = some e) (kind : e.kind = .apply op.operation)
    {seeds : List (List (DenseMatrix α))}
    (fitting : ∀ direction ∈ seeds, f.plan.Fitting f.plan.outputs direction)
    (many : sizeLimit ≤ seeds.length * e.shape.2) :
    Run.Post (f.plan.adjointSweep seeds) (s, w) (fun _ _ => False) fun x _ => x = .sizeOverflow := by
  obtain ⟨⟨g, inputs, outputs, assembled, compiled⟩, -⟩ := sound
  obtain ⟨front, split⟩ := List.getLast?_eq_some_iff.mp last
  have placed : f.plan.placed.reverse = (e, front.length) :: front.zipIdx.reverse := by
    simp [Plan.placed, split, List.zipIdx_append]
  have at_k : f.plan.entries[front.length]? = .some e := by
    rw [← Array.getElem?_toList, split]
    simp
  obtain ⟨-, shapes, operands, promised, sized⟩ := assembled.entry_offered compiled at_k kind
  have arity : e.children.length = 2 := by
    obtain ⟨_, counted, -⟩ := Outcome.bind_eq_ok.mp promised
    exact operands.length_eq.trans (checkArity_eq_ok.mp counted).symm
  have start : f.plan.FitsAdjoint (Store.Serves solves) seeds.length (s.cleared seeds.length, w) :=
    ⟨⟨fit.cleared, serves⟩, Slots.adjointRoom_cleared⟩
  refine Run.Post.bind_sure Sweep.post_updateAll ?_
  rintro _ _ rfl
  refine Run.Post.bind_sure (start.post_seeds fitting) ?_
  rintro _ ⟨s, w⟩ ⟨⟨fit, -⟩, room⟩
  rw [placed]
  change Run.Post (Plan.adjointStep seeds.length (e, front.length) >>= fun _ => _) (s, w) _ _
  refine Run.Post.bind ?_ fun _ _ => False.elim
  have refused : op.operation.adjointBatch (e.children.map s.value) (s.value front.length)
      ((List.range seeds.length).map fun d => s.adjoint d front.length) w =
        (.error .sizeOverflow, w) := by
    refine Solve.adjointBatch_of_crowded (sized _ List.mem_cons_self) ?_ ?_ ?_
    · rw [List.length_map, arity]
    · intro seed along
      obtain ⟨d, few, rfl⟩ := List.mem_map.mp along
      exact fit.shape_adjoint room (List.mem_range.mp few) at_k
    · rwa [List.length_map, List.length_range]
  simp only [Run.Post, Plan.adjointStep, kind, Run.bind_apply, Sweep.call, refused]

/-- Accepted directions that crowd the last solve node are refused if the values are there. -/
theorem adjoint_of_crowded (sound : f.Sound solves) (serves : w.Serves solves)
    {e : Entry α (Store α (BuiltIn α) ω)} {op : Solve}
    (last : f.plan.entries.toList.getLast? = some e) (kind : e.kind = .apply op.operation)
    {xs : List (DenseMatrix α)} {seeds : List (List (DenseMatrix α))}
    (accepted : (Call.adjoint xs seeds).Accepted f) (valued : (refresh xs (f, w)).1 = .ok ())
    (many : sizeLimit ≤ seeds.length * e.shape.2) :
    (Program.adjoint xs seeds (f, w)).1 = .error .sizeOverflow := by
  obtain ⟨checked, checked'⟩ : f.checkInputs xs = .ok () ∧ f.checkAdjoint seeds = .ok () := by
    cases accepted with
    | adjoint checked checked' => exact ⟨checked, checked'⟩
  obtain ⟨⟨g, inputs, outputs, assembled, compiled⟩, fit⟩ := sound
  have layout := Plan.layout_of_compile assembled.built compiled
  have fitting := (checkInputs_eq_ok layout rfl).mp checked
  have seeding := (checkAdjoint_eq_ok layout rfl).mp checked'
  have fresh := Fitted.refresh layout (assembled.promises compiled) ⟨rfl, fit, serves⟩ fitting
  rcases ran : refresh xs (f, w) with ⟨_ | _, f', w'⟩ <;> rw [ran] at valued <;> cases valued
  obtain ⟨plan, fit', serves'⟩ := fresh.of_ok ran
  have sound' : f'.Sound solves :=
    ⟨⟨g, inputs, outputs, assembled, plan ▸ compiled⟩, plan ▸ fit'⟩
  have stopped : Run.Post (Program.adjoint xs seeds) (f, w) (fun _ _ => False)
      fun x _ => x = .sizeOverflow := by
    refine post_accepted checked (post_accepted checked' ?_)
    rw [Run.Post, Run.bind_apply, ran]
    refine Run.Post.bind ((post_sweep (sound'.post_adjointSweep_of_crowded serves' sound'.fit
      (plan ▸ last) kind (plan ▸ seeding) many)).imp ?_ ?_) fun _ _ => False.elim
    · rintro _ _ ⟨_, _, impossible⟩
      exact impossible
    · rintro _ _ ⟨_, _, overflow⟩
      exact overflow
  rcases ended : Program.adjoint xs seeds (f, w) with ⟨x | r, u⟩
  · exact congrArg Except.error (stopped.of_error ended)
  · exact (stopped.of_ok ended).elim

end Program.Sound

theorem Call.run_adjoint_of_error {xs : List (DenseMatrix α)} {seeds : List (List (DenseMatrix α))}
    {x : Error} (failed : (Program.adjoint xs seeds (f, w)).1 = .error x) :
    ((Call.adjoint xs seeds).run (f, w)).1 = .error x := by
  rw [Call.run, Run.map_apply]
  exact Outcome.map_eq_error.mpr failed

namespace Session

variable {s s' : Session α ω} {f : Program α (Store α (BuiltIn α) ω)} {c : Call α}

/-- What holds in every session. -/
structure Sound (s : Session α ω) : Prop where
  graphs : ∀ g ∈ s.graphs, g.Assembled s.solves
  programs : ∀ f ∈ s.programs, f.Sound s.solves
  store : s.store.Serves s.solves

/-- Every graph stays put together by what is offered. -/
theorem Step.assembled (done : s.Step s') (graphs : ∀ g ∈ s.graphs, g.Assembled s.solves) :
    ∀ g ∈ s'.graphs, g.Assembled s'.solves := by
  cases done with
  | graph => exact List.forall_mem_cons.mpr ⟨.empty, graphs⟩
  | symbol member name small =>
    exact List.forall_mem_cons.mpr ⟨(graphs _ member).symbol name small, graphs⟩
  | constant member small =>
    exact List.forall_mem_cons.mpr ⟨(graphs _ member).constant small, graphs⟩
  | apply member offered answered =>
    exact List.forall_mem_cons.mpr ⟨(graphs _ member).apply offered answered, graphs⟩
  | @solve _ _ _ op _ _ => exact fun g member => (graphs g member).mono (List.subset_cons_self op _)
  | compile | call => exact graphs

theorem Sound.step (sound : s.Sound) (done : s.Step s') : s'.Sound := by
  have graphs := done.assembled sound.graphs
  cases done with
  | graph | symbol | constant | apply => exact ⟨graphs, sound.programs, sound.store⟩
  | @solve _ _ _ op _ created =>
    have sub : s.solves ⊆ op :: s.solves := List.subset_cons_self op s.solves
    exact ⟨graphs, fun f member => (sound.programs f member).mono sub, sound.store.create created⟩
  | compile member created =>
    exact { sound with programs :=
      List.forall_mem_cons.mpr ⟨.of_create (sound.graphs _ member) created, sound.programs⟩ }
  | call member c =>
    have ran := ((sound.programs _ member).run sound.store c).imp (fun _ _ h => h.2)
      (fun _ _ h => h.2)
    exact { sound with
      programs := List.forall_mem_cons.mpr ⟨ran.always.1, sound.programs⟩
      store := ran.always.2 }

theorem Reached.sound (reached : s.Reached) : s.Sound := by
  induction reached with
  | start world => exact ⟨nofun, nofun, nofun, nofun⟩
  | step _ done ih => exact ih.step done

/-- Some session has a graph, next to these solve operations and this store. -/
def Has (solves : List Solve) (store : Store α (BuiltIn α) ω)
    (g : Graph α (Store α (BuiltIn α) ω)) : Prop :=
  ∃ s : Session α ω, s.Reached ∧ g ∈ s.graphs ∧ s.solves = solves ∧ s.store = store

namespace Has

variable {solves : List Solve} {store store' : Store α (BuiltIn α) ω}
  {g g' : Graph α (Store α (BuiltIn α) ω)}

theorem empty (world : ω) : Has [] ⟨#[], world⟩ (.empty : Graph α (Store α (BuiltIn α) ω)) :=
  ⟨_, (Reached.start world).step .graph, List.mem_cons_self, rfl, rfl⟩

theorem symbol (has : Has solves store g) (name : String) {shape : Shape} (small : shape.Small) :
    Has solves store (g.symbol name shape).2 := by
  obtain ⟨s, reached, member, same, same'⟩ := has
  exact ⟨_, reached.step (.symbol member name small), List.mem_cons_self, same, same'⟩

theorem solve (has : Has solves store g) {plugin : String} {pattern : Pattern}
    {transposed : Bool} {op : Solve}
    (created : Solve.create (.builtIn id) plugin pattern transposed store = .ok (op, store')) :
    Has (op :: solves) store' g := by
  obtain ⟨s, reached, member, rfl, rfl⟩ := has
  exact ⟨_, reached.step (.solve created), member, rfl, rfl⟩

theorem apply (has : Has solves store g) {op : Operation α (Store α (BuiltIn α) ω)}
    (offered : op.Offered solves) {children : List NodeId} {node : NodeId}
    (answered : g.apply op children = .ok (node, g')) : Has solves store g' := by
  obtain ⟨s, reached, member, rfl, same⟩ := has
  exact ⟨_, reached.step (.apply member offered answered), List.mem_cons_self, rfl, same⟩

theorem compile (has : Has solves store g) {name : String} {inputs outputs : List NodeId}
    {f : Program α (Store α (BuiltIn α) ω)}
    (created : Program.create name g inputs outputs = .ok f) :
    ∃ s : Session α ω, s.Reached ∧ g ∈ s.graphs ∧ f ∈ s.programs ∧ s.store = store := by
  obtain ⟨s, reached, member, -, same⟩ := has
  exact ⟨_, reached.step (.compile member created), member, List.mem_cons_self, same⟩

end Has

/-- A session with a system whose matrix and right-hand sides are symbols, and a program for it. -/
theorem reached_system {matrix rhs : Shape} (small : matrix.Small) (small' : rhs.Small)
    {pattern : Pattern} {op : Solve} {store : Store α (BuiltIn α) ω} {world : ω} {plugin : String}
    (created : Solve.create (.builtIn id : Catalogue α (BuiltIn α)) plugin pattern false
      ⟨#[], world⟩ = .ok (op, store))
    {g : Graph α (Store α (BuiltIn α) ω)} {node : NodeId}
    (answered : (((Graph.empty : Graph α (Store α (BuiltIn α) ω)).symbol "A" matrix).2.symbol "b"
      rhs).2.apply op.operation [⟨0⟩, ⟨1⟩] = .ok (node, g))
    (compiled : Program.create "f" g [⟨0⟩, ⟨1⟩] [node] = .ok f) :
    ∃ s : Session α ω, s.Reached ∧ f ∈ s.programs ∧ s.store = store := by
  have symbols := ((Has.empty (α := α) world).symbol "A" small).symbol "b" small'
  obtain ⟨s, reached, -, member, held⟩ :=
    ((symbols.solve created).apply (.solve List.mem_cons_self) answered).compile compiled
  exact ⟨s, reached, member, held⟩

/-- In every session a call with accepted arguments answers in the shapes of its plan or fails in a
solve node of the plan: the backend rejects the matrix or the solve, or the right-hand sides of all
directions have more columns side by side than a size can count. The one other failure is that of a
matrix of derivatives for which no array has room: it is refused before anything happens. Every
application of the plan has operands at earlier places, and on operands of their shapes it keeps the
promised shape, contributes in the shapes of its operands, and refuses only as a solve node does. -/
theorem call_fails_only_in_solves (reached : s.Reached) (member : f ∈ s.programs)
    (accepted : c.Accepted f) :
    (∀ r, (c.run (f, s.store)).1 = .ok r → c.Answers f r) ∧
    (∀ x, (c.run (f, s.store)).1 = .error x →
      x = .sizeOverflow ∧ wordLimit ≤ c.elements f ∨
      ∃ (k : Nat) (e : Entry α _) (op : Solve),
        f.plan.entries[k]? = some e ∧ e.kind = .apply op.operation ∧
          ((∃ stage reason, x = .factorization stage reason) ∨
            x = .sizeOverflow ∧ sizeLimit ≤ c.directions f * e.shape.2)) ∧
    (wordLimit ≤ c.elements f → c.run (f, s.store) = (.error .sizeOverflow, (f, s.store))) ∧
    (∀ (k : Nat) (e : Entry α _) (op : Operation α _), f.plan.entries[k]? = some e →
      e.kind = .apply op → (∀ j ∈ e.children, j < k) ∧ ∃ shapes,
        f.plan.Shaped e.children shapes ∧ op.outputShape shapes = .ok e.shape ∧
          op.Shaped (Store.Serves s.solves) shapes e.shape e.Refuses) ∧
    s.store.Serves s.solves ∧ f.slots.Fit f.plan := by
  have sound := reached.sound.programs f member
  have serves := reached.sound.store
  have ran := sound.run serves c
  refine ⟨fun r answered => (ran.result answered).1, fun x failed => ?_,
    fun crowded => sound.run_of_crowded accepted crowded,
    fun k e op at_k kind => ?_, serves, sound.fit⟩
  · refine ((ran.of_error (Prod.ext failed rfl)).1 accepted).imp_right ?_
    rintro (⟨k, e, at_k, op, kind, refused⟩ | ⟨k, e, at_k, op, kind, refused⟩)
    · refine ⟨k, e, op, at_k, kind, .inl (refused.resolve_right ?_)⟩
      rintro ⟨-, large⟩
      simp [sizeLimit] at large
    · exact ⟨k, e, op, at_k, kind, refused⟩
  · obtain ⟨⟨g, inputs, outputs, assembled, compiled⟩, -⟩ := sound
    have layout := Plan.layout_of_compile assembled.built compiled
    obtain ⟨n, -, -, -, operands⟩ := layout.entry k e at_k
    refine ⟨fun j below => ?_, assembled.entry_shaped compiled at_k kind⟩
    obtain ⟨_, -, -, earlier⟩ := Outcome.exists_of_forall₂ operands.flip below
    exact earlier

/-- A system of one equation whose matrix is zero is refused by its solve node. -/
theorem call_fails_only_in_solves_zero :
    ∃ (s : Session Int Unit) (f : Program Int (Store Int (BuiltIn Int) Unit)) (c : Call Int),
      s.Reached ∧ f ∈ s.programs ∧ c.Accepted f ∧
        (c.run (f, s.store)).1 = .error (.factorization .numeric (.zeroPivot 0 "0")) ∧
        ∃ (k : Nat) (e : Entry Int (Store Int (BuiltIn Int) Unit)) (op : Solve),
          f.plan.entries[k]? = some e ∧ e.kind = .apply op.operation := by
  have small : Shape.Small (1, 1) := ⟨by decide, by decide⟩
  have created : Solve.create (.builtIn id : Catalogue Int (BuiltIn Int)) "lu" (.dense 1 1) false
      (⟨#[], ()⟩ : Store Int (BuiltIn Int) Unit) = .ok (_, _) := rfl
  obtain ⟨s, reached, member, held⟩ := reached_system small small created rfl rfl
  refine ⟨s, _, .evaluate [.scalar 0, .scalar 1], reached, member, .evaluate rfl, ?_⟩
  refine (and_iff_left_of_imp fun zero => ?_).mpr ?_
  · have refused := (call_fails_only_in_solves reached member (.evaluate rfl)).2.1 _ zero
    obtain ⟨overflow, -⟩ | ⟨k, e, op, at_k, kind, -⟩ := refused
    · cases overflow
    · exact ⟨k, e, op, at_k, kind⟩
  · rw [held]
    refine (Outcome.map_eq_error (f := fun _ => ())).mp ?_
    decide +kernel

/-- Accepted arguments that no solve node rejects. A system without equations has `2 ^ 24` directions of
`2 ^ 40` columns each, which do not fit side by side. A program without operations has `2 ^ 30` inputs
that are its outputs, and no array has room for their derivatives. -/
theorem accepted_calls_without_room :
    let columns : DenseMatrix Int := ⟨0, 1099511627776, #[], rfl⟩
    let crowd : Call Int := .adjoint [.empty, columns] (List.replicate 16777216 [columns])
    let square : Call Int := .jacobian 0 0 [.fill (1073741824, 1) 0]
    (∃ (s : Session Int Unit) (f : Program Int (Store Int (BuiltIn Int) Unit)),
      s.Reached ∧ f ∈ s.programs ∧ crowd.Accepted f ∧
        (crowd.run (f, s.store)).1 = .error .sizeOverflow) ∧
    (∃ (s : Session Int Unit) (f : Program Int (Store Int (BuiltIn Int) Unit)),
      s.Reached ∧ f ∈ s.programs ∧
        (∀ (k : Nat) e op, f.plan.entries[k]? = some e → e.kind ≠ .apply op) ∧
        square.Accepted f ∧ (square.run (f, s.store)).1 = .error .sizeOverflow) ∧
    ∀ stage reason, Error.sizeOverflow ≠ .factorization stage reason := by
  intro columns crowd square
  refine ⟨?_, ?_, nofun⟩
  · have small : Shape.Small (0, 0) := ⟨by decide, by decide⟩
    have wide : Shape.Small (0, 1099511627776) := ⟨by decide, by decide⟩
    have created : Solve.create (.builtIn id : Catalogue Int (BuiltIn Int)) "lu" (.dense 0 0) false
        (⟨#[], ()⟩ : Store Int (BuiltIn Int) Unit) = .ok (_, _) := rfl
    obtain ⟨s, reached, member, held⟩ := reached_system small wide created rfl rfl
    have length : (List.replicate 16777216 [columns]).length = 16777216 := List.length_replicate
    have many : sizeLimit ≤ (List.replicate 16777216 [columns]).length * 1099511627776 := by
      rw [length]
      decide
    refine ⟨s, _, reached, member, ?accepted, Call.run_adjoint_of_error
      ((reached.sound.programs _ member).adjoint_of_crowded reached.sound.store rfl rfl
        ?accepted ?valued many)⟩
    case accepted =>
      refine .adjoint rfl (Outcome.forM_eq_ok.mpr fun direction along => ?_)
      rw [List.eq_of_mem_replicate along]
      rfl
    case valued =>
      rw [held]
      decide +kernel
  · have tall : Shape.Small (1073741824, 1) := ⟨by decide, by decide⟩
    have created : Program.create "f" ((.empty : Graph Int (Store Int (BuiltIn Int) Unit)).symbol "x"
        (1073741824, 1)).2 [⟨0⟩] [⟨0⟩] = .ok _ := rfl
    obtain ⟨s, reached, -, member, -⟩ := ((Has.empty ()).symbol "x" tall).compile created
    refine ⟨s, _, reached, member, ?_, ?accepted, congrArg Prod.fst
      ((reached.sound.programs _ member).run_of_crowded ?accepted ?crowded)⟩
    case accepted => exact .jacobian (by decide) (by decide) rfl
    case crowded => decide +kernel
    intro k e op at_k
    obtain ⟨inside, rfl⟩ := Array.getElem?_eq_some_iff.mp at_k
    obtain rfl := Nat.lt_one_iff.mp inside
    nofun

end Session

end Cotangent
