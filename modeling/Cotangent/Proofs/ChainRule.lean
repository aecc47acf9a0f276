import Cotangent.Proofs.Denotation

/-! The chain rule. Along a direction in which the inputs move, every node is in motion: near time
zero the graph denotes its matrix at that time, and its velocity is the sensitivity that a forward
sweep finds. An operator takes motions of its operands to a motion of its result, and induction over
the nodes does the rest. -/
namespace Cotangent

open Filter Topology

section Lists

variable {β γ δ : Type} {R : β → γ → Prop} {S : γ → δ → Prop}

/-- What is known of the images of some elements comes with a choice of the elements. -/
theorem exists_map_of_forall₂ {f : γ → δ} {xs : List β} {zs : List δ}
    (each : List.Forall₂ (fun x z => ∃ y, f y = z ∧ R x y) xs zs) :
    ∃ ys, ys.map f = zs ∧ List.Forall₂ R xs ys := by
  induction each with
  | nil => exact ⟨[], rfl, .nil⟩
  | cons here _ ih =>
    obtain ⟨y, rfl, related⟩ := here
    obtain ⟨ys, rfl, rest⟩ := ih
    exact ⟨y :: ys, rfl, .cons related rest⟩

theorem forall₂_comp {xs : List β} {ys : List γ} {zs : List δ} (first : List.Forall₂ R xs ys)
    (second : List.Forall₂ S ys zs) : List.Forall₂ (fun x z => ∃ y, R x y ∧ S y z) xs zs := by
  induction first generalizing zs with
  | nil =>
    cases second
    exact .nil
  | cons here _ ih =>
    cases second with
    | cons here' rest => exact .cons ⟨_, here, here'⟩ (ih rest)

/-- Finitely many things that hold near a time hold there together. -/
theorem eventually_forall₂ {R : ℝ → β → γ → Prop} {t : ℝ} {xs : List β} {ys : List γ}
    (each : List.Forall₂ (fun x y => ∀ᶠ s in 𝓝 t, R s x y) xs ys) :
    ∀ᶠ s in 𝓝 t, List.Forall₂ (R s) xs ys := by
  induction each with
  | nil => exact .of_forall fun _ => .nil
  | cons here _ ih => exact (here.and ih).mono fun _ both => .cons both.1 both.2

end Lists

namespace Operator

variable {ω : Type} {s : Store ℝ (BuiltIn ℝ) ω} {o : Operator} {xs : List (DenseMatrix ℝ)}
  {y : DenseMatrix ℝ} {directions : List (List Motion)} {row : List (DenseMatrix ℝ)}

/-- The operator takes motions of its operands to a motion of its result with a given velocity. -/
def Moves (o : Operator) (ms : List Motion) (dy : DenseMatrix ℝ) : Prop :=
  ∃ m : Motion, m.velocity = dy ∧ ∀ᶠ t in 𝓝 0, o.Means (ms.map (·.path t)) (m.path t)

theorem moves_elementary {e : Elementary} (evaluated : e.primitive.evaluate xs = .ok y)
    (regular : e.Regular xs) (values : ∀ ms ∈ directions, ms.map (·.value) = xs)
    (answered : ((e.primitive.operation : Operation ℝ (Store ℝ (BuiltIn ℝ) ω)).forwardBatch xs y
      (directions.map fun ms => ms.map (·.velocity)) s).1 = .ok row) :
    List.Forall₂ (elementary e).Moves directions row := by
  rw [Primitive.outcome_forwardBatch, Outcome.mapM_eq_ok, List.forall₂_map_left_iff] at answered
  have paired := (List.forall₂_and_left _ _).mpr ⟨values, answered⟩
  refine paired.imp fun ms dy here => ?_
  obtain ⟨rfl, forwarded⟩ := here
  obtain ⟨m, velocity, path⟩ := e.differentiates ms y dy evaluated forwarded regular
  exact ⟨m, velocity, .of_forall path⟩

theorem moves_solve {op : Solve} (faithful : s.Faithful) (general : op.General s)
    (evaluated : (op.evaluate xs s).1 = .ok y)
    (values : ∀ ms ∈ directions, ms.map (·.value) = xs)
    (answered : (op.forwardBatch xs y (directions.map fun ms => ms.map (·.velocity)) s).1 = .ok row) :
    List.Forall₂ (solve op).Moves directions row := by
  obtain ⟨a, b, rfl, solution, invertible⟩ := Solve.evaluate_solution faithful general evaluated
  have two (ms : List Motion) (member : ms ∈ directions) :
      ∃ ma mb, ms = [ma, mb] ∧ ma.value = a ∧ mb.value = b := by
    have same := values ms member
    obtain ⟨ma, mb, rfl⟩ := List.length_eq_two.mp
      ((List.length_map _).symm.trans (congrArg List.length same))
    obtain ⟨left, right⟩ := List.cons.inj same
    exact ⟨ma, mb, rfl, left, (List.cons.inj right).1⟩
  have linearized := Solve.forwardBatch_linearized faithful general
    ((congrArg Prod.fst solution.shape).trans solution.rows) (fun seed member => by
      obtain ⟨ms, along, rfl⟩ := List.mem_map.mp member
      obtain ⟨ma, mb, rfl, rfl, rfl⟩ := two ms along
      exact ⟨ma.velocity, mb.velocity, rfl, mb.shape_value.symm.trans solution.shape.symm⟩) answered
  rw [List.forall₂_map_left_iff] at linearized
  have paired := (List.forall₂_and_left _ _).mpr ⟨two, linearized⟩
  refine paired.imp fun ms dy here => ?_
  obtain ⟨⟨ma, mb, rfl, rfl, rfl⟩, solves⟩ := here
  obtain ⟨m, velocity, path⟩ :=
    Solve.exists_motion ma mb (solution.exact invertible) invertible (solves _ _ rfl)
  exact ⟨m, velocity, path.mono fun t exact => ⟨_, _, rfl, exact⟩⟩

/-- What an operation answers for a batch of directions are the velocities of its result. -/
theorem moves_of_forwardBatch (faithful : s.Faithful) (general : o.General s)
    (evaluated : (o.operation.evaluate xs s).1 = .ok y) (regular : o.Regular xs)
    (values : ∀ ms ∈ directions, ms.map (·.value) = xs)
    (answered : (o.operation.forwardBatch xs y (directions.map fun ms => ms.map (·.velocity)) s).1 =
      .ok row) : List.Forall₂ o.Moves directions row := by
  cases o with
  | elementary e => exact moves_elementary evaluated regular values answered
  | solve op => exact moves_solve faithful general evaluated values answered

end Operator

/-! ### Directions -/

/-- A matrix moved along another. -/
noncomputable def DenseMatrix.moved (x dx : DenseMatrix ℝ) (t : ℝ) : DenseMatrix ℝ :=
  .ofFn x.nrows x.ncols fun i j => x.entry i j + t * dx.entry i j

theorem DenseMatrix.moved_zero (x dx : DenseMatrix ℝ) : x.moved dx 0 = x := by
  refine DenseMatrix.ext_entry rfl rfl fun i j hi hj => ?_
  exact (DenseMatrix.entry_ofFn hi hj _).trans (by rw [zero_mul, add_zero])

namespace Motion

/-- The motion along a straight line. -/
noncomputable def line (x dx : DenseMatrix ℝ) (fits : x.shape = dx.shape) : Motion where
  path := x.moved dx
  velocity := dx
  shape_path _ := fits
  hasDerivAt i hi j hj := by
    obtain ⟨rows, columns⟩ := Prod.mk.inj fits
    have entries (t : ℝ) : (x.moved dx t).entry i j = x.entry i j + t * dx.entry i j :=
      DenseMatrix.entry_ofFn (rows.symm ▸ hi) (columns.symm ▸ hj) _
    simp only [entries]
    exact ((hasDerivAt_id 0).mul_const (dx.entry i j)).const_add (x.entry i j) |>.congr_deriv
      (one_mul _)

/-- No motion at all. -/
noncomputable def still (x : DenseMatrix ℝ) : Motion where
  path _ := x
  velocity := .fill x.shape 0
  shape_path _ := rfl
  hasDerivAt i hi j hj := by
    rw [DenseMatrix.entry_fill hi hj]
    exact hasDerivAt_const 0 _

end Motion

namespace Graph

/-- What is supplied when the inputs have moved along a direction. -/
noncomputable def moved (given seed : NodeId → Option (DenseMatrix ℝ)) (t : ℝ) (id : NodeId) :
    Option (DenseMatrix ℝ) :=
  Option.map₂ (fun x dx => x.moved dx t) (given id) (seed id)

/-- The operator of a node has its derivative where the inputs are. -/
def RegularAt {σ : Type} (g : Graph ℝ σ) (label : NodeId → Operator)
    (given : NodeId → Option (DenseMatrix ℝ)) (id : NodeId) : Prop :=
  ∀ n op xs, g.node? id = some n → n.kind = .apply op →
    List.Forall₂ (g.Denotes label given) n.children xs → (label id).Regular xs

variable {ω : Type} {g : Graph ℝ (Store ℝ (BuiltIn ℝ) ω)} {label : NodeId → Operator}
  {s : Store ℝ (BuiltIn ℝ) ω} {outputs : List NodeId} {given seed : NodeId → Option (DenseMatrix ℝ)}
  {seeds : List (NodeId → Option (DenseMatrix ℝ))} {id : NodeId} {y : DenseMatrix ℝ}
  {row : List (DenseMatrix ℝ)}

/-- A node with a value is in motion along a direction, with a given velocity, and near time zero the
graph denotes where it is. -/
def Travels (g : Graph ℝ (Store ℝ (BuiltIn ℝ) ω)) (label : NodeId → Operator)
    (s : Store ℝ (BuiltIn ℝ) ω) (given seed : NodeId → Option (DenseMatrix ℝ)) (id : NodeId)
    (dy : DenseMatrix ℝ) : Prop :=
  ∃ m : Motion, m.velocity = dy ∧ g.value s given id = .ok m.value ∧
    ∀ᶠ t in 𝓝 0, g.Denotes label (moved given seed t) id (m.path t)

/-- An input travels along the straight line from what is supplied. -/
theorem travels_symbol {n : Node ℝ (Store ℝ (BuiltIn ℝ) ω)} {name : String} {dy : DenseMatrix ℝ}
    (known : g.node? id = some n) (kind : n.kind = .symbol name) (supplies : g.Supplies given)
    (supplied : g.Supplies seed) (value : given id = some y) (velocity : seed id = some dy)
    (defined : g.value s given id = .ok y) : g.Travels label s given seed id dy := by
  have fits : y.shape = dy.shape :=
    (supplies id n y known value).trans (supplied id n dy known velocity).symm
  have start : (Motion.line y dy fits).value = y := DenseMatrix.moved_zero y dy
  refine ⟨Motion.line y dy fits, rfl, start.symm ▸ defined, .of_forall fun t => ?_⟩
  exact .symbol known kind (by rw [Graph.moved, value, velocity]; rfl)

/-- A constant stays where it is. -/
theorem travels_constant {n : Node ℝ (Store ℝ (BuiltIn ℝ) ω)} (sound : g.Sound)
    (known : g.node? id = some n) (kind : n.kind = .constant y)
    (defined : g.value s given id = .ok y) : g.Travels label s given seed id (.fill n.shape 0) := by
  have shape : y.shape = n.shape := (sound id n known).constant y kind
  exact ⟨.still y, congrArg (DenseMatrix.fill · 0) shape, defined,
    .of_forall fun t => .constant known kind⟩

/-- Motions of the operands start from their values. -/
theorem values_of_travels {cs : List NodeId} {xs : List (DenseMatrix ℝ)}
    (operands : cs.mapM (g.value s given) = .ok xs) {ms : List Motion} {near : NodeId → Motion → Prop}
    (each : List.Forall₂ (fun c m => g.value s given c = .ok m.value ∧ near c m) cs ms) :
    ms.map (·.value) = xs := by
  have found := Outcome.mapM_eq_ok.mpr
    (List.forall₂_map_right_iff.mpr (each.imp fun c m here => here.1))
  exact Except.ok.inj (found.symm.trans operands)

/-- A node travels as its operator moves, when its operands do. -/
theorem travels_apply (faithful : s.Faithful) {n : Node ℝ (Store ℝ (BuiltIn ℝ) ω)}
    (known : g.node? id = some n) (kind : n.kind = .apply (label id).operation)
    (general : (label id).General s) {xs : List (DenseMatrix ℝ)}
    (operands : n.children.mapM (g.value s given) = .ok xs) (regular : (label id).Regular xs)
    (defined : g.value s given id = .ok y)
    (evaluated : ((label id).operation.evaluate xs s).1 = .ok y)
    {columns : List (List (DenseMatrix ℝ))} (travelling : List.Forall₂ (fun seed ts =>
      List.Forall₂ (g.Travels label s given seed) n.children ts) seeds columns)
    (answered : ((label id).operation.forwardBatch xs y columns s).1 = .ok row) :
    List.Forall₂ (fun seed dy => g.Travels label s given seed id dy) seeds row := by
  -- the motions of all operands along one direction, and so along every direction
  obtain ⟨directions, rfl, moving⟩ := exists_map_of_forall₂
    (travelling.imp fun seed ts each => exists_map_of_forall₂ each)
  have values : ∀ ms ∈ directions, ms.map (·.value) = xs := by
    intro ms member
    obtain ⟨seed, -, each⟩ := Outcome.exists_of_forall₂ moving.flip member
    exact values_of_travels operands each
  have moved := Operator.moves_of_forwardBatch faithful general evaluated regular values answered
  refine (forall₂_comp moving moved).imp fun seed dy here => ?_
  obtain ⟨ms, each, m, velocity, path⟩ := here
  have reached : (label id).Means xs m.value :=
    values_of_travels operands each ▸ path.self_of_nhds
  have start := reached.unique (Operator.means_of_evaluate faithful general evaluated)
  have near := eventually_forall₂ (each.imp fun c m here => here.2)
  refine ⟨m, velocity, start ▸ defined, ?_⟩
  filter_upwards [near, path] with t operands result
  exact .apply known kind (List.forall₂_map_right_iff.mpr operands) result

/-- What a forward sweep finds for a node is the velocity of the node along each direction. -/
theorem travels_of_row (sound : g.Sound) (faithful : s.Faithful)
    (spelled : g.Spelled label outputs s)
    (regular : ∀ id, (∃ o ∈ outputs, g.Reaches o id) → g.RegularAt label given id)
    (supplies : g.Supplies given) (seeding : ∀ seed ∈ seeds, g.Supplies seed)
    (needed : ∃ o ∈ outputs, g.Reaches o id) (defined : g.value s given id = .ok y)
    (answered : g.recurse (g.rowRule s given seeds) id = .ok row) :
    List.Forall₂ (fun seed dy => g.Travels label s given seed id dy) seeds row := by
  -- operands are older than their node, so the induction is on the handle
  induction h : id.index using Nat.strongRecOn generalizing id y row with
  | _ k ih =>
    obtain ⟨n, known, xs, operands, evaluated⟩ := (recurse_eq_ok sound).mp defined
    obtain ⟨_, known', rows, found, applied⟩ := (recurse_eq_ok sound).mp answered
    cases known.symm.trans known'
    cases kind : n.kind with
    | symbol name =>
      simp only [valueRule, kind] at evaluated
      simp only [rowRule, kind] at applied
      have value := required_eq_ok.mp evaluated
      have each := (List.forall₂_and_left _ _).mpr ⟨seeding, Outcome.mapM_eq_ok.mp applied⟩
      refine each.imp fun seed dy here => ?_
      exact travels_symbol known kind supplies here.1 value (required_eq_ok.mp here.2) defined
    | constant m =>
      simp only [rowRule, kind] at applied
      simp only [valueRule, kind] at evaluated
      cases evaluated
      cases applied
      exact List.forall₂_iff_get.mpr ⟨by simp, fun d _ _ => by
        simpa using travels_constant sound known kind defined⟩
    | apply op =>
      obtain ⟨o, output, path⟩ := needed
      have use : g.Applied outputs id n op := ⟨⟨o, output, path⟩, known, kind⟩
      have older (c : NodeId) (member : c ∈ n.children) : c.index < k :=
        h ▸ (sound id n known).child_lt c member
      have below (c : NodeId) (member : c ∈ n.children) : ∃ o ∈ outputs, g.Reaches o c :=
        ⟨o, output, path.tail ⟨n, known, member⟩⟩
      obtain rfl := spelled.operation id n op use
      have values := Outcome.mapM_eq_ok.mp operands
      have meanings : List.Forall₂ (g.Denotes label given) n.children xs :=
        ((List.forall₂_and_left _ _).mpr ⟨below, values⟩).imp fun c x here =>
          denotes_of_value sound faithful spelled here.1 here.2
      have each : List.Forall₂ (fun c r => List.Forall₂ (fun seed dy =>
          g.Travels label s given seed c dy) seeds r) n.children rows := by
        refine ((List.forall₂_and_left _ _).mpr
          ⟨fun c member => member, Outcome.mapM_eq_ok.mp found⟩).imp fun c r here => ?_
        obtain ⟨member, answered⟩ := here
        obtain ⟨x, value⟩ := Outcome.mapM_ok_of_mem operands member
        exact ih c.index (older c member) (below c member) value answered rfl
      exact travels_apply faithful known kind (spelled.general id n _ use) operands
        (regular id ⟨o, output, path⟩ n _ xs known kind meanings) defined
        ((valueRule_apply kind).mp evaluated).1 (forall₂_columns .empty each)
        ((rowRule_apply kind operands defined).mp applied).1

end Graph

end Cotangent
