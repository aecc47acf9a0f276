import Cotangent.Proofs.ForwardSweep

/-! Directions one by one. A forward sweep asks every operation for all directions at once. When an
operation answers a batch as it answers its directions one after the other, a node has a row exactly
when it has a sensitivity along every direction, and the row lists them. -/
namespace Cotangent

variable {α σ : Type}

/-- Rows turned into columns. -/
theorem forall₂_columns {β γ δ : Type} {T : γ → β → δ → Prop} {seeds : List γ} {cs : List β}
    {rows : List (List δ)} (default : δ)
    (h : List.Forall₂ (fun c row => List.Forall₂ (fun seed m => T seed c m) seeds row) cs rows) :
    List.Forall₂ (fun seed ts => List.Forall₂ (T seed) cs ts) seeds
      ((List.range seeds.length).map fun d => rows.map fun row => row.getD d default) := by
  refine List.forall₂_iff_get.mpr ⟨by simp, ?_⟩
  intro d few _
  simp only [List.get_eq_getElem, List.getElem_map, List.getElem_range]
  rw [List.forall₂_map_right_iff]
  refine h.imp ?_
  intro c row entries
  obtain ⟨length, entry⟩ := List.forall₂_iff_get.mp entries
  have few' : d < row.length := length ▸ few
  simpa [List.getD_eq_getElem?_getD, few'] using entry d few few'

/-- Of two lists that match, each can stand for the other. -/
theorem forall₂_exchange {β γ δ : Type} {R : β → δ → Prop} {S : γ → δ → Prop} {xs : List β}
    {ys : List γ} (match_ : List.Forall₂ (fun x y => ∀ m, R x m ↔ S y m) xs ys) (zs : List δ) :
    List.Forall₂ R xs zs ↔ List.Forall₂ S ys zs := by
  induction match_ generalizing zs with
  | nil => simp
  | cons same _ ih => simp only [List.forall₂_cons_left_iff, same, ih]

theorem forall₂_const {β γ : Type} {x : γ} {xs : List β} {ys : List γ} :
    List.Forall₂ (fun _ y => x = y) xs ys ↔ ys = List.replicate xs.length x := by
  induction xs generalizing ys with
  | nil => simp
  | cons _ xs ih =>
    simp only [List.forall₂_cons_left_iff, ih, List.length_cons, List.replicate_succ]
    constructor
    · rintro ⟨_, _, rfl, rfl, rfl⟩
      rfl
    · rintro rfl
      exact ⟨x, _, rfl, rfl, rfl⟩

theorem forall₂_and_right {β γ : Type} {R : β → γ → Prop} {P : γ → Prop} {xs : List β}
    {ys : List γ} :
    List.Forall₂ (fun x y => R x y ∧ P y) xs ys ↔ List.Forall₂ R xs ys ∧ ∀ y ∈ ys, P y := by
  constructor
  · intro all
    refine ⟨all.imp fun _ _ h => h.1, fun y member => ?_⟩
    obtain ⟨x, -, h⟩ := Outcome.exists_of_forall₂ all.flip member
    exact h.2
  · rintro ⟨all, each⟩
    induction all with
    | nil => exact .nil
    | cons first _ ih =>
      obtain ⟨here, later⟩ := List.forall_mem_cons.mp each
      exact .cons ⟨first, here⟩ (ih later)

/-- A primitive answers a batch as it answers its directions one after the other. -/
theorem Primitive.outcome_forwardBatch (p : Primitive α) (xs : List (DenseMatrix α))
    (y : DenseMatrix α) (seeds : List (List (DenseMatrix α))) (w : σ) :
    ((p.operation : Operation α σ).forwardBatch xs y seeds w).1 = seeds.mapM (p.forward xs y) := by
  have oblivious (ts : List (DenseMatrix α)) :
      ((p.operation : Operation α σ).forward xs y ts).Oblivious fun _ => True := .ofExcept _
  exact Run.outcome_mapM oblivious seeds trivial

namespace Graph

/-- A matrix of the shape of a node. -/
def Shaped (g : Graph α σ) (id : NodeId) (m : DenseMatrix α) : Prop :=
  ∃ n, g.node? id = some n ∧ m.shape = n.shape

/-- What is supplied has the shape of its node. -/
def Supplies (g : Graph α σ) (given : NodeId → Option (DenseMatrix α)) : Prop :=
  ∀ id n m, g.node? id = some n → given id = some m → m.shape = n.shape

/-- Every operation that some output needs answers a batch of forward directions as it answers one
after the other, for arguments of the right shapes. -/
def ForwardDirectionwise (g : Graph α σ) (outputs : List NodeId) (inv : σ → Prop) : Prop :=
  ∀ id n op, g.Applied outputs id n op → ∀ xs y seeds w, inv w →
    List.Forall₂ g.Shaped n.children xs → g.Shaped id y →
    (∀ ts ∈ seeds, List.Forall₂ g.Shaped n.children ts) →
    (op.forwardBatch xs y seeds w).1 = seeds.mapM fun ts => (op.forward xs y ts w).1

/-- What such an operation answers for a batch, it answers for one after the other. A batch that it
refuses may have directions that it accepts. -/
def ForwardSplits (g : Graph α σ) (outputs : List NodeId) (inv : σ → Prop) : Prop :=
  ∀ id n op, g.Applied outputs id n op → ∀ xs y seeds w row, inv w →
    List.Forall₂ g.Shaped n.children xs → g.Shaped id y →
    (∀ ts ∈ seeds, List.Forall₂ g.Shaped n.children ts) →
    (op.forwardBatch xs y seeds w).1 = .ok row →
    seeds.mapM (fun ts => (op.forward xs y ts w).1) = .ok row

/-- And so it is for adjoint directions. -/
def AdjointSplits (g : Graph α σ) (outputs : List NodeId) (inv : σ → Prop) : Prop :=
  ∀ id n op, g.Applied outputs id n op → ∀ xs y seeds w found, inv w →
    List.Forall₂ g.Shaped n.children xs → g.Shaped id y → (∀ seed ∈ seeds, g.Shaped id seed) →
    (op.adjointBatch xs y seeds w).1 = .ok found →
    seeds.mapM (fun seed => (op.adjoint xs y seed w).1) = .ok found

section Batches

variable {g : Graph α σ} {outputs : List NodeId} {inv : σ → Prop}

theorem ForwardDirectionwise.splits (directionwise : g.ForwardDirectionwise outputs inv) :
    g.ForwardSplits outputs inv := by
  intro id n op applied xs y seeds w row hw arguments result columns answered
  rw [← answered, directionwise id n op applied xs y seeds w hw arguments result columns]

theorem Stateless.forwardDirectionwise (stateless : g.Stateless) :
    g.ForwardDirectionwise outputs inv := by
  intro id n op applied xs y seeds w _ _ _ _
  obtain ⟨p, rfl⟩ := stateless id n op applied.known applied.kind
  exact p.outcome_forwardBatch xs y seeds w

theorem Stateless.adjointSplits (stateless : g.Stateless) : g.AdjointSplits outputs inv := by
  intro id n op applied xs y seeds w found hw _ _ _ answered
  obtain ⟨p, rfl⟩ := stateless id n op applied.known applied.kind
  rw [← answered]
  exact (Run.outcome_mapM (fun _ => .ofExcept _) seeds hw).symm

end Batches

variable {g : Graph α σ} {outputs : List NodeId} {inv : σ → Prop} {w : σ} {id : NodeId}
  {given seed : NodeId → Option (DenseMatrix α)} {m : DenseMatrix α}
  {seeds : List (NodeId → Option (DenseMatrix α))}

theorem recurse_eq_ok {β : Type} {rule : NodeId → Node α σ → List β → Except Error β} {x : β}
    (sound : g.Sound) : g.recurse rule id = .ok x ↔ ∃ n, g.node? id = some n ∧ ∃ xs,
      n.children.mapM (g.recurse rule) = .ok xs ∧ rule id n xs = .ok x := by
  cases known : g.node? id with
  | none =>
    rw [recurse, known]
    simp
  | some n =>
    rw [recurse_eq sound known, Outcome.bind_eq_ok]
    simp

theorem shaped_value (sound : g.Sound) (supplies : g.Supplies given)
    (defined : g.value w given id = .ok m) : g.Shaped id m := by
  obtain ⟨n, known, xs, -, answered⟩ := (recurse_eq_ok sound).mp defined
  refine ⟨n, known, ?_⟩
  unfold valueRule at answered
  split at answered
  · exact supplies id n m known (required_eq_ok.mp answered)
  · next value constant =>
    cases answered
    exact (sound id n known).constant m constant
  · obtain ⟨m', -, checked⟩ := Outcome.bind_eq_ok.mp answered
    obtain ⟨u, fits, same⟩ := Outcome.bind_eq_ok.mp checked
    cases same
    exact Sweep.checkShape_eq_ok.mp fits

theorem shaped_tangent [Scalar α] (sound : g.Sound) (supplies : g.Supplies seed)
    (defined : g.tangent w given seed id = .ok m) : g.Shaped id m := by
  obtain ⟨n, known, ts, -, answered⟩ := (recurse_eq_ok sound).mp defined
  refine ⟨n, known, ?_⟩
  unfold tangentRule at answered
  split at answered
  · exact supplies id n m known (required_eq_ok.mp answered)
  · cases answered
    rfl
  · obtain ⟨xs, -, answered⟩ := Outcome.bind_eq_ok.mp answered
    obtain ⟨y, -, answered⟩ := Outcome.bind_eq_ok.mp answered
    obtain ⟨t, -, checked⟩ := Outcome.bind_eq_ok.mp answered
    obtain ⟨u, fits, same⟩ := Outcome.bind_eq_ok.mp checked
    cases same
    exact Sweep.checkShape_eq_ok.mp fits

/-! ### Applications -/

section Applications

variable {n : Node α σ} {op : Operation α σ} {xs : List (DenseMatrix α)} {y : DenseMatrix α}

theorem valueRule_apply (what : n.kind = .apply op) : valueRule w given id n xs = .ok m ↔
    (op.evaluate xs w).1 = .ok m ∧ m.shape = n.shape := by
  simp only [valueRule, what, Outcome.bind_eq_ok, pure, Except.pure]
  constructor
  · rintro ⟨m', answered, u, fits, same⟩
    cases same
    exact ⟨answered, Sweep.checkShape_eq_ok.mp fits⟩
  · rintro ⟨answered, fits⟩
    exact ⟨m, answered, (), Sweep.checkShape_eq_ok.mpr fits, rfl⟩

variable [Scalar α]

theorem tangentRule_apply (what : n.kind = .apply op)
    (operands : n.children.mapM (g.value w given) = .ok xs) (defined : g.value w given id = .ok y)
    {ts : List (DenseMatrix α)} : g.tangentRule w given seed id n ts = .ok m ↔
      (op.forward xs y ts w).1 = .ok m ∧ m.shape = n.shape := by
  simp only [tangentRule, what, operands, defined, Outcome.ok_bind, Outcome.bind_eq_ok, pure,
    Except.pure]
  constructor
  · rintro ⟨m', answered, u, fits, same⟩
    cases same
    exact ⟨answered, Sweep.checkShape_eq_ok.mp fits⟩
  · rintro ⟨answered, fits⟩
    exact ⟨m, answered, (), Sweep.checkShape_eq_ok.mpr fits, rfl⟩

theorem rowRule_apply (what : n.kind = .apply op)
    (operands : n.children.mapM (g.value w given) = .ok xs) (defined : g.value w given id = .ok y)
    {rows : List (List (DenseMatrix α))} {row : List (DenseMatrix α)} :
    g.rowRule w given seeds id n rows = .ok row ↔
      (op.forwardBatch xs y
        ((List.range seeds.length).map fun d => rows.map fun r => r.getD d .empty) w).1 = .ok row ∧
      row.length = seeds.length ∧ ∀ m ∈ row, m.shape = n.shape := by
  simp only [rowRule, what, operands, defined, Outcome.ok_bind, Outcome.bind_eq_ok]
  constructor
  · rintro ⟨found, answered, checked⟩
    split at checked
    · cases checked
    · next length =>
      obtain ⟨us, fits, same⟩ := Outcome.bind_eq_ok.mp checked
      cases same
      refine ⟨answered, not_not.mp length, ?_⟩
      intro m member
      obtain ⟨u, fit⟩ := Outcome.mapM_ok_of_mem fits member
      exact Sweep.checkShape_eq_ok.mp fit
  · rintro ⟨answered, length, fits⟩
    refine ⟨row, answered, ?_⟩
    obtain ⟨us, checked⟩ := Outcome.mapM_ok_of_all fun m member =>
      ⟨(), Sweep.checkShape_eq_ok.mpr (fits m member)⟩
    rw [if_neg (not_not_intro length), checked]
    rfl

end Applications

theorem recurse_leaf {β : Type} {rule : NodeId → Node α σ → List β → Except Error β} {n : Node α σ}
    (sound : g.Sound) (known : g.node? id = some n) (leaf : ∀ op, n.kind ≠ .apply op) :
    g.recurse rule id = rule id n [] := by
  rw [recurse_eq sound known, (sound id n known).leaf leaf]
  rfl

/-! ### Rows and sensitivities -/

section Rows

variable [Scalar α]

/-- A node without operands has a row exactly when it has a sensitivity along every direction. -/
theorem row_leaf_iff (sound : g.Sound) {n : Node α σ} (known : g.node? id = some n)
    (leaf : ∀ op, n.kind ≠ .apply op) (row : List (DenseMatrix α)) :
    g.recurse (g.rowRule w given seeds) id = .ok row ↔
      List.Forall₂ (fun seed m => g.tangent w given seed id = .ok m) seeds row := by
  simp only [tangent, recurse_leaf sound known leaf, rowRule, tangentRule]
  cases what : n.kind with
  | symbol name => exact Outcome.mapM_eq_ok
  | constant v =>
    simp only [Except.ok.injEq, forall₂_const]
    exact eq_comm
  | apply op => exact absurd what (leaf op)

/-- An application has sensitivities exactly when its operation answers what its operands have along
every direction, in its shape. -/
theorem tangents_apply_iff (sound : g.Sound) {n : Node α σ} {op : Operation α σ}
    (known : g.node? id = some n) (what : n.kind = .apply op) {xs : List (DenseMatrix α)}
    {y : DenseMatrix α} (operands : n.children.mapM (g.value w given) = .ok xs)
    (defined : g.value w given id = .ok y) {columns : List (List (DenseMatrix α))}
    (found : List.Forall₂ (fun seed ts =>
      List.Forall₂ (fun c t => g.tangent w given seed c = .ok t) n.children ts) seeds columns)
    (row : List (DenseMatrix α)) :
    List.Forall₂ (fun seed m => g.tangent w given seed id = .ok m) seeds row ↔
      columns.mapM (fun ts => (op.forward xs y ts w).1) = .ok row ∧
        ∀ m ∈ row, m.shape = n.shape := by
  have each := found.imp (S := fun seed ts => ∀ m, g.tangent w given seed id = .ok m ↔
      (op.forward xs y ts w).1 = .ok m ∧ m.shape = n.shape) fun seed ts along m => by
    rw [tangent, recurse_eq sound known, ← tangent, Outcome.mapM_eq_ok.mpr along, Outcome.ok_bind,
      tangentRule_apply what operands defined]
  rw [forall₂_exchange each, forall₂_and_right, Outcome.mapM_eq_ok]

/-- When rows list sensitivities, their columns have the sensitivities along one direction. -/
theorem columns_of_rows {cs : List NodeId} {rows : List (List (DenseMatrix α))}
    (found : cs.mapM (g.recurse (g.rowRule w given seeds)) = .ok rows)
    (listed : ∀ c ∈ cs, ∀ row, g.recurse (g.rowRule w given seeds) c = .ok row →
      List.Forall₂ (fun seed m => g.tangent w given seed c = .ok m) seeds row) :
    List.Forall₂ (fun seed ts => List.Forall₂ (fun c t => g.tangent w given seed c = .ok t) cs ts)
      seeds ((List.range seeds.length).map fun d => rows.map fun r => r.getD d .empty) := by
  have each := (List.forall₂_and_left _ _).mpr ⟨listed, Outcome.mapM_eq_ok.mp found⟩
  exact forall₂_columns .empty (each.imp fun c row h => h.1 row h.2)

/-- What operands have along directions has their shapes. -/
theorem shaped_columns (sound : g.Sound) (seeding : ∀ seed ∈ seeds, g.Supplies seed)
    {cs : List NodeId} {columns : List (List (DenseMatrix α))}
    (found : List.Forall₂ (fun seed ts =>
      List.Forall₂ (fun c t => g.tangent w given seed c = .ok t) cs ts) seeds columns) :
    ∀ ts ∈ columns, List.Forall₂ g.Shaped cs ts := by
  intro ts member
  obtain ⟨seed, along, each⟩ := Outcome.exists_of_forall₂ found.flip member
  exact each.imp fun c t => shaped_tangent sound (seeding seed along)

/-- A row lists the sensitivities along every direction. -/
theorem tangents_of_row (sound : g.Sound) (splits : g.ForwardSplits outputs inv) (hw : inv w)
    (supplies : g.Supplies given) (seeding : ∀ seed ∈ seeds, g.Supplies seed)
    (needed : ∃ o ∈ outputs, g.Reaches o id) (defined : ∃ y, g.value w given id = .ok y)
    {row : List (DenseMatrix α)} (answered : g.recurse (g.rowRule w given seeds) id = .ok row) :
    List.Forall₂ (fun seed m => g.tangent w given seed id = .ok m) seeds row := by
  -- operands are older than their node, so the induction is on the handle
  induction h : id.index using Nat.strongRecOn generalizing id row with
  | _ k ih =>
    obtain ⟨y, defined⟩ := defined
    obtain ⟨n, known, xs, operands, -⟩ := (recurse_eq_ok sound).mp defined
    by_cases leaf : ∀ op, n.kind ≠ .apply op
    · exact (row_leaf_iff sound known leaf row).mp answered
    · obtain ⟨op, what⟩ := not_forall_not.mp leaf
      obtain ⟨_, known', rows, found, applied⟩ := (recurse_eq_ok sound).mp answered
      cases known.symm.trans known'
      obtain ⟨o, output, path⟩ := needed
      have columns := columns_of_rows found fun c member row answered =>
        ih c.index (h ▸ (sound id n known).child_lt c member)
          ⟨o, output, path.tail ⟨n, known, member⟩⟩ (Outcome.mapM_ok_of_mem operands member)
          answered rfl
      obtain ⟨batch, -, fits⟩ := (rowRule_apply what operands defined).mp applied
      refine (tangents_apply_iff sound known what operands defined columns row).mpr ⟨?_, fits⟩
      exact splits id n op ⟨⟨o, output, path⟩, known, what⟩ xs y _ w row hw
        ((Outcome.mapM_eq_ok.mp operands).imp fun _ _ => shaped_value sound supplies)
        (shaped_value sound supplies defined) (shaped_columns sound seeding columns) batch

end Rows

end Graph

end Cotangent
