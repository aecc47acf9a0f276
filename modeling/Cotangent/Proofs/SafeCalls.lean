import Cotangent.Proofs.History
import Cotangent.Proofs.SafeSweeps
import Cotangent.Proofs.Solvers

/-! Calls of programs made of the library's own operations. A node of an assembled graph has the
shape that its operation promised for the shapes of its operands, and a compiled plan has room for
every value, so every entry of the plan keeps its promise. A call with accepted arguments then fails
only where a solve node refuses, and a call that fails leaves numbers that fit. -/
namespace Cotangent

variable {α σ : Type}

/-! ### Room for values -/

namespace Placement

/-- There is room for the value of every placed node. -/
def Roomy (p : Placement α σ) : Prop :=
  ∀ (k : Nat) e, p.entries[k]? = some e → e.shape.elements < wordLimit

theorem Roomy.push {p : Placement α σ} (roomy : p.Roomy) {id : NodeId} {n : Node α σ}
    {cs : List Nat} (room : n.shape.elements < wordLimit) : (p.push id n cs).Roomy := by
  intro k e at_k
  rcases entries_push.mp at_k with earlier | ⟨-, rfl⟩
  · exact roomy k e earlier
  · exact room

theorem Roomy.search_outputs {g : Graph α σ} {p p' : Placement α σ} {outputs : List NodeId}
    (roomy : p.Roomy) (placed : outputs.foldlM (searchFrom g) p = .ok p') : p'.Roomy := by
  refine Outcome.foldlM_keeps (fun p root p' _ roomy found => ?_) roomy placed
  obtain ⟨n, known, found⟩ := Outcome.bind_eq_ok.mp found
  split at found
  · cases found
    exact roomy
  · have path : ∀ f ∈ [Frame.mk root n n.children], OnPath g root f := by
      simpa using ⟨.refl, Graph.node_eq_ok.mp known, fun _ member => member⟩
    refine search_keeps (fun p id n cs roomy _ _ _ room _ _ => ?_) _ _ roomy path found
    exact Roomy.push roomy room

end Placement

/-- A plan is compiled only if there is room for the value of every entry. -/
theorem Plan.room_of_compile {g : Graph α σ} {inputs outputs : List NodeId} {p : Plan α σ}
    (compiled : compile g inputs outputs = .ok p) {k : Nat} {e : Entry α σ}
    (at_k : p.entries[k]? = some e) : e.shape.elements < wordLimit := by
  obtain ⟨q, front, r, rest, ks, -, rfl⟩ := compile_eq_ok compiled
  have empty : (Placement.empty g).Roomy := fun k e at_k => by simp [Placement.empty] at at_k
  have placed : q.Roomy := by
    refine Outcome.foldlM_keeps (fun p input p' _ roomy pushed => ?_) empty front
    obtain ⟨n, -, -, -, room, rfl⟩ := Placement.pushInput_eq_ok pushed
    exact Placement.Roomy.push roomy room
  exact placed.search_outputs rest k e at_k

/-! ### Graphs of the library's own operations -/

section Assembled

variable {ω : Type} [Scalar α] {solves solves' : List Solve}

/-- The operations of the library, solves being those of a list. -/
inductive Operation.Offered (solves : List Solve) : Operation α (Store α (BuiltIn α) ω) → Prop
  | unary (k : UnaryKind) : Offered solves k.primitive.operation
  | binary (k : BinaryKind) : Offered solves k.primitive.operation
  | matmul : Offered solves Primitive.matmul.operation
  | transpose : Offered solves Primitive.transpose.operation
  | sum : Offered solves Primitive.sum.operation
  | solve {op : Solve} (member : op ∈ solves) : Offered solves op.operation

/-- The errors that an entry may answer for so many directions: those of its solve operation. -/
def Entry.Refuses (e : Entry α (Store α (BuiltIn α) ω)) (count : Nat) (x : Error) : Prop :=
  ∃ op : Solve, e.kind = .apply op.operation ∧ Solve.Refuses e.shape count x

namespace Operation

variable {op : Operation α (Store α (BuiltIn α) ω)} {shapes : List Shape} {shape : Shape}

theorem Offered.mono (offered : op.Offered solves) (sub : solves ⊆ solves') :
    op.Offered solves' := by
  cases offered with
  | unary k => exact .unary k
  | binary k => exact .binary k
  | matmul => exact .matmul
  | transpose => exact .transpose
  | sum => exact .sum
  | solve member => exact .solve (sub member)

/-- Sizes are made of sizes. -/
theorem Offered.small (offered : op.Offered solves) (promised : op.outputShape shapes = .ok shape)
    (small : ∀ s ∈ shapes, s.Small) : shape.Small := by
  cases offered with
  | unary k =>
    obtain ⟨_, arity, read⟩ := Outcome.bind_eq_ok.mp promised
    obtain ⟨s, rfl⟩ := eq_one_of_length (checkArity_eq_ok.mp arity)
    cases read
    exact small shape List.mem_cons_self
  | binary k =>
    obtain ⟨_, arity, read⟩ := Outcome.bind_eq_ok.mp promised
    obtain ⟨s, t, rfl⟩ := eq_two_of_length (checkArity_eq_ok.mp arity)
    rcases (DenseMatrix.broadcastShape_eq_ok.mp read).1 with rfl | rfl
    · exact small _ (by simp)
    · exact small _ (by simp)
  | matmul =>
    obtain ⟨_, arity, read⟩ := Outcome.bind_eq_ok.mp promised
    obtain ⟨s, t, rfl⟩ := eq_two_of_length (checkArity_eq_ok.mp arity)
    simp only [elementAt, List.getElem?_cons_zero, List.getElem?_cons_succ, Outcome.ok_bind] at read
    split at read
    · cases read
      exact ⟨(small s (by simp)).rows, (small t (by simp)).columns⟩
    · cases read
  | transpose =>
    obtain ⟨_, arity, read⟩ := Outcome.bind_eq_ok.mp promised
    obtain ⟨s, rfl⟩ := eq_one_of_length (checkArity_eq_ok.mp arity)
    cases read
    exact ⟨(small s List.mem_cons_self).columns, (small s List.mem_cons_self).rows⟩
  | sum =>
    obtain ⟨_, -, read⟩ := Outcome.bind_eq_ok.mp promised
    cases read
    exact ⟨by decide, by decide⟩
  | solve member =>
    obtain ⟨rfl, -⟩ := Solve.outputShape_eq_ok promised
    exact small shape (by simp)

omit [Scalar α] in
/-- An operation that may refuse more. -/
theorem Shaped.imp {inv : σ → Prop} {op : Operation α σ} {refuses refuses' : Nat → Error → Prop}
    (shaped : op.Shaped inv shapes shape refuses) (more : ∀ count x, refuses count x →
      refuses' count x) : op.Shaped inv shapes shape refuses' where
  evaluate xs w fits hw := (shaped.evaluate xs w fits hw).imp (fun _ _ => id)
    fun x _ failed => ⟨more _ x failed.1, failed.2⟩
  forward xs y seeds w fits result seeding hw :=
    (shaped.forward xs y seeds w fits result seeding hw).imp (fun _ _ => id)
      fun x _ failed => ⟨more _ x failed.1, failed.2⟩
  adjoint xs y seed w fits result seeding hw :=
    (shaped.adjoint xs y seed w fits result seeding hw).imp (fun _ _ => id)
      fun x _ failed => ⟨more _ x failed.1, failed.2⟩
  forwardBatch xs y seeds w fits result seeding hw :=
    (shaped.forwardBatch xs y seeds w fits result seeding hw).imp (fun _ _ => id)
      fun x _ failed => ⟨more _ x failed.1, failed.2⟩
  adjointBatch xs y seeds w fits result seeding hw :=
    (shaped.adjointBatch xs y seeds w fits result seeding hw).imp (fun _ _ => id)
      fun x _ failed => ⟨more _ x failed.1, failed.2⟩

/-- Every operation of the library keeps its promise, and only a solve refuses. -/
theorem Offered.shaped (offered : op.Offered solves) (promised : op.outputShape shapes = .ok shape)
    (sized : ∀ s ∈ shape :: shapes, s.Sized) {e : Entry α (Store α (BuiltIn α) ω)}
    (kind : e.kind = .apply op) (whole : e.shape = shape) :
    op.Shaped (Store.Serves solves) shapes shape e.Refuses := by
  cases offered with
  | unary k => exact (k.shaped promised).operation _ _
  | binary k => exact (k.shaped promised).operation _ _
  | matmul => exact (Primitive.matmul_shaped promised sized).operation _ _
  | transpose => exact (Primitive.transpose_shaped promised).operation _ _
  | sum => exact (Primitive.sum_shaped promised).operation _ _
  | @solve op member =>
    refine (Solve.shaped member promised sized).imp fun count x refused => ?_
    exact ⟨op, kind, whole ▸ refused⟩

end Operation

/-- A graph made by builders from operations of the library: all shapes are sizes, and every node
has the shape that its operation promised. -/
structure Graph.Assembled (solves : List Solve) (g : Graph α (Store α (BuiltIn α) ω)) : Prop where
  built : g.Built
  small : ∀ id n, g.node? id = some n → n.shape.Small
  offered : ∀ id n op, g.node? id = some n → n.kind = .apply op → op.Offered solves ∧
    ∃ shapes, List.Forall₂ (fun c s => g.shape c = .ok s) n.children shapes ∧
      op.outputShape shapes = .ok n.shape

namespace Graph

variable {g g' : Graph α (Store α (BuiltIn α) ω)}

namespace Assembled

theorem empty : (Graph.empty : Graph α (Store α (BuiltIn α) ω)).Assembled solves :=
  ⟨.empty, by simp [Graph.empty, node?], by simp [Graph.empty, node?]⟩

theorem mono (assembled : g.Assembled solves) (sub : solves ⊆ solves') : g.Assembled solves' where
  built := assembled.built
  small := assembled.small
  offered id n op known kind :=
    (assembled.offered id n op known kind).imp_left fun offered => offered.mono sub

theorem push (assembled : g.Assembled solves) {n : Node α (Store α (BuiltIn α) ω)}
    (built : (g.push n).2.Built) (small : n.shape.Small)
    (offered : ∀ op, n.kind = .apply op → op.Offered solves ∧
      ∃ shapes, List.Forall₂ (fun c s => g.shape c = .ok s) n.children shapes ∧
        op.outputShape shapes = .ok n.shape) : (g.push n).2.Assembled solves := by
  have kept {m : Node α (Store α (BuiltIn α) ω)} {op : Operation α (Store α (BuiltIn α) ω)}
      (found : ∃ shapes, List.Forall₂ (fun c s => g.shape c = .ok s) m.children shapes ∧
        op.outputShape shapes = .ok m.shape) :
      ∃ shapes, List.Forall₂ (fun c s => (g.push n).2.shape c = .ok s) m.children shapes ∧
        op.outputShape shapes = .ok m.shape := by
    obtain ⟨shapes, operands, promised⟩ := found
    exact ⟨shapes, operands.imp fun _ _ => shape_push, promised⟩
  refine ⟨built, fun id m known => ?_, fun id m op known kind => ?_⟩
  · rcases node?_push_cases known with older | ⟨-, rfl⟩
    · exact assembled.small id m older
    · exact small
  · rcases node?_push_cases known with older | ⟨-, rfl⟩
    · exact (assembled.offered id m op older kind).imp_right kept
    · exact (offered op kind).imp_right kept

theorem symbol (assembled : g.Assembled solves) (name : String) {shape : Shape}
    (small : shape.Small) : (g.symbol name shape).2.Assembled solves :=
  assembled.push (assembled.built.symbol name shape) small (by simp)

theorem constant (assembled : g.Assembled solves) {value : DenseMatrix α}
    (small : value.shape.Small) : (g.constant value).2.Assembled solves :=
  assembled.push (assembled.built.constant value) small (by simp)

theorem apply (assembled : g.Assembled solves) {op : Operation α (Store α (BuiltIn α) ω)}
    (offered : op.Offered solves) {children : List NodeId} {id : NodeId}
    (answered : g.apply op children = .ok (id, g')) : g'.Assembled solves := by
  have built := assembled.built.apply answered
  simp only [Graph.apply, Outcome.bind_eq_ok, pure, Except.pure, Except.ok.injEq] at answered
  obtain ⟨_, -, shapes, found, shape, promised, pushed⟩ := answered
  obtain rfl := congrArg Prod.snd pushed
  have operands := Outcome.mapM_eq_ok.mp found
  refine assembled.push built (offered.small promised fun s member => ?_) fun op' same => ?_
  · obtain ⟨c, -, known⟩ := Outcome.exists_of_forall₂ operands.flip member
    obtain ⟨n, there, rfl⟩ := Outcome.map_eq_ok.mp known
    exact assembled.small c n (node_eq_ok.mp there)
  · cases same
    exact ⟨offered, shapes, operands, promised⟩

variable {inputs outputs : List NodeId} {p : Plan α (Store α (BuiltIn α) ω)}

/-- Every application of a plan is one of an offered operation, which promised the shape of its entry
for those of its operands. -/
theorem entry_offered (assembled : g.Assembled solves)
    (compiled : Plan.compile g inputs outputs = .ok p) {k : Nat}
    {e : Entry α (Store α (BuiltIn α) ω)} {op : Operation α (Store α (BuiltIn α) ω)}
    (at_k : p.entries[k]? = some e) (kind : e.kind = .apply op) :
    op.Offered solves ∧ ∃ shapes, p.Shaped e.children shapes ∧ op.outputShape shapes = .ok e.shape ∧
      ∀ s ∈ e.shape :: shapes, s.Sized := by
  have layout := Plan.layout_of_compile assembled.built compiled
  have sized (j : Nat) (e) (at_j : p.entries[j]? = some e) : e.shape.Sized := by
    obtain ⟨n, known, -, shape, -⟩ := layout.entry j e at_j
    exact { assembled.small e.node n known |> (shape ▸ ·) with
      room := Plan.room_of_compile compiled at_j }
  obtain ⟨n, known, same, shape, operands⟩ := layout.entry k e at_k
  obtain ⟨offered, shapes, promises, promised⟩ :=
    assembled.offered e.node n op known (same ▸ kind)
  have placed : p.Shaped e.children shapes := by
    refine List.forall₂_iff_get.mpr ⟨operands.length_eq.symm.trans promises.length_eq, ?_⟩
    intro i inside inside'
    have bound : i < n.children.length := operands.length_eq ▸ inside
    have found := ((List.forall₂_iff_get.mp operands).2 i bound inside).1
    have claimed := (List.forall₂_iff_get.mp promises).2 i bound inside'
    obtain ⟨e', at_j, node⟩ := (layout.find?_iff _ _).mp found
    obtain ⟨m, there, claim⟩ := Outcome.map_eq_ok.mp claimed
    obtain ⟨m', there', -, shape', -⟩ := layout.entry _ e' at_j
    rw [node] at there'
    cases (node_eq_ok.mp there).symm.trans there'
    exact ⟨e', at_j, shape'.trans claim⟩
  refine ⟨offered, shapes, placed, shape ▸ promised, List.forall_mem_cons.mpr ⟨sized k e at_k, ?_⟩⟩
  intro s member
  obtain ⟨j, -, e', at_j, rfl⟩ := Outcome.exists_of_forall₂ placed.flip member
  exact sized j e' at_j

/-- Every application of a plan keeps the promise that its node was built on. -/
theorem entry_shaped (assembled : g.Assembled solves)
    (compiled : Plan.compile g inputs outputs = .ok p) {k : Nat}
    {e : Entry α (Store α (BuiltIn α) ω)} {op : Operation α (Store α (BuiltIn α) ω)}
    (at_k : p.entries[k]? = some e) (kind : e.kind = .apply op) :
    ∃ shapes, p.Shaped e.children shapes ∧ op.outputShape shapes = .ok e.shape ∧
      op.Shaped (Store.Serves solves) shapes e.shape e.Refuses := by
  obtain ⟨offered, shapes, placed, promised, sized⟩ := assembled.entry_offered compiled at_k kind
  exact ⟨shapes, placed, promised, offered.shaped promised sized kind rfl⟩

theorem promises (assembled : g.Assembled solves)
    (compiled : Plan.compile g inputs outputs = .ok p) :
    p.Promises (Store.Serves solves) Entry.Refuses := by
  intro k e op at_k kind
  obtain ⟨shapes, operands, -, shaped⟩ := assembled.entry_shaped compiled at_k kind
  exact ⟨shapes, operands, shaped⟩

end Assembled

end Graph

end Assembled

/-! ### Calls -/

/-- The arguments of a call pass the checks of counts, shapes and indices. -/
inductive Call.Accepted [Scalar α] (f : Program α σ) : Call α → Prop
  | evaluate {xs : List (DenseMatrix α)} (inputs : f.checkInputs xs = .ok ()) :
      Accepted f (.evaluate xs)
  | forward {xs : List (DenseMatrix α)} {seeds : List (List (DenseMatrix α))}
      (inputs : f.checkInputs xs = .ok ()) (directions : f.checkForward seeds = .ok ()) :
      Accepted f (.forward xs seeds)
  | adjoint {xs : List (DenseMatrix α)} {seeds : List (List (DenseMatrix α))}
      (inputs : f.checkInputs xs = .ok ()) (directions : f.checkAdjoint seeds = .ok ()) :
      Accepted f (.adjoint xs seeds)
  | jacobian {input output : Nat} {xs : List (DenseMatrix α)} (column : input < f.inputCount)
      (row : output < f.outputCount) (inputs : f.checkInputs xs = .ok ()) :
      Accepted f (.jacobian input output xs)

/-- The elements of the matrix of derivatives that a call asks for. -/
def Call.elements (f : Program α σ) : Call α → Nat
  | .evaluate _ => 0
  | .forward _ _ => 0
  | .adjoint _ _ => 0
  | .jacobian input output _ =>
    (f.plan.outputShape? output).elim 0 Shape.elements *
      (f.plan.inputShape? input).elim 0 Shape.elements

/-- A call with accepted arguments that has room for the matrix it asks for. -/
structure Call.Admitted [Scalar α] (f : Program α σ) (c : Call α) : Prop where
  accepted : c.Accepted f
  room : c.elements f < wordLimit

/-- The number of directions that a call asks of every operation. -/
def Call.directions (f : Program α σ) : Call α → Nat
  | .evaluate _ => 0
  | .forward _ seeds => seeds.length
  | .adjoint _ seeds => seeds.length
  | .jacobian input output _ =>
    min ((f.plan.inputShape? input).elim 0 Shape.elements)
      ((f.plan.outputShape? output).elim 0 Shape.elements)

namespace Sensitivities

/-- Outputs in their shapes, and so many directions in the shapes of some positions. -/
structure Fits (p : Plan α σ) (positions : List Nat) (count : Nat) (r : Sensitivities α) :
    Prop where
  outputs : p.Fitting p.outputs r.outputs
  count : r.sensitivities.length = count
  directions : ∀ direction ∈ r.sensitivities, p.Fitting positions direction

/-- There is such an element of some direction and slot. -/
def Has (r : Sensitivities α) (direction slot k : Nat) : Prop :=
  ∃ row m, r.sensitivities[direction]? = some row ∧ row[slot]? = some m ∧ k < m.data.size

theorem Fits.has {p : Plan α σ} {positions : List Nat} {count : Nat} {r : Sensitivities α}
    (fits : r.Fits p positions count) {direction slot k : Nat} {shape : Shape}
    (few : direction < count) (known : positions[slot]?.bind p.shapeAt? = some shape)
    (inside : k < shape.elements) : r.Has direction slot k := by
  have bound : direction < r.sensitivities.length := fits.count ▸ few
  have fitting := fits.directions _ (List.getElem_mem bound)
  obtain ⟨j, at_slot, shaped⟩ := Option.bind_eq_some_iff.mp known
  obtain ⟨m, found, e, at_j, same⟩ := Outcome.exists_at_of_forall₂ fitting at_slot
  obtain ⟨e', at_j', rfl⟩ := Option.map_eq_some_iff.mp shaped
  cases at_j.symm.trans at_j'
  refine ⟨_, m, List.getElem?_eq_getElem bound, found, ?_⟩
  rw [DenseMatrix.size_data]
  exact Nat.lt_of_lt_of_eq inside (congrArg Shape.elements same).symm

end Sensitivities

/-- What a call answers: matrices in the shapes of their places, one row for every direction, and a
matrix of derivatives whose elements were all there to be read. -/
inductive Call.Answers [Scalar α] (f : Program α σ) : Call α → Answer α → Prop
  | evaluate {xs values : List (DenseMatrix α)} (fits : f.plan.Fitting f.plan.outputs values) :
      Answers f (.evaluate xs) (.outputs values)
  | forward {xs : List (DenseMatrix α)} {seeds : List (List (DenseMatrix α))}
      {r : Sensitivities α} (fits : r.Fits f.plan f.plan.outputs seeds.length) :
      Answers f (.forward xs seeds) (.sensitivities r)
  | adjoint {xs : List (DenseMatrix α)} {seeds : List (List (DenseMatrix α))}
      {r : Sensitivities α} (fits : r.Fits f.plan f.plan.inputs seeds.length) :
      Answers f (.adjoint xs seeds) (.sensitivities r)
  | columns {input output : Nat} {xs : List (DenseMatrix α)} {inShape outShape : Shape}
      {r : Sensitivities α} (column : f.plan.inputShape? input = some inShape)
      (row : f.plan.outputShape? output = some outShape)
      (reads : ∀ j < inShape.elements, ∀ k < outShape.elements, r.Has j output k) :
      Answers f (.jacobian input output xs)
        (.matrix (.ofFn outShape.elements inShape.elements fun k j =>
          Program.element r j output k))
  | rows {input output : Nat} {xs : List (DenseMatrix α)} {inShape outShape : Shape}
      {r : Sensitivities α} (column : f.plan.inputShape? input = some inShape)
      (row : f.plan.outputShape? output = some outShape)
      (reads : ∀ k < outShape.elements, ∀ j < inShape.elements, r.Has k input j) :
      Answers f (.jacobian input output xs)
        (.matrix (.ofFn outShape.elements inShape.elements fun k j =>
          Program.element r k input j))

namespace Program

/-- A program of a plan whose numbers fit, next to a state that satisfies an invariant. -/
structure Fitted (p : Plan α σ) (inv : σ → Prop) (t : Program α σ × σ) : Prop where
  plan : t.1.plan = p
  fit : t.1.slots.Fit p
  state : inv t.2

/-- An operation of the plan refuses, either to evaluate or so many directions. -/
def Refused (p : Plan α σ) (refuses : Entry α σ → Nat → Error → Prop) (count : Nat) (x : Error) :
    Prop :=
  p.Refuses refuses 0 x ∨ p.Refuses refuses count x

variable {g : Graph α σ} {inputs outputs : List NodeId} {p : Plan α σ} {inv : σ → Prop}
  {refuses : Entry α σ → Nat → Error → Prop} {f : Program α σ} {w : σ}
  {xs : List (DenseMatrix α)} {seeds : List (List (DenseMatrix α))}

/-- A place of the plan has a shape. -/
theorem shape_ne_none {positions : List Nat}
    (placed : ∀ k ∈ positions, ∃ e, p.entries[k]? = some e) {i : Nat}
    (inside : i < positions.length) : positions[i]?.bind p.shapeAt? ≠ none := by
  obtain ⟨e, at_k⟩ := placed _ (List.getElem_mem inside)
  simp [List.getElem?_eq_getElem inside, Plan.shapeAt?, at_k]

theorem fitting_outputs (layout : p.Layout g inputs outputs) {s : Slots α} (fit : s.Fit p) :
    p.Fitting p.outputs (p.outputs.map s.value) :=
  Plan.fitting_map (fun _ bound => layout.placed_output bound) fun _ _ at_k => fit.shape_value at_k

/-- A sweep of the program's own numbers. -/
theorem Fitted.sweep {act : Plan α σ → Sweep α σ Unit} {count : Nat} {t : Program α σ × σ}
    {Q : Slots α → Prop} (fitted : Fitted p inv t)
    (swept : Run.Post (act p) (t.1.slots, t.2) (fun _ u => p.Fits inv u ∧ Q u.1)
      (fun x u => p.Refuses refuses count x ∧ p.Fits inv u)) :
    Run.Post (Program.sweep act) t (fun _ t => Fitted p inv t ∧ Q t.1.slots)
      (fun x t => p.Refuses refuses count x ∧ Fitted p inv t) := by
  obtain ⟨rfl, -, -⟩ := fitted
  refine (post_sweep swept).imp ?_ ?_
  · rintro _ ⟨_, w'⟩ ⟨s, rfl, ⟨fit, hw⟩, room⟩
    exact ⟨⟨rfl, fit, hw⟩, room⟩
  · rintro x ⟨_, w'⟩ ⟨s, rfl, refused, fit, hw⟩
    exact ⟨refused, rfl, fit, hw⟩

variable [Scalar α]

theorem Fitted.refresh (layout : p.Layout g inputs outputs) (promises : p.Promises inv refuses)
    (fitted : Fitted p inv (f, w)) (fitting : p.Fitting p.inputs xs) :
    Run.Post (refresh xs) (f, w) (fun _ => Fitted p inv)
      (fun x t => p.Refuses refuses 0 x ∧ Fitted p inv t) := by
  obtain ⟨rfl, fit, hw⟩ := fitted
  have swept := (Plan.post_bindInputs layout fit hw fitting).bind_sure fun _ t ready =>
    Plan.post_valueSweep_shaped promises ready.fit ready.state
  by_cases skipped : f.state = .evaluated ∧ f.lastInputs = xs
  · simp only [Run.Post, Program.refresh, if_pos skipped]
    exact ⟨rfl, fit, hw⟩
  · simp only [Run.Post, Program.refresh, if_neg skipped] at swept ⊢
    rcases ran : (f.plan.bindInputs xs >>= fun _ => f.plan.valueSweep) (f.slots, w) with
      ⟨x | _, s, w'⟩
    · simp only [ran] at swept ⊢
      exact ⟨swept.1, rfl, swept.2.1, swept.2.2⟩
    · simp only [ran] at swept ⊢
      exact ⟨rfl, swept.1, swept.2⟩

theorem Fitted.evaluate (layout : p.Layout g inputs outputs) (promises : p.Promises inv refuses)
    (fitted : Fitted p inv (f, w)) :
    Run.Post (evaluate xs) (f, w) (fun outs t => p.Fitting p.outputs outs ∧ Fitted p inv t)
      (fun x t => (f.checkInputs xs = .ok () → p.Refuses refuses 0 x) ∧ Fitted p inv t) := by
  cases checked : f.checkInputs xs with
  | error e => exact post_rejected checked ⟨nofun, fitted⟩
  | ok u =>
    have fitting := (checkInputs_eq_ok layout fitted.plan).mp checked
    refine post_accepted checked (Run.Post.bind ((fitted.refresh layout promises fitting).imp
      (fun _ _ => id) fun x t failed => ⟨fun _ => failed.1, failed.2⟩) ?_)
    rintro _ ⟨f, w⟩ ⟨rfl, fit, hw⟩
    exact ⟨fitting_outputs layout fit, rfl, fit, hw⟩

theorem Fitted.forward (layout : p.Layout g inputs outputs) (promises : p.Promises inv refuses)
    (fitted : Fitted p inv (f, w)) :
    Run.Post (forward xs seeds) (f, w)
      (fun r t => r.Fits p p.outputs seeds.length ∧ Fitted p inv t)
      (fun x t => (f.checkInputs xs = .ok () → f.checkForward seeds = .ok () →
        Refused p refuses seeds.length x) ∧ Fitted p inv t) := by
  cases checked : f.checkInputs xs with
  | error e => exact post_rejected checked ⟨nofun, fitted⟩
  | ok u =>
    cases checked' : f.checkForward seeds with
    | error e => exact post_accepted checked (post_rejected checked' ⟨nofun, fitted⟩)
    | ok u =>
      have fitting := (checkInputs_eq_ok layout fitted.plan).mp checked
      have seeding := (checkForward_eq_ok layout fitted.plan).mp checked'
      refine post_accepted checked (post_accepted checked' ?_)
      refine Run.Post.bind ((fitted.refresh layout promises fitting).imp (fun _ _ => id)
        fun x t failed => ⟨fun _ _ => .inl failed.1, failed.2⟩) ?_
      intro _ t fitted
      refine Run.Post.bind ((fitted.sweep (Plan.post_forwardSweep_shaped layout promises fitted.fit
        fitted.state seeding)).imp (fun _ _ => id) fun x t failed =>
          ⟨fun _ _ => .inr failed.1, failed.2⟩) ?_
      rintro _ ⟨f, w⟩ ⟨⟨rfl, fit, hw⟩, room⟩
      refine ⟨⟨fitting_outputs layout fit, by simp, fun direction along => ?_⟩, rfl, fit, hw⟩
      obtain ⟨d, few, rfl⟩ := List.mem_map.mp along
      exact Plan.fitting_map (fun _ bound => layout.placed_output bound) fun _ _ at_k =>
        fit.shape_forward room (List.mem_range.mp few) at_k

theorem Fitted.adjoint (layout : p.Layout g inputs outputs) (promises : p.Promises inv refuses)
    (fitted : Fitted p inv (f, w)) :
    Run.Post (adjoint xs seeds) (f, w)
      (fun r t => r.Fits p p.inputs seeds.length ∧ Fitted p inv t)
      (fun x t => (f.checkInputs xs = .ok () → f.checkAdjoint seeds = .ok () →
        Refused p refuses seeds.length x) ∧ Fitted p inv t) := by
  cases checked : f.checkInputs xs with
  | error e => exact post_rejected checked ⟨nofun, fitted⟩
  | ok u =>
    cases checked' : f.checkAdjoint seeds with
    | error e => exact post_accepted checked (post_rejected checked' ⟨nofun, fitted⟩)
    | ok u =>
      have fitting := (checkInputs_eq_ok layout fitted.plan).mp checked
      have seeding := (checkAdjoint_eq_ok layout fitted.plan).mp checked'
      refine post_accepted checked (post_accepted checked' ?_)
      refine Run.Post.bind ((fitted.refresh layout promises fitting).imp (fun _ _ => id)
        fun x t failed => ⟨fun _ _ => .inl failed.1, failed.2⟩) ?_
      intro _ t fitted
      refine Run.Post.bind ((fitted.sweep (Plan.post_adjointSweep_shaped promises fitted.fit
        fitted.state seeding)).imp (fun _ _ => id) fun x t failed =>
          ⟨fun _ _ => .inr failed.1, failed.2⟩) ?_
      rintro _ ⟨f, w⟩ ⟨⟨rfl, fit, hw⟩, room⟩
      refine ⟨⟨fitting_outputs layout fit, by simp, fun direction along => ?_⟩, rfl, fit, hw⟩
      obtain ⟨d, few, rfl⟩ := List.mem_map.mp along
      exact Plan.fitting_map (fun _ bound => layout.placed_input bound) fun _ _ at_k =>
        fit.shape_adjoint room (List.mem_range.mp few) at_k

/-- Directions along single elements have the shapes of their places. -/
theorem fitting_unitSeeds {positions : List Nat}
    (placed : ∀ k ∈ positions, ∃ e, p.entries[k]? = some e) (slot element : Nat) :
    p.Fitting positions
      (unitSeeds (α := α) positions.length slot element fun i => positions[i]?.bind p.shapeAt?) := by
  refine List.forall₂_iff_get.mpr ⟨by simp [unitSeeds], ?_⟩
  intro i inside inside'
  obtain ⟨e, at_k⟩ := placed _ (List.getElem_mem inside)
  have shape : positions[i]?.bind p.shapeAt? = some e.shape := by
    simp [List.getElem?_eq_getElem inside, Plan.shapeAt?, at_k]
  refine ⟨e, at_k, ?_⟩
  simp only [unitSeeds, List.get_eq_getElem, List.getElem_map, List.getElem_range, shape]
  split <;> rfl

theorem Fitted.jacobian (layout : f.plan.Layout g inputs outputs)
    (promises : f.plan.Promises inv refuses) (fitted : Fitted f.plan inv (f, w))
    (input output : Nat) :
    Run.Post (Call.jacobian input output xs).run (f, w)
      (fun r t => (Call.jacobian input output xs).Answers f r ∧ Fitted f.plan inv t)
      (fun x t => (Call.Accepted f (.jacobian input output xs) →
        x = .sizeOverflow ∧ wordLimit ≤ Call.elements f (.jacobian input output xs) ∨
        Refused f.plan refuses (Call.directions f (.jacobian input output xs)) x) ∧
          Fitted f.plan inv t) := by
  have ins (k) (bound : k ∈ f.plan.inputs) := layout.placed_input bound
  have outs (k) (bound : k ∈ f.plan.outputs) := layout.placed_output bound
  refine Run.Post.bind (post_current ?_) fun r t answered => answered
  dsimp only
  cases column : f.plan.inputShape? input with
  | none =>
    refine ⟨fun accepted => ?_, fitted⟩
    cases accepted with
    | jacobian inside => exact absurd column (shape_ne_none ins inside)
  | some inShape =>
    cases row : f.plan.outputShape? output with
    | none =>
      refine ⟨fun accepted => ?_, fitted⟩
      cases accepted with
      | jacobian _ inside => exact absurd row (shape_ne_none outs inside)
    | some outShape =>
      have count : Call.directions f (.jacobian input output xs) =
          min inShape.elements outShape.elements := by
        simp [Call.directions, column, row]
      have elements : Call.elements f (.jacobian input output xs) =
          outShape.elements * inShape.elements := by
        simp [Call.elements, column, row]
      rw [count]
      refine Run.Post.check _ (fun x refused => ?_) fun _ _ => ?_
      · exact ⟨fun _ => .inl (checkRoom_eq_error_iff.mp (elements ▸ refused)), fitted⟩
      split
      · next fewer =>
        refine Run.Post.bind ((fitted.forward layout promises).imp (fun _ _ => id)
          fun x t failed => ⟨fun accepted => ?_, failed.2⟩) ?_
        · cases accepted with
          | jacobian _ _ checked =>
            have refused := failed.1 checked ((checkForward_eq_ok layout rfl).mpr ?_)
            · exact .inr (by simpa [Nat.min_eq_left fewer] using refused)
            · intro direction along
              obtain ⟨j, -, rfl⟩ := List.mem_map.mp along
              exact fitting_unitSeeds ins input j
        · rintro r t ⟨fits, fitted⟩
          refine ⟨.columns column row fun j few k inside => ?_, fitted⟩
          exact fits.has (by simpa using few) row inside
      · next more =>
        refine Run.Post.bind ((fitted.adjoint layout promises).imp (fun _ _ => id)
          fun x t failed => ⟨fun accepted => ?_, failed.2⟩) ?_
        · cases accepted with
          | jacobian _ _ checked =>
            have refused := failed.1 checked ((checkAdjoint_eq_ok layout rfl).mpr ?_)
            · exact .inr (by simpa [Nat.min_eq_right (Nat.le_of_not_le more)] using refused)
            · intro direction along
              obtain ⟨j, -, rfl⟩ := List.mem_map.mp along
              exact fitting_unitSeeds outs output j
        · rintro r t ⟨fits, fitted⟩
          refine ⟨.rows column row fun k few j inside => ?_, fitted⟩
          exact fits.has (by simpa using few) column inside

/-- A call keeps the numbers fitting and answers in the shapes of its plan, and with accepted
arguments it fails only where an operation refuses, or where the matrix it asks for has no room. -/
theorem Fitted.run (layout : f.plan.Layout g inputs outputs)
    (promises : f.plan.Promises inv refuses) (fitted : Fitted f.plan inv (f, w)) (c : Call α) :
    Run.Post c.run (f, w) (fun r t => c.Answers f r ∧ Fitted f.plan inv t)
      (fun x t => (c.Accepted f → x = .sizeOverflow ∧ wordLimit ≤ c.elements f ∨
        Refused f.plan refuses (c.directions f) x) ∧ Fitted f.plan inv t) := by
  cases c with
  | evaluate xs =>
    refine Run.Post.bind ((fitted.evaluate layout promises).imp (fun _ _ => id)
      fun x t failed => ⟨fun accepted => ?_, failed.2⟩) ?_
    · cases accepted with
      | evaluate checked => exact .inr (.inl (failed.1 checked))
    · exact fun outs t answered => ⟨.evaluate answered.1, answered.2⟩
  | forward xs seeds =>
    refine Run.Post.bind ((fitted.forward layout promises).imp (fun _ _ => id)
      fun x t failed => ⟨fun accepted => ?_, failed.2⟩) ?_
    · cases accepted with
      | forward checked checked' => exact .inr (failed.1 checked checked')
    · exact fun r t answered => ⟨.forward answered.1, answered.2⟩
  | adjoint xs seeds =>
    refine Run.Post.bind ((fitted.adjoint layout promises).imp (fun _ _ => id)
      fun x t failed => ⟨fun accepted => ?_, failed.2⟩) ?_
    · cases accepted with
      | adjoint checked checked' => exact .inr (failed.1 checked checked')
    · exact fun r t answered => ⟨.adjoint answered.1, answered.2⟩
  | jacobian input output xs => exact fitted.jacobian layout promises input output

end Program

end Cotangent
