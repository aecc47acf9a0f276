import Mathlib
import Cotangent.Proofs.CallStages
import Cotangent.Proofs.LocalDuality

/-! The two ways to a Jacobian. One forward direction for every element of an input gives the columns of
the matrix, one adjoint direction for every element of an output gives its rows. Pairing with such a
direction reads one element, so that the transposition of whole sweeps makes the entries agree, and it
makes the matrix answer for every other direction of the input and of the output. -/
namespace Cotangent

open Finset (range)

variable {α σ : Type} [RingScalar α]

/-- A matrix takes the elements of one matrix to those of another. -/
structure DenseMatrix.Maps (a x y : DenseMatrix α) : Prop where
  columns : x.shape.elements = a.ncols
  rows : y.shape.elements = a.nrows
  product : ∀ k, k < a.nrows → y.vec k = ∑ j ∈ range a.ncols, a.entry k j * x.vec j

/-! ### Dual rules -/

namespace Graph

variable {g : Graph α σ} {outputs : List NodeId} {w : σ} {given : NodeId → Option (DenseMatrix α)}

omit [RingScalar α] in
/-- What has the shapes of the same nodes has the same shapes. -/
theorem shapes_eq {ids : List NodeId} {ms ms' : List (DenseMatrix α)}
    (shaped : List.Forall₂ g.Shaped ids ms) (shaped' : List.Forall₂ g.Shaped ids ms') :
    ms.map (·.shape) = ms'.map (·.shape) := by
  induction shaped generalizing ms' with
  | nil =>
    cases shaped'
    rfl
  | cons first rest ih =>
    cases shaped' with
    | cons first' rest' =>
      obtain ⟨n, known, shape⟩ := first
      obtain ⟨n', known', shape'⟩ := first'
      cases known.symm.trans known'
      rw [List.map_cons, List.map_cons, shape, shape', ih rest']

/-- Dual rules of all operations that some output needs make their adjoints the transposes. -/
theorem transposed_of_dual (sound : g.Sound) (supplies : g.Supplies given)
    (dual : ∀ id n op xs y, g.Applied outputs id n op → List.Forall₂ g.Shaped n.children xs →
      (op.evaluate xs w).1 = .ok y → DualRules xs y (fun us => (op.forward xs y us w).1)
        fun seed => (op.adjoint xs y seed w).1) : g.Transposed outputs w given := by
  intro id n op xs y applied operands value ts seed t cs shaped fits forward adjoint
  have arguments := (Outcome.mapM_eq_ok.mp operands).imp fun _ _ => shaped_value sound supplies
  have along : [seed].map (·.shape) = [y].map (·.shape) :=
    shapes_eq (.cons fits .nil) (.cons (shaped_value sound supplies value) .nil)
  obtain ⟨n', known, xs', operands', answered⟩ := (recurse_eq_ok sound).mp value
  cases applied.known.symm.trans known
  cases operands.symm.trans operands'
  rw [valueRule, applied.kind] at answered
  obtain ⟨m, evaluated, checked⟩ := Outcome.bind_eq_ok.mp answered
  obtain ⟨u, -, same⟩ := Outcome.bind_eq_ok.mp checked
  cases same
  obtain ⟨v, ws, pushed, -, pulled, -, pairs⟩ := dual id n op xs y applied arguments evaluated ts seed
    (shapes_eq shaped arguments) (List.cons.inj along).1
  cases pushed.symm.trans forward
  cases pulled.symm.trans adjoint
  rw [pairs]
  simp [pairing, pairingOptions, innerOption, List.zipWith_map_right]

/-- A matrix of order two times a vector. -/
def product : Graph Int Unit :=
  ⟨#[⟨.symbol "A", [], (2, 2)⟩, ⟨.symbol "b", [], (2, 1)⟩,
    ⟨.apply Primitive.matmul.operation, [⟨0⟩, ⟨1⟩], (2, 1)⟩]⟩

theorem built_product : product.Built := by
  have answered : (((.empty : Graph Int Unit).symbol "A" (2, 2)).2.symbol "b" (2, 1)).2.apply
      Primitive.matmul.operation [⟨0⟩, ⟨1⟩] = .ok (⟨2⟩, product) := rfl
  exact ((Built.empty.symbol "A" (2, 2)).symbol "b" (2, 1)).apply answered

theorem applied_product {id : NodeId} {n : Node Int Unit} {op : Operation Int Unit}
    (known : product.node? id = some n) (kind : n.kind = .apply op) :
    n.children = [⟨0⟩, ⟨1⟩] ∧ op = Primitive.matmul.operation := by
  have member := Array.mem_toList_iff.mpr (Array.mem_of_getElem? known)
  simp only [product, List.mem_cons, List.not_mem_nil, or_false] at member
  rcases member with rfl | rfl | rfl <;> cases kind
  exact ⟨rfl, rfl⟩

theorem stateless_product : product.Stateless := fun _ _ _ known kind =>
  ⟨_, (applied_product known kind).2⟩

theorem transposed_product {given : NodeId → Option (DenseMatrix Int)}
    (supplies : product.Supplies given) : product.Transposed outputs () given := by
  refine transposed_of_dual built_product.sound supplies ?_
  rintro id n op xs y ⟨-, known, kind⟩ shaped evaluated
  obtain ⟨children, rfl⟩ := applied_product known kind
  rw [children] at shaped
  simp only [List.forall₂_cons_left_iff, List.forall₂_nil_left_iff] at shaped
  obtain ⟨a, _, ⟨_, known, left⟩, ⟨b, _, ⟨_, known', right⟩, rfl, rfl⟩, rfl⟩ := shaped
  cases known
  cases known'
  exact Primitive.matmul_dual evaluated (left ▸ ⟨⟨by decide, by decide⟩, by decide⟩)
    (right ▸ ⟨⟨by decide, by decide⟩, by decide⟩)

end Graph

namespace Program

variable {g : Graph α σ} {inputs outputs : List NodeId} {p : Plan α σ} {inv : σ → Prop} {w w' w₀ : σ}
  {f f' : Program α σ} {xs : List (DenseMatrix α)} {r r' : Sensitivities α}

/-! ### Unit directions -/

/-- The seeds for one element are zero but for the matrix of the element. -/
theorem unitSeeds_at {count slot k s : Nat} {shape? : Nat → Option Shape} (inside : s < count) :
    (unitSeeds count slot k shape? : List (DenseMatrix α))[s]? =
      some (if s = slot then .unit ((shape? s).getD (0, 0)) k else .fill ((shape? s).getD (0, 0)) 0) := by
  rw [unitSeeds, List.getElem?_map, List.getElem?_range inside]
  by_cases same : s = slot
  · rw [if_pos same, Option.map_some]
    simp only [if_pos same]
    rfl
  · rw [if_neg same, Option.map_some]
    simp only [if_neg same]

/-- One direction for every element of a slot. -/
def unitDirections (count slot : Nat) (shape? : Nat → Option Shape) : List (List (DenseMatrix α)) :=
  (List.range ((shape? slot).getD (0, 0)).elements).map fun k => unitSeeds count slot k shape?

section Unit

variable {count slot k : Nat} {shape? : Nat → Option Shape} {shape : Shape} {ms : List (DenseMatrix α)}
  {m : DenseMatrix α}

theorem unitDirections_at (known : shape? slot = some shape) (inside : k < shape.elements) :
    (unitDirections count slot shape? : List (List (DenseMatrix α)))[k]? =
      some (unitSeeds count slot k shape?) := by
  rw [unitDirections, List.getElem?_map, known]
  simp [inside]

theorem zeroBut_unitSeeds (count slot k : Nat) (shape? : Nat → Option Shape) :
    ZeroBut slot (unitSeeds count slot k shape? : List (DenseMatrix α)) := by
  intro s m at_s other
  have inside : s < count := by simpa [unitSeeds] using (List.getElem?_eq_some_iff.mp at_s).1
  rw [unitSeeds_at inside, if_neg other] at at_s
  cases at_s
  rfl

/-- Pairing with a unit direction reads one element. -/
theorem pairing_unitSeeds (few : slot < count) (known : shape? slot = some shape)
    (inside : k < shape.elements) (at_slot : ms[slot]? = some m) (fits : m.shape = shape) :
    pairing ms (unitSeeds count slot k shape?) = m.vec k := by
  subst fits
  have unit : (unitSeeds count slot k shape? : List (DenseMatrix α))[slot]? = _ := unitSeeds_at few
  rw [if_pos rfl, known] at unit
  rw [pairing_of_zeroBut (zeroBut_unitSeeds count slot k shape?) at_slot unit]
  exact m.inner_unit inside

theorem element_eq {r : Sensitivities α} {d : Nat} (at_d : r.sensitivities[d]? = some ms)
    (at_slot : ms[slot]? = some m) : element r d slot k = m.vec k := by
  simp [element, at_d, at_slot, DenseMatrix.vec]

end Unit

/-! ### Both ways -/

omit [RingScalar α] in
/-- What fits the places of a program has a matrix for each of them. -/
theorem fitting_at {positions : List Nat} (fitting : p.Fitting positions xs) {i : Nat} {shape : Shape}
    (known : positions[i]?.bind p.shapeAt? = some shape) : ∃ x, xs[i]? = some x ∧ x.shape = shape := by
  obtain ⟨k, at_i, placed⟩ := Option.bind_eq_some_iff.mp known
  obtain ⟨x, at_x, e, at_k, fits⟩ := Outcome.exists_at_of_forall₂ fitting at_i
  rw [Plan.shapeAt?, at_k] at placed
  cases placed
  exact ⟨x, at_x, fits⟩

/-- A matrix for which there is room is read off the sweep along the smaller side. -/
theorem jacobian_of_room {i o : Nat} {si so : Shape} (column : f.plan.inputShape? i = some si)
    (row : f.plan.outputShape? o = some so) (room : so.elements * si.elements < wordLimit) :
    jacobian i o xs (f, w) = (if si.elements ≤ so.elements then do
        let s ← forward xs (unitDirections f.plan.inputs.length i f.plan.inputShape?)
        return .ofFn so.elements si.elements fun k j => element s j o k
      else do
        let s ← adjoint xs (unitDirections f.plan.outputs.length o f.plan.outputShape?)
        return .ofFn so.elements si.elements fun k j => element s k i j : Run _ _) (f, w) := by
  rw [jacobian_of_shapes column row, checkRoom_of_lt room]
  simp only [unitDirections, column, row, Option.getD_some]
  rfl

theorem jacobian_of_crowded {i o : Nat} {si so : Shape} (column : f.plan.inputShape? i = some si)
    (row : f.plan.outputShape? o = some so) (crowded : wordLimit ≤ so.elements * si.elements) :
    jacobian i o xs (f, w) = (.error .sizeOverflow, (f, w)) := by
  rw [jacobian_of_shapes column row, checkRoom_of_le crowded]
  rfl

section Modes

variable {f₁ f₂ : Program α σ} {w₁ w₂ : σ} {i o : Nat} {si so : Shape}

/-- Along a direction of one input only, a forward call answers for an output what the adjoint unit
directions of the output answer for the input, times the direction. -/
theorem forward_of_units (setting : p.Setting g inputs outputs inv w₀)
    (splits : g.ForwardSplits outputs inv) (splits' : g.AdjointSplits outputs inv)
    (transposed : g.Transposed outputs w₀ (Graph.supplied inputs xs))
    (settled : Settled p inv w₀ inputs (f, w)) (settled' : Settled p inv w₀ inputs (f', w'))
    (input : p.inputShape? i = some si) (output : p.outputShape? o = some so)
    (adjoints : (adjoint xs (unitDirections p.outputs.length o p.outputShape?) (f', w')).1 = .ok r')
    {xdots : List (List (DenseMatrix α))} (forwards : (forward xs xdots (f, w)).1 = .ok r) {d : Nat}
    {xdot : List (DenseMatrix α)} (at_d : xdots[d]? = some xdot) (alone : ZeroBut i xdot) :
    ∃ ydot x y, r.sensitivities[d]? = some ydot ∧ xdot[i]? = some x ∧ ydot[o]? = some y ∧
      x.shape = si ∧ y.shape = so ∧ ∀ k, k < so.elements →
        y.vec k = ∑ j ∈ range si.elements, element r' k i j * x.vec j := by
  obtain ⟨xdot_fits, ydot, answer, ydot_fits⟩ := forward_fits setting splits settled forwards at_d
  obtain ⟨x, at_i, shape⟩ := fitting_at xdot_fits input
  obtain ⟨y, at_o, shape'⟩ := fitting_at ydot_fits output
  refine ⟨ydot, x, y, answer, at_i, at_o, shape, shape', fun k inside => ?_⟩
  have few : o < p.outputs.length := by
    obtain ⟨_, at_o, -⟩ := Option.bind_eq_some_iff.mp output
    exact (List.getElem?_eq_some_iff.mp at_o).1
  have unit : (unitDirections p.outputs.length o p.outputShape? : List (List (DenseMatrix α)))[k]? = _ :=
    unitDirections_at output inside
  obtain ⟨-, xbar, answer', xbar_fits⟩ := adjoint_fits setting settled' adjoints unit
  obtain ⟨z, at_z, shape''⟩ := fitting_at xbar_fits input
  calc y.vec k = pairing ydot (unitSeeds p.outputs.length o k p.outputShape?) :=
        (pairing_unitSeeds few output inside at_o shape').symm
    _ = pairing xdot xbar := pairing_sensitivities setting splits splits' transposed settled settled'
        forwards adjoints at_d unit answer answer'
    _ = z.inner x := by rw [pairing_comm, pairing_of_zeroBut alone at_z at_i]
    _ = ∑ j ∈ range si.elements, element r' k i j * x.vec j := by
        simp only [DenseMatrix.inner_eq_sum, shape'', element_eq answer' at_z]

/-- Along a direction of one output only, an adjoint call answers for an input what the forward unit
directions of the input answer for the output, times the direction. -/
theorem adjoint_of_units (setting : p.Setting g inputs outputs inv w₀)
    (splits : g.ForwardSplits outputs inv) (splits' : g.AdjointSplits outputs inv)
    (transposed : g.Transposed outputs w₀ (Graph.supplied inputs xs))
    (settled : Settled p inv w₀ inputs (f, w)) (settled' : Settled p inv w₀ inputs (f', w'))
    (input : p.inputShape? i = some si) (output : p.outputShape? o = some so)
    (forwards : (forward xs (unitDirections p.inputs.length i p.inputShape?) (f, w)).1 = .ok r)
    {ybars : List (List (DenseMatrix α))} (adjoints : (adjoint xs ybars (f', w')).1 = .ok r') {d : Nat}
    {ybar : List (DenseMatrix α)} (at_d : ybars[d]? = some ybar) (alone : ZeroBut o ybar) :
    ∃ xbar y x, r'.sensitivities[d]? = some xbar ∧ ybar[o]? = some y ∧ xbar[i]? = some x ∧
      y.shape = so ∧ x.shape = si ∧ ∀ j, j < si.elements →
        x.vec j = ∑ k ∈ range so.elements, element r j o k * y.vec k := by
  obtain ⟨ybar_fits, xbar, answer, xbar_fits⟩ := adjoint_fits setting settled' adjoints at_d
  obtain ⟨y, at_o, shape⟩ := fitting_at ybar_fits output
  obtain ⟨x, at_i, shape'⟩ := fitting_at xbar_fits input
  refine ⟨xbar, y, x, answer, at_o, at_i, shape, shape', fun j inside => ?_⟩
  have few : i < p.inputs.length := by
    obtain ⟨_, at_i, -⟩ := Option.bind_eq_some_iff.mp input
    exact (List.getElem?_eq_some_iff.mp at_i).1
  have unit : (unitDirections p.inputs.length i p.inputShape? : List (List (DenseMatrix α)))[j]? = _ :=
    unitDirections_at input inside
  obtain ⟨-, ydot, answer', ydot_fits⟩ := forward_fits setting splits settled forwards unit
  obtain ⟨z, at_z, shape''⟩ := fitting_at ydot_fits output
  calc x.vec j = pairing xbar (unitSeeds p.inputs.length i j p.inputShape?) :=
        (pairing_unitSeeds few input inside at_i shape').symm
    _ = pairing ydot ybar := by
        rw [pairing_comm]
        exact (pairing_sensitivities setting splits splits' transposed settled settled' forwards
          adjoints unit at_d answer' answer).symm
    _ = z.inner y := pairing_of_zeroBut alone at_z at_o
    _ = ∑ k ∈ range so.elements, element r j o k * y.vec k := by
        simp only [DenseMatrix.inner_eq_sum, shape'', element_eq answer' at_z]

/-- What the unit directions of an input and of an output answer is the same. -/
theorem element_units (setting : p.Setting g inputs outputs inv w₀)
    (splits : g.ForwardSplits outputs inv) (splits' : g.AdjointSplits outputs inv)
    (transposed : g.Transposed outputs w₀ (Graph.supplied inputs xs))
    (settled : Settled p inv w₀ inputs (f, w)) (settled' : Settled p inv w₀ inputs (f', w'))
    (input : p.inputShape? i = some si) (output : p.outputShape? o = some so)
    (forwards : (forward xs (unitDirections p.inputs.length i p.inputShape?) (f, w)).1 = .ok r)
    (adjoints : (adjoint xs (unitDirections p.outputs.length o p.outputShape?) (f', w')).1 = .ok r')
    {j k : Nat} (inside : j < si.elements) (inside' : k < so.elements) :
    element r j o k = element r' k i j := by
  have unit : (unitDirections p.inputs.length i p.inputShape? : List (List (DenseMatrix α)))[j]? = _ :=
    unitDirections_at input inside
  obtain ⟨ydot, x, y, answer, at_i, at_o, shape, -, product⟩ := forward_of_units setting splits splits'
    transposed settled settled' input output adjoints forwards unit (zeroBut_unitSeeds _ _ _ _)
  have few : i < p.inputs.length := by
    obtain ⟨_, at_i, -⟩ := Option.bind_eq_some_iff.mp input
    exact (List.getElem?_eq_some_iff.mp at_i).1
  rw [unitSeeds_at few, if_pos rfl, input] at at_i
  cases at_i
  rw [element_eq answer at_o, product k inside']
  rw [Finset.sum_eq_single_of_mem j (Finset.mem_range.mpr inside)]
  · rw [Option.getD_some, DenseMatrix.vec_unit _ inside, if_pos rfl, mul_one]
  · intro l _ other
    rw [Option.getD_some, DenseMatrix.vec_unit _ inside, if_neg other, mul_zero]

/-- Both ways to a Jacobian agree. For operations whose adjoint is the transpose of their forward at a
point where the sweeps along unit directions answer, the matrix that is asked for takes every direction of
the input to what a forward call answers for the output, in any reached state, and its transpose takes
every direction of the output to what an adjoint call answers for the input. Nothing here depends on the
way that the matrix was found, or on there being elements at all. Only a matrix for which no array has
room is refused. -/
theorem jacobian_agrees_with_sweeps {name : String} {f₀ : Program α σ} (built : g.Built)
    (created : create name g inputs outputs = .ok f₀) (oblivious : g.Oblivious outputs inv)
    (splits : g.ForwardSplits outputs inv) (splits' : g.AdjointSplits outputs inv)
    (hw₀ : inv w₀) (transposed : g.Transposed outputs w₀ (Graph.supplied inputs xs))
    (reached : Reached inv f₀ f) (hw : inv w) (input : i < inputs.length) (output : o < outputs.length)
    (forwards : ∃ r, (forward xs (unitDirections f.inputCount i f.plan.inputShape?) (f, w)).1 = .ok r)
    (adjoints : ∃ r, (adjoint xs (unitDirections f.outputCount o f.plan.outputShape?) (f, w)).1 = .ok r) :
    ∃ si so, f.plan.inputShape? i = some si ∧ f.plan.outputShape? o = some so ∧
      (wordLimit ≤ so.elements * si.elements →
        jacobian i o xs (f, w) = (.error .sizeOverflow, (f, w))) ∧
      (so.elements * si.elements < wordLimit → ∃ a, (jacobian i o xs (f, w)).1 = .ok a ∧
        a.shape = (so.elements, si.elements) ∧
        (∀ f' w' xdots r, Reached inv f₀ f' → inv w' → (forward xs xdots (f', w')).1 = .ok r →
          ∀ (d : Nat) xdot, xdots[d]? = some xdot → ZeroBut i xdot → ∃ ydot x y,
            r.sensitivities[d]? = some ydot ∧ xdot[i]? = some x ∧ ydot[o]? = some y ∧ a.Maps x y) ∧
        ∀ f' w' ybars r, Reached inv f₀ f' → inv w' → (adjoint xs ybars (f', w')).1 = .ok r →
          ∀ (d : Nat) ybar, ybars[d]? = some ybar → ZeroBut o ybar → ∃ xbar y x,
            r.sensitivities[d]? = some xbar ∧ ybar[o]? = some y ∧ xbar[i]? = some x ∧
              a.transpose.Maps y x) := by
  have setting := setting_of_create built created oblivious hw₀
  have settled := reached.settled setting created hw
  obtain ⟨r₁, forwards⟩ := forwards
  obtain ⟨r₂, adjoints⟩ := adjoints
  have same : f.plan = f₀.plan := settled.plan
  rw [inputCount, same] at forwards
  rw [outputCount, same] at adjoints
  rw [same]
  obtain ⟨si, column⟩ : ∃ si, f₀.plan.inputShape? i = some si := by
    refine Option.ne_none_iff_exists'.mp (shape_ne_none (fun _ => setting.layout.placed_input) ?_)
    rwa [setting.layout.inputs_eq, List.length_range]
  obtain ⟨so, row⟩ : ∃ so, f₀.plan.outputShape? o = some so := by
    refine Option.ne_none_iff_exists'.mp (shape_ne_none (fun _ => setting.layout.placed_output) ?_)
    rwa [← setting.layout.outputs_at.length_eq]
  refine ⟨si, so, column, row, jacobian_of_crowded (same ▸ column) (same ▸ row), fun room => ?_⟩
  have units {j k : Nat} := element_units setting splits splits' transposed settled settled column row
    forwards adjoints (j := j) (k := k)
  obtain ⟨a, answered, shape, entries⟩ : ∃ a, (jacobian i o xs (f, w)).1 = .ok a ∧
      a.shape = (so.elements, si.elements) ∧ ∀ k j, k < so.elements → j < si.elements →
        a.entry k j = element r₁ j o k := by
    rw [jacobian_of_room (same ▸ column) (same ▸ row) room, same]
    split
    · refine ⟨_, Run.bind_of_first forwards, rfl, fun k j inside inside' => ?_⟩
      exact DenseMatrix.entry_ofFn inside inside' _
    · refine ⟨_, Run.bind_of_first adjoints, rfl, fun k j inside inside' => ?_⟩
      rw [units inside' inside]
      exact DenseMatrix.entry_ofFn inside inside' _
  obtain ⟨rows, columns⟩ := Prod.mk.inj shape
  refine ⟨a, answered, shape, ?_, ?_⟩
  · intro f' w' xdots r reached' hw' forwards' d xdot at_d alone
    have settled' := reached'.settled setting created hw'
    obtain ⟨ydot, x, y, answer, at_i, at_o, fits, fits', product⟩ := forward_of_units setting splits
      splits' transposed settled' settled column row adjoints forwards' at_d alone
    refine ⟨ydot, x, y, answer, at_i, at_o, fits ▸ columns.symm, fits' ▸ rows.symm, fun k inside => ?_⟩
    rw [rows] at inside
    rw [product k inside, columns]
    refine Finset.sum_congr rfl fun j member => ?_
    rw [entries k j inside (Finset.mem_range.mp member), units (Finset.mem_range.mp member) inside]
  · intro f' w' ybars r reached' hw' adjoints' d ybar at_d alone
    have settled' := reached'.settled setting created hw'
    obtain ⟨xbar, y, x, answer, at_o, at_i, fits, fits', product⟩ := adjoint_of_units setting splits
      splits' transposed settled settled' column row forwards adjoints' at_d alone
    refine ⟨xbar, y, x, answer, at_o, at_i, fits ▸ rows.symm, fits' ▸ columns.symm, fun j inside => ?_⟩
    change j < a.ncols at inside
    rw [product j (columns ▸ inside)]
    change _ = ∑ k ∈ range a.nrows, _
    rw [rows]
    refine Finset.sum_congr rfl fun k member => ?_
    have within := Finset.mem_range.mp member
    rw [DenseMatrix.entry_transpose a inside (rows.symm ▸ within), entries k j within (columns ▸ inside)]

/-- A product by its matrix, whose four elements are more than those of the result, and by its vector:
the first matrix is found by adjoint directions, the second by forward directions. -/
theorem jacobian_agrees_with_sweeps_product :
    let xs : List (DenseMatrix Int) := [⟨2, 2, #[1, 3, 2, 4], rfl⟩, .column [7, 8]]
    let byMatrix : DenseMatrix Int := ⟨2, 4, #[7, 0, 0, 7, 8, 0, 0, 8], rfl⟩
    let byVector : DenseMatrix Int := ⟨2, 2, #[1, 3, 2, 4], rfl⟩
    let adot : DenseMatrix Int := ⟨2, 2, #[1, 0, 2, 5], rfl⟩
    let ybar : DenseMatrix Int := .column [3, -1]
    ∃ (f₀ : Program Int Unit) (r s : Sensitivities Int),
      create "f" Graph.product [⟨0⟩, ⟨1⟩] [⟨2⟩] = .ok f₀ ∧
      (jacobian 0 0 xs (f₀, ())).1 = .ok byMatrix ∧ (jacobian 1 0 xs (f₀, ())).1 = .ok byVector ∧
      (forward xs [[adot, .column [0, 0]]] (f₀, ())).1 = .ok r ∧
      (adjoint xs [[ybar]] (f₀, ())).1 = .ok s ∧
      (∃ ydot y, r.sensitivities[0]? = some ydot ∧ ydot[0]? = some y ∧ byMatrix.Maps adot y) ∧
      ∃ xbar x, s.sensitivities[0]? = some xbar ∧ xbar[1]? = some x ∧
        byVector.transpose.Maps ybar x := by
  intro xs byMatrix byVector adot ybar
  obtain ⟨f₀, created⟩ : ∃ f₀, create "f" Graph.product [⟨0⟩, ⟨1⟩] [⟨2⟩] = .ok f₀ := ⟨_, rfl⟩
  have matrix : (jacobian 0 0 xs (f₀, ())).1 = .ok byMatrix := by
    cases created
    decide +kernel
  have vector : (jacobian 1 0 xs (f₀, ())).1 = .ok byVector := by
    cases created
    decide +kernel
  have answers {β : Type} {x : Except Error β} (ok : x.isOk = true) : ∃ r, x = .ok r := by
    cases x with
    | error e => cases ok
    | ok r => exact ⟨r, rfl⟩
  obtain ⟨units, units', adjoints, along, back⟩ :
      (forward xs (unitDirections f₀.inputCount 0 f₀.plan.inputShape?) (f₀, ())).1.isOk = true ∧
      (forward xs (unitDirections f₀.inputCount 1 f₀.plan.inputShape?) (f₀, ())).1.isOk = true ∧
      (adjoint xs (unitDirections f₀.outputCount 0 f₀.plan.outputShape?) (f₀, ())).1.isOk = true ∧
      (forward xs [[adot, .column [0, 0]]] (f₀, ())).1.isOk = true ∧
      (adjoint xs [[ybar]] (f₀, ())).1.isOk = true := by
    cases created
    decide +kernel
  obtain ⟨r, along⟩ := answers along
  obtain ⟨s, back⟩ := answers back
  have setting : f₀.plan.Setting _ _ _ (fun _ => True) () := setting_of_create
    Graph.built_product created (Graph.stateless_product.oblivious _ _) trivial
  have fitting := (checkInputs_eq_ok setting.layout rfl).mp (accepted_of_forward along).1
  have calls {i : Nat} (input : i < 2) := jacobian_agrees_with_sweeps (i := i) (o := 0) (f := f₀)
    (w := ()) Graph.built_product created setting.oblivious Graph.stateless_product.forwardDirectionwise.splits
    Graph.stateless_product.adjointSplits trivial
    (Graph.transposed_product (setting.layout.supplies fitting)) .fresh trivial input (by decide)
  have room {i : Nat} (input : i < 2) {si so : Shape} (column : f₀.plan.inputShape? i = some si)
      (row : f₀.plan.outputShape? 0 = some so) : so.elements * si.elements < wordLimit := by
    cases created
    interval_cases i <;> cases column <;> cases row <;> decide
  refine ⟨f₀, r, s, created, matrix, vector, along, back, ?_, ?_⟩
  · obtain ⟨si, so, column, row, -, agrees⟩ := calls (by decide) (answers units) (answers adjoints)
    obtain ⟨a, answered, -, forwards, -⟩ := agrees (room (by decide) column row)
    obtain rfl := Except.ok.inj (answered.symm.trans matrix)
    have alone : ZeroBut 0 [adot, .column [0, 0]] := by
      rintro (_ | _ | j) m at_j other
      · exact absurd rfl other
      · cases at_j
        rfl
      · cases at_j
    obtain ⟨ydot, x, y, at_d, at_i, at_o, maps⟩ := forwards f₀ () _ r .fresh trivial along 0 _ rfl alone
    cases at_i
    exact ⟨ydot, y, at_d, at_o, maps⟩
  · obtain ⟨si, so, column, row, -, agrees⟩ := calls (by decide) (answers units') (answers adjoints)
    obtain ⟨a, answered, -, -, adjoints⟩ := agrees (room (by decide) column row)
    obtain rfl := Except.ok.inj (answered.symm.trans vector)
    have alone : ZeroBut 0 [ybar] := by
      rintro (_ | j) m at_j other
      · exact absurd rfl other
      · cases at_j
    obtain ⟨xbar, y, x, at_d, at_o, at_i, maps⟩ := adjoints f₀ () _ s .fresh trivial back 0 _ rfl alone
    cases at_o
    exact ⟨xbar, x, at_d, at_i, maps⟩

end Modes

end Program

end Cotangent
