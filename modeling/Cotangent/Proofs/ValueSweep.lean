import Cotangent.Proofs.Walk

/-! The value sweep. Once the inputs are bound, a sweep leaves in every place the value of its node
by recursion, or stops at the first node of the plan whose operation fails or answers another shape.
Nothing that stood in the places before has a part in it. -/
namespace Cotangent

variable {α σ : Type}

/-- The places of the symbols hold what is supplied for them. -/
def Slots.Bound (p : Plan α σ) (given : NodeId → Option (DenseMatrix α)) (s : Slots α) : Prop :=
  ∀ (k : Nat) e, p.entries[k]? = some e → e.kind.isSymbol = true → given e.node = some (s.value k)

/-- Every place holds the value of its node. -/
def Slots.Current (p : Plan α σ) (w : σ) (given : NodeId → Option (DenseMatrix α)) (s : Slots α) :
    Prop :=
  ∀ (k : Nat) e, p.entries[k]? = some e → p.graph.value w given e.node = .ok (s.value k)

/-- What a value sweep needs and keeps. -/
structure Plan.Ready (p : Plan α σ) (inv : σ → Prop) (given : NodeId → Option (DenseMatrix α))
    (t : Slots α × σ) : Prop where
  fit : t.1.Fit p
  state : inv t.2
  bound : t.1.Bound p given

namespace Plan

/-- Matrices that have the shapes of the entries at some positions. -/
def Fitting (p : Plan α σ) (positions : List Nat) (xs : List (DenseMatrix α)) : Prop :=
  List.Forall₂ (fun k x => ∃ e, p.entries[k]? = some e ∧ x.shape = e.shape) positions xs

variable {g : Graph α σ} {inputs outputs : List NodeId} {p : Plan α σ} {inv : σ → Prop}
  {s : Slots α} {w w₀ : σ} {given : NodeId → Option (DenseMatrix α)}

/-- Numbers that fit, read at places of the plan. -/
theorem fitting_map {positions : List Nat} (placed : ∀ k ∈ positions, ∃ e, p.entries[k]? = some e)
    {read : Nat → DenseMatrix α} (reads : ∀ (k : Nat) e, p.entries[k]? = some e →
      (read k).shape = e.shape) : p.Fitting positions (positions.map read) := by
  refine List.forall₂_map_right_iff.mpr (List.forall₂_same.mpr fun k bound => ?_)
  obtain ⟨e, at_k⟩ := placed k bound
  exact ⟨e, at_k, reads k e at_k⟩

theorem Layout.node_of_lt (layout : p.Layout g inputs outputs) {k : Nat} {e : Entry α σ}
    (at_k : p.entries[k]? = some e) (front : k < inputs.length) : inputs[k]? = some e.node := by
  have found := layout.front k _ (List.getElem?_eq_getElem front)
  obtain ⟨e', at_k', node⟩ := (layout.find?_iff _ k).mp found
  cases at_k.symm.trans at_k'
  rw [node, List.getElem?_eq_getElem front]

theorem Layout.nodup_inputs (layout : p.Layout g inputs outputs) : inputs.Nodup := by
  refine List.pairwise_iff_getElem.mpr ?_
  intro i j hi hj less same
  have at_i := layout.front i _ (List.getElem?_eq_getElem hi)
  rw [same, layout.front j _ (List.getElem?_eq_getElem hj)] at at_i
  cases at_i
  exact Nat.lt_irrefl i less

/-- What is supplied for the node of an input place stands at that place of the list. -/
theorem Layout.supplied_eq (layout : p.Layout g inputs outputs) {k : Nat} {e : Entry α σ}
    (at_k : p.entries[k]? = some e) (symbol : e.kind.isSymbol = true)
    (xs : List (DenseMatrix α)) : Graph.supplied inputs xs e.node = xs[k]? := by
  have front := (layout.symbol_iff k e at_k).mp symbol
  obtain ⟨inside, node⟩ := List.getElem?_eq_some_iff.mp (layout.node_of_lt at_k front)
  rw [Graph.supplied, ← node, layout.nodup_inputs.idxOf_getElem k inside]

theorem Layout.length_fitting (layout : p.Layout g inputs outputs) {xs : List (DenseMatrix α)}
    (fitting : p.Fitting p.inputs xs) : xs.length = inputs.length := by
  rw [← fitting.length_eq, layout.inputs_eq, List.length_range]

theorem Layout.length_bound (layout : p.Layout g inputs outputs) {xs : List (DenseMatrix α)}
    (fitting : p.Fitting p.inputs xs) : (p.inputs.zip xs).length = inputs.length := by
  rw [List.length_zip, layout.length_fitting fitting, layout.inputs_eq, List.length_range,
    Nat.min_self]

/-- What is written to the places of the inputs goes to symbols, in their order, and fits. -/
theorem Layout.bound_at (layout : p.Layout g inputs outputs) {xs : List (DenseMatrix α)}
    (fitting : p.Fitting p.inputs xs) {i k : Nat} {x : DenseMatrix α}
    (at_i : (p.inputs.zip xs)[i]? = some (k, x)) :
    k = i ∧ xs[i]? = some x ∧
      ∃ e, p.entries[i]? = some e ∧ x.shape = e.shape ∧ e.kind.isSymbol = true := by
  obtain ⟨e, at_k, shape⟩ := List.forall₂_zip fitting (List.mem_of_getElem? at_i)
  obtain ⟨place, held⟩ := List.getElem?_zip_eq_some.mp at_i
  rw [layout.inputs_eq] at place
  obtain ⟨front, position⟩ := List.getElem?_eq_some_iff.mp place
  rw [List.length_range] at front
  rw [List.getElem_range] at position
  subst position
  exact ⟨rfl, held, e, at_k, shape, (layout.symbol_iff i e at_k).mpr front⟩

/-- A symbol and an entry that is no symbol have different places. -/
theorem symbol_apart {j k : Nat} {e e' : Entry α σ} (at_k : p.entries[k]? = some e)
    (computed : e.kind.isSymbol = false) (at_j : p.entries[j]? = some e')
    (symbol : e'.kind.isSymbol = true) : j ≠ k := by
  rintro rfl
  cases at_k.symm.trans at_j
  rw [computed] at symbol
  cases symbol

/-- Binding the inputs writes them to the places of the symbols. -/
theorem post_bindInputs (layout : p.Layout g inputs outputs) {xs : List (DenseMatrix α)}
    (fit : s.Fit p) (hw : inv w) (fitting : p.Fitting p.inputs xs) :
    Run.Post (p.bindInputs xs) (s, w) (fun _ => p.Ready inv (Graph.supplied inputs xs))
      (fun _ _ => False) := by
  refine Run.Post.forM (fun i t => t.1.Fit p ∧ inv t.2 ∧ ∀ j, j < i → xs[j]? = some (t.1.value j))
    ⟨fit, hw, fun j less => absurd less (by omega)⟩ ?_ ?_
  · rintro i ⟨k, x⟩ ⟨s, w⟩ at_i ⟨fit, hw, done⟩
    obtain ⟨rfl, held, e, at_k, shape, symbol⟩ := layout.bound_at fitting at_i
    refine (Sweep.post_setValue fit at_k).imp ?_ ?_
    · rintro _ t ⟨-, rfl⟩
      refine ⟨fit.withValue at_k shape fun m same => ?_, hw, ?_⟩
      · simp [same, NodeKind.isSymbol] at symbol
      · intro j less
        rw [Slots.value_withValue (fit.lt_size at_k)]
        rcases Nat.lt_succ_iff_lt_or_eq.mp less with earlier | rfl
        · rw [if_neg (Nat.ne_of_lt earlier)]
          exact done j earlier
        · rw [if_pos rfl]
          exact held
    · rintro x' t ⟨refused, -⟩
      exact Sweep.not_refused shape refused
  · rintro t ⟨fit, hw, done⟩
    rw [layout.length_bound fitting] at done
    refine ⟨fit, hw, ?_⟩
    intro k e at_k symbol
    rw [layout.supplied_eq at_k symbol]
    exact done k ((layout.symbol_iff k e at_k).mp symbol)

/-- The value of an application is written to no place of a symbol. -/
theorem Ready.withValue (ready : p.Ready inv given (s, w)) {k : Nat} {e : Entry α σ}
    {op : Operation α σ} {m : DenseMatrix α} (at_k : p.entries[k]? = some e)
    (what : e.kind = .apply op) (fits : m.shape = e.shape) :
    p.Ready inv given (s.withValue k m, w) where
  fit := ready.fit.withValue at_k fits (by simp [what])
  state := ready.state
  bound j e' at_j symbol := by
    have computed : e.kind.isSymbol = false := by simp [what, NodeKind.isSymbol]
    rw [Slots.value_withValue (ready.fit.lt_size at_k),
      if_neg (symbol_apart at_k computed at_j symbol)]
    exact ready.bound j e' at_j symbol

/-- One step writes the value of an application and leaves the other places alone. -/
theorem post_valueStep (layout : p.Layout g inputs outputs) (oblivious : g.Oblivious outputs inv)
    (hw₀ : inv w₀) (k : Nat) (e : Entry α σ) (n : Node α σ) (t : Slots α × σ)
    (at_k : p.entries[k]? = some e) (known : g.node? e.node = some n)
    (ready : p.Ready inv given t) :
    Run.Post (valueStep (e, k)) t
      (fun _ t' => p.Ready inv given t' ∧
        Graph.valueRule w₀ given e.node n (e.children.map t.1.value) = .ok (t'.1.value k) ∧
        ∀ j, j ≠ k → t'.1.value j = t.1.value j)
      (fun x t' => p.Ready inv given t' ∧
        Graph.valueRule w₀ given e.node n (e.children.map t.1.value) = .error x) := by
  obtain ⟨s, w⟩ := t
  obtain ⟨fit, hw, bound⟩ := ready
  obtain ⟨kind, shape, -⟩ := layout.operands at_k known
  unfold valueStep Graph.valueRule
  rw [← kind, ← shape]
  cases what : e.kind with
  | symbol name =>
    have supplied := bound k e at_k (by simp [what, NodeKind.isSymbol])
    exact ⟨⟨fit, hw, bound⟩, Graph.required_eq_ok.mpr supplied, fun _ _ => rfl⟩
  | constant m =>
    exact ⟨⟨fit, hw, bound⟩, by rw [fit.value_constant at_k what], fun _ _ => rfl⟩
  | apply op =>
    have answers := (oblivious _ _ _ (layout.applied at_k known what)).evaluate
      (e.children.map s.value)
    refine Run.Post.bind ((Sweep.post_call answers hw hw₀).imp (fun _ _ => id) ?_) ?_
    · rintro x ⟨s', w'⟩ ⟨failed, rfl, hw'⟩
      exact ⟨⟨fit, hw', bound⟩, by simp [failed]⟩
    · rintro m ⟨s', w'⟩ ⟨answered, rfl, hw'⟩
      refine (Sweep.post_setValue fit at_k).imp ?_ ?_
      · rintro _ t ⟨fits, rfl⟩
        have reads (j : Nat) := Slots.value_withValue (j := j) (m := m) (fit.lt_size at_k)
        have ready : p.Ready inv given (s', w') := ⟨fit, hw', bound⟩
        refine ⟨ready.withValue at_k what fits, ?_, ?_⟩
        · simp [answered, reads, DenseMatrix.checkShape, fits]
        · intro j apart
          rw [reads, if_neg apart]
      · rintro x t ⟨refused, rfl⟩
        exact ⟨⟨fit, hw', bound⟩, by simp [answered, refused]⟩

/-- The value sweep agrees with the recursive value: on success everywhere, on failure in the first
failure among the nodes of the plan. -/
theorem post_valueSweep (layout : p.Layout g inputs outputs) (sound : g.Sound)
    (oblivious : g.Oblivious outputs inv) (hw₀ : inv w₀) {t : Slots α × σ}
    (ready : p.Ready inv given t) :
    Run.Post p.valueSweep t
      (fun _ t => p.Ready inv given t ∧ t.1.Current p w₀ given)
      (fun x t => p.Ready inv given t ∧
        p.entries.toList.mapM (fun e => p.graph.value w₀ given e.node) = .error x) := by
  rw [layout.graph]
  have walked := post_walk layout sound
    (fun k e n t => post_valueStep layout oblivious hw₀ k e n t) ready
  refine walked.imp (fun _ t reached => ⟨reached.1, fun k e at_k => ?_⟩) fun _ _ => id
  rw [layout.graph]
  exact reached.2 k e at_k

end Plan

end Cotangent
