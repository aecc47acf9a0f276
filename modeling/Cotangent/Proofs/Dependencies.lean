import Cotangent.Proofs.AdjointColumns
import Cotangent.Proofs.Meaning

/-! Sensitivities respect dependencies. An output shows nothing of an input that it does not need: what
a forward call answers for it is a recursion over the nodes below it. An input shows nothing of an
output that does not need it: the contributions that come to the places above it come from such
places only, so two columns that start alike there stay alike. -/
namespace Cotangent

variable {α σ : Type}

namespace Graph

variable {g : Graph α σ} {inputs outputs : List NodeId} {id o : NodeId} {w : σ}
  {xs xs' : List (DenseMatrix α)}

/-- Two lists of matrices for the inputs agree on all inputs that a node needs. -/
def AgreeBelow (g : Graph α σ) (inputs : List NodeId) (o : NodeId)
    (xs xs' : List (DenseMatrix α)) : Prop :=
  ∀ (i : Nat) id, inputs[i]? = some id → g.Reaches o id → xs[i]? = xs'[i]?

/-- Two lists of matrices for the outputs agree on all outputs that need a node. -/
def AgreeAbove (g : Graph α σ) (outputs : List NodeId) (id : NodeId)
    (ys ys' : List (DenseMatrix α)) : Prop :=
  ∀ (j : Nat) o, outputs[j]? = some o → g.Reaches o id → ys[j]? = ys'[j]?

theorem AgreeBelow.of_reaches (agree : g.AgreeBelow inputs o xs xs') (path : g.Reaches o id) :
    g.AgreeBelow inputs id xs xs' :=
  fun i c at_i below => agree i c at_i (path.trans below)

theorem AgreeBelow.supplied (agree : g.AgreeBelow inputs o xs xs') (length : xs.length = inputs.length)
    (length' : xs'.length = inputs.length) (path : g.Reaches o id) :
    Graph.supplied inputs xs id = Graph.supplied inputs xs' id := by
  unfold Graph.supplied
  by_cases declared : id ∈ inputs
  · have inside := List.idxOf_lt_length_of_mem declared
    exact agree _ id (by simp [inside]) path
  · rw [List.idxOf_eq_length declared, List.getElem?_eq_none length.le,
      List.getElem?_eq_none length'.le]

/-- The value of a node is that for any other inputs that agree on what it needs. -/
theorem AgreeBelow.value_eq (agree : g.AgreeBelow inputs o xs xs') (sound : g.Sound)
    (length : xs.length = inputs.length) (length' : xs'.length = inputs.length) :
    g.value w (Graph.supplied inputs xs) o = g.value w (Graph.supplied inputs xs') o := by
  refine recurse_congr sound fun c n ys below known => ?_
  unfold valueRule
  cases n.kind with
  | symbol name =>
    dsimp only
    rw [required, required, agree.supplied length length' below]
  | constant | apply => rfl

/-- And so is its sensitivity. -/
theorem AgreeBelow.tangent_eq [Scalar α] {ts ts' : List (DenseMatrix α)}
    (agree : g.AgreeBelow inputs o xs xs') (along : g.AgreeBelow inputs o ts ts') (sound : g.Sound)
    (length : xs.length = inputs.length) (length' : xs'.length = inputs.length)
    (count : ts.length = inputs.length) (count' : ts'.length = inputs.length) :
    g.tangent w (Graph.supplied inputs xs) (Graph.supplied inputs ts) o =
      g.tangent w (Graph.supplied inputs xs') (Graph.supplied inputs ts') o := by
  refine recurse_congr sound fun c n us below known => ?_
  unfold tangentRule
  cases n.kind with
  | symbol name =>
    dsimp only
    rw [required, required, along.supplied count count' below]
  | constant => rfl
  | apply op =>
    have operands : n.children.mapM (g.value w (Graph.supplied inputs xs)) =
        n.children.mapM (g.value w (Graph.supplied inputs xs')) :=
      Outcome.mapM_congr fun d member =>
        (agree.of_reaches (below.tail ⟨n, known, member⟩)).value_eq sound length length'
    dsimp only
    rw [operands, (agree.of_reaches below).value_eq sound length length']

end Graph

namespace Plan

variable {g : Graph α σ} {inputs outputs : List NodeId} {p : Plan α σ} {w : σ} {id : NodeId}
  {values z z' : Nat → DenseMatrix α} {direction direction' : List (DenseMatrix α)}

/-- The places of the nodes that need a node. -/
def Above (g : Graph α σ) (p : Plan α σ) (id : NodeId) (k : Nat) : Prop :=
  ∃ e, p.entries[k]? = some e ∧ g.Reaches e.node id

theorem Layout.reaches_of_above (layout : p.Layout g inputs outputs) {j : Nat} {o : NodeId}
    (at_j : p.find? o = some j) (above : Above g p id j) : g.Reaches o id := by
  obtain ⟨e, at_j', path⟩ := above
  obtain ⟨e', here, rfl⟩ := (layout.find?_iff o j).mp at_j
  cases at_j'.symm.trans here
  exact path

/-- An entry that does not need a node has no operand that does. -/
theorem Layout.above_of_operand (layout : p.Layout g inputs outputs) {k : Nat} {e : Entry α σ}
    (at_k : p.entries[k]? = some e) {j : Nat} (operand : j ∈ e.children)
    (above : Above g p id j) : Above g p id k := by
  obtain ⟨n, known⟩ := layout.known at_k
  obtain ⟨-, -, operands⟩ := layout.operands at_k known
  obtain ⟨c, member, -, e', at_j, rfl⟩ := Outcome.exists_of_forall₂ operands.flip operand
  obtain ⟨e'', at_j', path⟩ := above
  cases at_j.symm.trans at_j'
  exact ⟨e, at_k, .head ⟨n, known, member⟩ path⟩

theorem entry_of_mem {x : Entry α σ × Nat} (member : x ∈ p.placed.reverse) :
    p.entries[x.2]? = some x.1 := by
  obtain ⟨i, at_i⟩ := List.mem_iff_getElem?.mp (List.mem_reverse.mp member)
  obtain ⟨at_k, same⟩ := getElem?_placed.mp at_i
  exact same ▸ at_k

variable [Scalar α]

/-- A step changes nothing above a node that its entry does not need. -/
theorem columnStep_apart (layout : p.Layout g inputs outputs) {k : Nat} {e : Entry α σ}
    (at_k : p.entries[k]? = some e) (apart : ∀ op, e.kind = .apply op → ¬ Above g p id k)
    {y : Nat → DenseMatrix α} (done : columnStep w values z (e, k) = .ok y) :
    ∀ j, Above g p id j → y j = z j := by
  unfold columnStep at done
  split at done
  · next op what =>
    obtain ⟨found, -, added⟩ := Outcome.bind_eq_ok.mp done
    refine collect_apart (fun part member above => ?_) added
    exact apart op what (layout.above_of_operand at_k (List.of_mem_zip member).1 above)
  · cases done
    exact fun _ _ => rfl

/-- A step keeps what is alike above a node alike. -/
theorem columnStep_agree (layout : p.Layout g inputs outputs) {k : Nat} {e : Entry α σ}
    (at_k : p.entries[k]? = some e) (agree : ∀ j, Above g p id j → z j = z' j)
    {y y' : Nat → DenseMatrix α} (done : columnStep w values z (e, k) = .ok y)
    (done' : columnStep w values z' (e, k) = .ok y') : ∀ j, Above g p id j → y j = y' j := by
  by_cases above : Above g p id k
  · unfold columnStep at done done'
    dsimp only at done done'
    rw [← agree k above] at done'
    cases what : e.kind with
    | symbol | constant =>
      rw [what] at done done'
      cases done
      cases done'
      exact agree
    | apply op =>
      rw [what] at done done'
      obtain ⟨found, answered, added⟩ := Outcome.bind_eq_ok.mp done
      obtain ⟨found', answered', added'⟩ := Outcome.bind_eq_ok.mp done'
      cases answered.symm.trans answered'
      exact collect_agree (List.forall₂_same.mpr fun _ _ => ⟨rfl, fun _ => rfl⟩) agree added added'
  · intro j here
    rw [columnStep_apart layout at_k (fun _ _ => above) done j here,
      columnStep_apart layout at_k (fun _ _ => above) done' j here]
    exact agree j here

theorem walk_agree (layout : p.Layout g inputs outputs) {steps : List (Entry α σ × Nat)}
    (placed : ∀ x ∈ steps, p.entries[x.2]? = some x.1)
    (agree : ∀ j, Above g p id j → z j = z' j) {y y' : Nat → DenseMatrix α}
    (done : steps.foldlM (columnStep w values) z = .ok y)
    (done' : steps.foldlM (columnStep w values) z' = .ok y') : ∀ j, Above g p id j → y j = y' j := by
  induction steps generalizing z z' with
  | nil =>
    cases done
    cases done'
    exact agree
  | cons x steps ih =>
    obtain ⟨at_x, later⟩ := List.forall_mem_cons.mp placed
    obtain ⟨u, first, rest⟩ := Outcome.bind_eq_ok.mp done
    obtain ⟨u', first', rest'⟩ := Outcome.bind_eq_ok.mp done'
    exact ih later (columnStep_agree layout at_x agree first first') rest rest'

/-- Columns are alike above a node if the seeds of the outputs that need it are. -/
theorem column_agree (layout : p.Layout g inputs outputs)
    (fitting : p.Fitting p.outputs direction) (fitting' : p.Fitting p.outputs direction')
    (agree : g.AgreeAbove outputs id direction direction')
    (done : p.column w values direction = .ok z) (done' : p.column w values direction' = .ok z') :
    ∀ j, Above g p id j → z j = z' j := by
  obtain ⟨u, seeded, walked⟩ := Outcome.bind_eq_ok.mp done
  obtain ⟨u', seeded', walked'⟩ := Outcome.bind_eq_ok.mp done'
  refine walk_agree layout (fun x member => entry_of_mem member) ?_ walked walked'
  refine collect_agree (List.forall₂_iff_get.mpr ⟨?_, fun j inside inside' => ?_⟩) (fun _ _ => rfl)
    seeded seeded'
  · simp [← fitting.length_eq, ← fitting'.length_eq]
  · have bound : j < p.outputs.length := by
      simp at inside
      omega
    have bound' : j < outputs.length := layout.outputs_at.length_eq ▸ bound
    have front : j < direction.length := fitting.length_eq ▸ bound
    have front' : j < direction'.length := fitting'.length_eq ▸ bound
    simp only [List.get_eq_getElem, List.getElem_zip, List.getElem_map]
    refine ⟨rfl, fun above => ?_⟩
    have at_j := layout.outputs_at.get bound' bound
    have same := agree j _ (List.getElem?_eq_getElem bound') (layout.reaches_of_above at_j above)
    simpa [front, front'] using same

/-- A column is zero above a node that no output needs. -/
theorem column_zero (layout : p.Layout g inputs outputs)
    (unneeded : ∀ o ∈ outputs, ¬ g.Reaches o id) (done : p.column w values direction = .ok z) :
    ∀ j, Above g p id j → z j = p.zeros j := by
  obtain ⟨u, seeded, walked⟩ := Outcome.bind_eq_ok.mp done
  have start : ∀ j, Above g p id j → u j = p.zeros j := by
    refine collect_apart (fun part member above => ?_) seeded
    obtain ⟨o, output, at_o⟩ :=
      Outcome.exists_of_forall₂ layout.outputs_at.flip (List.of_mem_zip member).1
    exact unneeded o output (layout.reaches_of_above at_o above)
  refine Outcome.foldlM_keeps (P := fun u => ∀ j, Above g p id j → u j = p.zeros j) ?_ start walked
  rintro u ⟨e, k⟩ v member kept turn j here
  have at_k := entry_of_mem member
  refine (columnStep_apart layout at_k ?_ turn j here).trans (kept j here)
  rintro op what ⟨e', at_k', path⟩
  cases at_k.symm.trans at_k'
  obtain ⟨n, known⟩ := layout.known at_k
  obtain ⟨o, output, below⟩ := (layout.applied at_k known what).needed
  exact unneeded o output (below.trans path)

end Plan

/-! ### Calls -/

/-- What a call answers in some direction for some place. -/
def Sensitivities.At (r : Sensitivities α) (d i : Nat) (m : DenseMatrix α) : Prop :=
  ∃ row, r.sensitivities[d]? = some row ∧ row[i]? = some m

theorem Sensitivities.At.of_row {outs : List (DenseMatrix α)} {row : Nat → List (DenseMatrix α)}
    {count d i : Nat} {m : DenseMatrix α} (few : d < count) (found : (row d)[i]? = some m) :
    (⟨outs, (List.range count).map row⟩ : Sensitivities α).At d i m :=
  ⟨row d, by simp [few], found⟩

namespace Program

variable [Scalar α] {g : Graph α σ} {inputs outputs : List NodeId} {p : Plan α σ} {inv : σ → Prop}
  {w w' w₀ : σ} {f f' f₀ : Program α σ} {xs xs' : List (DenseMatrix α)}
  {seeds seeds' : List (List (DenseMatrix α))} {r r' : Sensitivities α}

omit [Scalar α] in
/-- What the outputs of a plan read, by the recursion that the places follow. -/
theorem output_at (layout : p.Layout g inputs outputs) {rule : NodeId → Except Error (DenseMatrix α)}
    {read : Nat → DenseMatrix α}
    (right : ∀ (k : Nat) e, p.entries[k]? = some e → rule e.node = .ok (read k)) {j : Nat}
    {o : NodeId} (at_j : outputs[j]? = some o) :
    ∃ m, (p.outputs.map read)[j]? = some m ∧ rule o = .ok m :=
  Outcome.exists_at_of_forall₂ (Outcome.mapM_eq_ok.mp (layout.mapM_outputs right)) at_j

/-- What a forward call answers for an output, by recursion over the graph. -/
theorem forward_at (setting : p.Setting g inputs outputs inv w₀)
    (splits : g.ForwardSplits outputs inv) (settled : Settled p inv w₀ inputs (f, w))
    (answered : (forward xs seeds (f, w)).1 = .ok r) {j : Nat} {o : NodeId}
    (at_j : outputs[j]? = some o) :
    xs.length = inputs.length ∧
    (∃ y, r.outputs[j]? = some y ∧ g.value w₀ (Graph.supplied inputs xs) o = .ok y) ∧
    ∀ (d : Nat) seed, seeds[d]? = some seed → seed.length = inputs.length ∧
      ∃ m, r.At d j m ∧
        g.tangent w₀ (Graph.supplied inputs xs) (Graph.supplied inputs seed) o = .ok m := by
  obtain ⟨accepted, accepted'⟩ := accepted_of_forward answered
  have fitting := (checkInputs_eq_ok setting.layout settled.plan).mp accepted
  have seeding := (checkForward_eq_ok setting.layout settled.plan).mp accepted'
  obtain ⟨fresh, rows, rfl⟩ := (post_forward setting settled fitting seeding).result answered
  refine ⟨setting.layout.length_fitting fitting, ?_, fun d seed at_d => ?_⟩
  · exact output_at setting.layout (fun k e at_k => setting.layout.current fresh.current at_k) at_j
  · have few := (List.getElem?_eq_some_iff.mp at_d).1
    obtain ⟨m, found, tangent⟩ := output_at setting.layout
      (tangent_of_rows setting splits fitting seeding fresh.current rows at_d) at_j
    exact ⟨setting.layout.length_fitting (seeding _ (List.mem_of_getElem? at_d)), m,
      .of_row few found, tangent⟩

/-- What an adjoint call answers: the values of the outputs, and the columns of the directions. -/
theorem adjoint_at (setting : p.Setting g inputs outputs inv w₀)
    (splits : g.AdjointSplits outputs inv) (settled : Settled p inv w₀ inputs (f, w))
    (answered : (adjoint xs seeds (f, w)).1 = .ok r) :
    xs.length = inputs.length ∧
    (∀ (j : Nat) o, outputs[j]? = some o → ∃ y, r.outputs[j]? = some y ∧
      g.value w₀ (Graph.supplied inputs xs) o = .ok y) ∧
    ∃ s : Slots α, (s.Fit p ∧ s.Current p w₀ (Graph.supplied inputs xs)) ∧
      ∀ (d : Nat) seed, seeds[d]? = some seed → p.Fitting p.outputs seed ∧
        ∃ z, p.column w₀ s.value seed = .ok z ∧ ∀ i, i < inputs.length → r.At d i (z i) := by
  obtain ⟨accepted, accepted'⟩ := accepted_of_adjoint answered
  have fitting := (checkInputs_eq_ok setting.layout settled.plan).mp accepted
  have seeding := (checkAdjoint_eq_ok setting.layout settled.plan).mp accepted'
  obtain ⟨fresh, ⟨s, current, columns⟩, rfl⟩ := (post_adjoint setting settled fitting seeding
    (Q := fun t => ∃ s : Slots α, (s.Fit p ∧ s.Current p w₀ (Graph.supplied inputs xs)) ∧
      ∀ (d : Nat) seed, seeds[d]? = some seed → p.column w₀ s.value seed = .ok (t.adjoint d))
    fun s v fit hv current => (Plan.post_adjointSweep_column setting splits
      (setting.layout.supplies fitting) fit hv (fun k e at_k => setting.layout.current current at_k)
      seeds).imp (fun _ _ columns => ⟨s, ⟨fit, current⟩, columns⟩) fun _ _ => id).result answered
  refine ⟨setting.layout.length_fitting fitting, fun j o at_j => ?_, s, current,
    fun d seed at_d => ⟨seeding _ (List.mem_of_getElem? at_d), _, columns d seed at_d,
      fun i front => ?_⟩⟩
  · exact output_at setting.layout (fun k e at_k => setting.layout.current fresh.current at_k) at_j
  · have few := (List.getElem?_eq_some_iff.mp at_d).1
    exact .of_row few (by simp [setting.layout.inputs_eq, front])

/-- Sensitivities respect dependencies. Two forward calls that agree on the values of all inputs that
an output needs answer the same value for it, and if they agree on the seeds of these inputs in a
direction, the same sensitivity. Two adjoint calls that agree on the values answer the same value. At
equal inputs, if they agree in a direction on the seeds of all outputs that need an input, they answer
the same sensitivity for it, and that is zero if no output needs it. -/
theorem sensitivities_respect_dependencies {name : String} (built : g.Built)
    (created : create name g inputs outputs = .ok f₀) (oblivious : g.Oblivious outputs inv)
    (splits : g.ForwardSplits outputs inv) (splits' : g.AdjointSplits outputs inv)
    (reached : Reached inv f₀ f) (reached' : Reached inv f₀ f') (hw : inv w) (hw' : inv w') :
    (∀ xs xs' seeds seeds' r r', (forward xs seeds (f, w)).1 = .ok r →
      (forward xs' seeds' (f', w')).1 = .ok r' →
      ∀ (j : Nat) o, outputs[j]? = some o → g.AgreeBelow inputs o xs xs' →
        (∃ y, r.outputs[j]? = some y ∧ r'.outputs[j]? = some y) ∧
        ∀ (d d' : Nat) seed seed', seeds[d]? = some seed → seeds'[d']? = some seed' →
          g.AgreeBelow inputs o seed seed' → ∃ m, r.At d j m ∧ r'.At d' j m) ∧
    (∀ xs xs' seeds seeds' r r', (adjoint xs seeds (f, w)).1 = .ok r →
      (adjoint xs' seeds' (f', w')).1 = .ok r' →
      (∀ (j : Nat) o, outputs[j]? = some o → g.AgreeBelow inputs o xs xs' →
        ∃ y, r.outputs[j]? = some y ∧ r'.outputs[j]? = some y) ∧
      (xs = xs' → ∀ (i : Nat) id, inputs[i]? = some id →
        ∀ (d d' : Nat) seed seed', seeds[d]? = some seed → seeds'[d']? = some seed' →
          g.AgreeAbove outputs id seed seed' → ∃ m, r.At d i m ∧ r'.At d' i m)) ∧
    ∀ xs seeds r, (adjoint xs seeds (f, w)).1 = .ok r →
      ∀ (i : Nat) id n, inputs[i]? = some id → g.node? id = some n →
        (∀ o ∈ outputs, ¬ g.Reaches o id) →
        ∀ d, d < seeds.length → r.At d i (.fill n.shape 0) := by
  have setting := setting_of_create built created oblivious hw
  have settled := reached.settled setting created hw
  have settled' := reached'.settled setting created hw'
  have input {i : Nat} {id : NodeId} (at_i : inputs[i]? = some id) :
      i < inputs.length ∧ Plan.Above g f₀.plan id i := by
    obtain ⟨e, at_k, rfl⟩ := (setting.layout.find?_iff _ i).mp (setting.layout.front i id at_i)
    exact ⟨(List.getElem?_eq_some_iff.mp at_i).1, e, at_k, .refl⟩
  refine ⟨fun xs xs' seeds seeds' r r' answered answered' j o at_j agree => ?_,
    fun xs xs' seeds seeds' r r' answered answered' => ⟨?_, ?_⟩,
    fun xs seeds r answered i id n at_i known unneeded d few => ?_⟩
  · obtain ⟨length, ⟨y, at_y, value⟩, each⟩ := forward_at setting splits settled answered at_j
    obtain ⟨length', ⟨y', at_y', value'⟩, each'⟩ :=
      forward_at setting splits settled' answered' at_j
    rw [agree.value_eq setting.sound length length', value'] at value
    cases value
    refine ⟨⟨y, at_y, at_y'⟩, fun d d' seed seed' at_d at_d' along => ?_⟩
    obtain ⟨count, m, at_m, tangent⟩ := each d seed at_d
    obtain ⟨count', m', at_m', tangent'⟩ := each' d' seed' at_d'
    rw [agree.tangent_eq along setting.sound length length' count count', tangent'] at tangent
    cases tangent
    exact ⟨m, at_m, at_m'⟩
  · obtain ⟨length, values, -⟩ := adjoint_at setting splits' settled answered
    obtain ⟨length', values', -⟩ := adjoint_at setting splits' settled' answered'
    intro j o at_j agree
    obtain ⟨y, at_y, value⟩ := values j o at_j
    obtain ⟨y', at_y', value'⟩ := values' j o at_j
    rw [agree.value_eq setting.sound length length', value'] at value
    cases value
    exact ⟨y, at_y, at_y'⟩
  · obtain ⟨-, -, s, ⟨fit, current⟩, columns⟩ := adjoint_at setting splits' settled answered
    obtain ⟨-, -, s', ⟨fit', current'⟩, columns'⟩ := adjoint_at setting splits' settled' answered'
    rintro rfl i id at_i d d' seed seed' at_d at_d' agree
    have read : s.value = s'.value := funext (current.unique current' fit fit')
    obtain ⟨fitting, z, column, at_z⟩ := columns d seed at_d
    obtain ⟨fitting', z', column', at_z'⟩ := columns' d' seed' at_d'
    obtain ⟨front, above⟩ := input at_i
    rw [← read] at column'
    have same := Plan.column_agree setting.layout fitting fitting' agree column column' i above
    exact ⟨z i, at_z i front, same ▸ at_z' i front⟩
  · obtain ⟨-, -, s, -, columns⟩ := adjoint_at setting splits' settled answered
    obtain ⟨-, z, column, at_z⟩ := columns d _ (List.getElem?_eq_getElem few)
    obtain ⟨front, above⟩ := input at_i
    have zero := Plan.column_zero setting.layout unneeded column i above
    obtain ⟨e, n', at_k, known', shape, -⟩ := setting.layout.input_at at_i
    cases known.symm.trans known'
    rw [Plan.zeros_at at_k, shape] at zero
    exact zero ▸ at_z i front

theorem reaches_unused_sharing {o : NodeId} (path : Graph.sharing.Reaches o ⟨1⟩) : o = ⟨1⟩ := by
  rcases path.cases_tail with rfl | ⟨c, -, n, known, member⟩
  · rfl
  · have node := Array.mem_toList_iff.mpr (Array.mem_of_getElem? known)
    simp only [Graph.sharing, List.mem_cons, List.not_mem_nil, or_false] at node
    rcases node with rfl | rfl | rfl | rfl | rfl | rfl | rfl <;> simp at member

/-- No output needs the second input, and the second output needs no input at all. -/
theorem sensitivities_respect_dependencies_sharing :
    ∃ (f₀ : Program Int Unit) (r r' s s' : Sensitivities Int),
      create "f" Graph.sharing [⟨0⟩, ⟨1⟩] [⟨5⟩, ⟨2⟩] = .ok f₀ ∧
      (forward [.scalar 2, .column [7, 8]] [[.scalar 3, .column [1, 1]]] (f₀, ())).1 = .ok r ∧
      (forward [.scalar 2, .column [0, 0]] [[.scalar 0, .column [1, 1]],
        [.scalar 3, .column [9, 9]]] (f₀, ())).1 = .ok r' ∧
      (adjoint [.scalar 2, .column [7, 8]] [[.scalar 1, .scalar 2]] (f₀, ())).1 = .ok s ∧
      (adjoint [.scalar 2, .column [7, 8]] [[.scalar 0, .scalar 2], [.scalar 1, .scalar 9]]
        (f₀, ())).1 = .ok s' ∧
      (∃ m, r.At 0 0 m ∧ r'.At 1 0 m) ∧ (∃ m, s.At 0 0 m ∧ s'.At 1 0 m) ∧
      s.At 0 1 (.fill (2, 1) 0) := by
  obtain ⟨f₀, created⟩ : ∃ f₀, create "f" Graph.sharing [⟨0⟩, ⟨1⟩] [⟨5⟩, ⟨2⟩] = .ok f₀ := ⟨_, rfl⟩
  obtain ⟨r, forwards, -⟩ := Outcome.map_eq_ok.mp (show (forward [.scalar 2, .column [7, 8]]
      [[.scalar 3, .column [1, 1]]] (f₀, ())).1.map (·.sensitivities) =
        .ok [[.scalar 132, .scalar 0]] by
    cases created
    decide +kernel)
  obtain ⟨r', forwards', -⟩ := Outcome.map_eq_ok.mp (show (forward [.scalar 2, .column [0, 0]]
      [[.scalar 0, .column [1, 1]], [.scalar 3, .column [9, 9]]] (f₀, ())).1.map (·.sensitivities) =
        .ok [[.scalar 0, .scalar 0], [.scalar 132, .scalar 0]] by
    cases created
    decide +kernel)
  obtain ⟨s, adjoints, -⟩ := Outcome.map_eq_ok.mp (show (adjoint [.scalar 2, .column [7, 8]]
      [[.scalar 1, .scalar 2]] (f₀, ())).1.map (·.sensitivities) =
        .ok [[.scalar 44, .column [0, 0]]] by
    cases created
    decide +kernel)
  obtain ⟨s', adjoints', -⟩ := Outcome.map_eq_ok.mp (show (adjoint [.scalar 2, .column [7, 8]]
      [[.scalar 0, .scalar 2], [.scalar 1, .scalar 9]] (f₀, ())).1.map (·.sensitivities) =
        .ok [[.scalar 0, .column [0, 0]], [.scalar 44, .column [0, 0]]] by
    cases created
    decide +kernel)
  have unused {xs xs' : List (DenseMatrix Int)} (same : xs[0]? = xs'[0]?) :
      Graph.sharing.AgreeBelow [⟨0⟩, ⟨1⟩] ⟨5⟩ xs xs' := by
    rintro (_ | _ | i) id at_i path
    · exact same
    · cases at_i
      cases reaches_unused_sharing path
    · cases at_i
  have apart : Graph.sharing.AgreeAbove [⟨5⟩, ⟨2⟩] ⟨0⟩ ([.scalar 1, .scalar 2] : List (DenseMatrix Int))
      [.scalar 1, .scalar 9] := by
    rintro (_ | _ | j) o at_j path
    · rfl
    · cases at_j
      rcases path.cases_head with same | ⟨c, ⟨n, known, member⟩, -⟩
      · cases same
      · cases known
        cases member
    · cases at_j
  obtain ⟨forward_part, adjoint_part, zero_part⟩ := sensitivities_respect_dependencies
    Graph.built_sharing created (Graph.stateless_sharing.oblivious _ fun _ => True)
    Graph.stateless_sharing.forwardDirectionwise.splits Graph.stateless_sharing.adjointSplits
    .fresh .fresh (trivial : True) (trivial : True)
  have below := forward_part _ _ _ _ r r' forwards forwards' 0 ⟨5⟩ rfl (unused rfl)
  have above := adjoint_part _ _ _ _ s s' adjoints adjoints'
  refine ⟨f₀, r, r', s, s', created, forwards, forwards', adjoints, adjoints',
    below.2 0 1 _ _ rfl rfl (unused rfl), above.2 rfl 0 ⟨0⟩ rfl 0 1 _ _ rfl rfl apart,
    zero_part _ _ s adjoints 1 ⟨1⟩ _ rfl rfl ?_ 0 (by decide)⟩
  rintro o output path
  cases reaches_unused_sharing path
  revert output
  decide

end Program

end Cotangent
