import Cotangent.Plan.Traversal
import Cotangent.Proofs.Arena
import Cotangent.Proofs.Cells

/-! What a plan looks like. Whatever route the search takes, it only ever puts a node at the end
whose operands are placed, so the nodes of a plan and their positions determine each other and
operands come first. The search starts at the outputs and follows operands, and it ends when every
output has a position, so it places exactly what the outputs need. -/
namespace Cotangent

variable {α σ : Type}

/-- An entry at a position has the kind and the shape of its node, and one earlier position for
every operand, in operand order: that of the operand. -/
def Entry.Matches (g : Graph α σ) (find? : NodeId → Option Nat) (k : Nat) (e : Entry α σ) : Prop :=
  ∃ n, g.node? e.node = some n ∧ e.kind = n.kind ∧ e.shape = n.shape ∧
    List.Forall₂ (fun c j => find? c = some j ∧ j < k) n.children e.children

/-- The arrangement of a plan for declared inputs and outputs of a graph. -/
structure Plan.Layout (g : Graph α σ) (inputs outputs : List NodeId) (p : Plan α σ) : Prop where
  /-- The plan keeps its graph. -/
  graph : p.graph = g
  /-- The nodes are the declared inputs and all that some output needs. -/
  mem_iff : ∀ id, id ∈ p.entries.toList.map (·.node) ↔
    id ∈ inputs ∨ ∃ o ∈ outputs, g.Reaches o id
  /-- No node has two entries. -/
  nodup : (p.entries.toList.map (·.node)).Nodup
  /-- The position of a node and the node at a position are inverse to each other. -/
  find?_iff : ∀ id k, p.find? id = some k ↔ ∃ e, p.entries[k]? = some e ∧ e.node = id
  /-- Every entry says what its node says. -/
  entry : ∀ k (e : Entry α σ), p.entries[k]? = some e → e.Matches g p.find? k
  /-- The inputs are bound to the first positions, in their order. -/
  inputs_eq : p.inputs = List.range inputs.length
  /-- They stand there. -/
  front : ∀ i id, inputs[i]? = some id → p.find? id = some i
  /-- No other entry is a symbol. -/
  symbol_iff : ∀ k (e : Entry α σ), p.entries[k]? = some e →
    (e.kind.isSymbol = true ↔ k < inputs.length)
  /-- Every output is bound to its position. -/
  outputs_at : List.Forall₂ (fun o k => p.find? o = some k) outputs p.outputs

namespace Placement

variable {g : Graph α σ} {p p' : Placement α σ} {id : NodeId} {n : Node α σ} {cs : List Nat}

theorem find_eq_ok {k : Nat} : p.find id = .ok k ↔ p.find? id = some k := by
  unfold find
  cases p.find? id <;> simp

/-- A node is put at the end if there is room for its value. -/
theorem push?_eq_ok :
    p.push? id n cs = .ok p' → n.shape.elements < wordLimit ∧ p' = p.push id n cs := by
  intro pushed
  obtain ⟨u, room, rfl⟩ := Outcome.map_eq_ok.mp pushed
  exact ⟨checkRoom_eq_ok_iff.mp room, rfl⟩

theorem find?_push (inside : id.index < p.position.size) (c : NodeId) :
    (p.push id n cs).find? c = if c = id then some p.entries.size else p.find? c := by
  by_cases same : c = id
  · subst same
    simp [push, find?, inside]
  · have apart : id.index ≠ c.index := fun h => same (by cases c; cases id; simp_all)
    simp [push, find?, same, Array.getElem?_setIfInBounds_ne apart]

theorem entries_push {k : Nat} {e : Entry α σ} :
    (p.push id n cs).entries[k]? = some e ↔
      p.entries[k]? = some e ∨ k = p.entries.size ∧ e = ⟨id, n.kind, n.shape, cs⟩ := by
  simp only [push, Array.getElem?_push]
  split
  · next last => subst last; simp [eq_comm]
  · next earlier => simp [earlier]

/-- Positions and entries are inverse to each other, and every entry says what its node says. -/
structure Valid (g : Graph α σ) (p : Placement α σ) : Prop where
  room : p.position.size = g.size
  find?_iff : ∀ id k, p.find? id = some k ↔ ∃ e, p.entries[k]? = some e ∧ e.node = id
  entry : ∀ k (e : Entry α σ), p.entries[k]? = some e → e.Matches g p.find? k

theorem valid_empty (g : Graph α σ) : Valid g (.empty g) where
  room := by simp [empty]
  find?_iff id k := by
    simp only [empty, find?, Array.getElem?_replicate]
    split <;> simp
  entry k e h := by simp [empty] at h

theorem Valid.lt_size (valid : Valid g p) {k : Nat} (found : p.find? id = some k) :
    k < p.entries.size := by
  obtain ⟨e, at_k, -⟩ := (valid.find?_iff id k).mp found
  exact (Array.getElem?_eq_some_iff.mp at_k).1

/-- A new node with placed operands can be put at the end. -/
theorem Valid.push (valid : Valid g p) (known : g.node? id = some n) (new : p.find? id = none)
    (placed : List.Forall₂ (fun c j => p.find? c = some j) n.children cs) :
    Valid g (p.push id n cs) := by
  have inside : id.index < p.position.size := by
    rw [valid.room]
    exact (g.node?_eq_some_iff_lt id).mp ⟨n, known⟩
  have kept : ∀ c j, p.find? c = some j → (p.push id n cs).find? c = some j := by
    intro c j found
    have apart : c ≠ id := by
      rintro rfl
      simp [new] at found
    rw [find?_push inside, if_neg apart, found]
  refine ⟨by simp [Placement.push, valid.room], fun c k => ?_, fun k e at_k => ?_⟩
  · rw [find?_push inside]
    by_cases same : c = id
    · subst same
      have fresh : ¬ ∃ e, p.entries[k]? = some e ∧ e.node = c := by
        rw [← valid.find?_iff, new]
        intro found
        cases found
      simp only [entries_push, ↓reduceIte, Option.some.injEq]
      constructor
      · rintro rfl
        exact ⟨_, .inr ⟨rfl, rfl⟩, rfl⟩
      · rintro ⟨e, at_k | ⟨rfl, -⟩, node⟩
        · exact absurd ⟨e, at_k, node⟩ fresh
        · rfl
    · simp only [if_neg same, valid.find?_iff, entries_push]
      constructor
      · rintro ⟨e, at_k, node⟩
        exact ⟨e, .inl at_k, node⟩
      · rintro ⟨e, at_k | ⟨-, rfl⟩, node⟩
        · exact ⟨e, at_k, node⟩
        · exact absurd node.symm same
  · rcases entries_push.mp at_k with earlier | ⟨rfl, rfl⟩
    · obtain ⟨m, hm, kind, shape, operands⟩ := valid.entry k e earlier
      exact ⟨m, hm, kind, shape, operands.imp fun c j h => ⟨kept c j h.1, h.2⟩⟩
    · exact ⟨n, known, rfl, rfl, placed.imp fun c j h => ⟨kept c j h, valid.lt_size h⟩⟩

/-! ### The run of the compiler -/

/-- What holds of a placement while a plan is made: it is valid, every node in it is an input or
needed by an output, the inputs seen so far stand in front, and nothing else is a symbol. -/
structure Arranged (g : Graph α σ) (inputs outputs : List NodeId) (p : Placement α σ) : Prop where
  valid : Valid g p
  origin : ∀ id k, p.find? id = some k → id ∈ inputs ∨ ∃ o ∈ outputs, g.Reaches o id
  front : ∀ i id, inputs[i]? = some id → p.find? id = some i
  length_le : inputs.length ≤ p.entries.size
  symbol_iff : ∀ k (e : Entry α σ), p.entries[k]? = some e →
    (e.kind.isSymbol = true ↔ k < inputs.length)

variable {inputs outputs : List NodeId}

/-- An input that is accepted is a symbol not seen before, and it is put at the end. -/
theorem pushInput_eq_ok {i : Nat} (accepted : pushInput g p (id, i) = .ok p') :
    ∃ n, g.node? id = some n ∧ n.kind.isSymbol = true ∧ p.find? id = none ∧
      n.shape.elements < wordLimit ∧ p' = p.push id n [] := by
  simp only [pushInput, Outcome.bind_eq_ok, Graph.node_eq_ok] at accepted
  obtain ⟨n, known, accepted⟩ := accepted
  split at accepted
  · cases accepted
  · next symbol =>
    split at accepted
    · cases accepted
    · next new =>
      exact ⟨n, known, by simpa using symbol, by simpa using new, push?_eq_ok accepted⟩

theorem Arranged.push_input (arranged : Arranged g inputs [] p) (sound : g.Sound)
    (size : p.entries.size = inputs.length) (known : g.node? id = some n)
    (symbol : n.kind.isSymbol = true) (new : p.find? id = none) :
    Arranged g (inputs ++ [id]) [] (p.push id n []) := by
  have leaf := (sound id n known).leaf_of_symbol symbol
  have valid : Valid g (p.push id n []) := arranged.valid.push known new (by simp [leaf])
  have inside := (g.node?_eq_some_iff_lt id).mp ⟨n, known⟩
  rw [← arranged.valid.room] at inside
  refine ⟨valid, fun c k found => ?_, fun i c at_i => ?_, ?_, fun k e at_k => ?_⟩
  · rw [find?_push inside] at found
    by_cases same : c = id
    · simp [same]
    · rw [if_neg same] at found
      simpa [same] using arranged.origin c k found
  · rw [find?_push inside]
    obtain ⟨bound, value⟩ := List.getElem?_eq_some_iff.mp at_i
    rw [List.length_append, List.length_singleton] at bound
    rw [List.getElem_append] at value
    split at value
    · have found := arranged.front i c (List.getElem?_eq_some_iff.mpr ⟨_, value⟩)
      have apart : c ≠ id := by
        rintro rfl
        simp [new] at found
      rw [if_neg apart, found]
    · rw [List.getElem_singleton] at value
      rw [if_pos value.symm, size]
      congr 1
      omega
  · simp [push, size]
  · rcases entries_push.mp at_k with earlier | ⟨rfl, rfl⟩
    · have before := (Array.getElem?_eq_some_iff.mp earlier).1
      rw [arranged.symbol_iff k e earlier, List.length_append]
      simp only [List.length_singleton]
      omega
    · simp [symbol, size]

/-- A frame of the search from a root belongs to a node that the root needs, and what is left to
look at are operands of that node. -/
structure OnPath (g : Graph α σ) (root : NodeId) (f : Frame α σ) : Prop where
  reached : g.Reaches root f.id
  known : g.node? f.id = some f.node
  left_sub : ∀ c ∈ f.left, c ∈ f.node.children

/-- A node that is finished is no symbol, and its operands are placed. -/
theorem finish_eq_ok (finished : p.finish id n = .ok p') :
    n.kind.isSymbol = false ∧ n.shape.elements < wordLimit ∧ ∃ cs, p' = p.push id n cs ∧
      List.Forall₂ (fun c j => p.find? c = some j) n.children cs := by
  unfold finish at finished
  split at finished
  · cases finished
  · next kind =>
    obtain ⟨cs, found, pushed⟩ := Outcome.bind_eq_ok.mp finished
    obtain ⟨room, pushed⟩ := push?_eq_ok pushed
    refine ⟨?_, room, cs, pushed, (Outcome.mapM_eq_ok.mp found).imp fun _ _ => find_eq_ok.mp⟩
    cases h : n.kind with
    | symbol name => exact absurd h (kind name)
    | constant | apply => rfl

/-- The search puts a node at the end when the root needs it, it is no symbol, there is room for its
value, it is not placed, and its operands are. What these steps keep, a successful search keeps. -/
theorem search_keeps {P : Placement α σ → Prop} {root : NodeId}
    (step : ∀ p id n cs, P p → g.Reaches root id → g.node? id = some n →
      n.kind.isSymbol = false → n.shape.elements < wordLimit → p.find? id = none →
      List.Forall₂ (fun c j => p.find? c = some j) n.children cs → P (p.push id n cs))
    (fuel : Nat) (stack : List (Frame α σ)) (start : P p) (path : ∀ f ∈ stack, OnPath g root f)
    (found : search g fuel stack p = .ok p') : P p' := by
  fun_induction search g fuel stack p with
  | case1 => cases found; exact start
  | case2 => cases found
  | case3 fuel id n child left stack p placed ih =>
    -- an operand that is placed is passed over
    obtain ⟨top, below⟩ := List.forall_mem_cons.mp path
    refine ih start (List.forall_mem_cons.mpr ⟨⟨top.reached, top.known, ?_⟩, below⟩) found
    exact fun c member => top.left_sub c (List.mem_cons_of_mem child member)
  | case4 fuel id n child left stack p new c known ih =>
    -- an operand that is not placed is put on the path
    obtain ⟨top, below⟩ := List.forall_mem_cons.mp path
    have known := Graph.node_eq_ok.mp known
    have reached : g.Reaches root child :=
      top.reached.tail ⟨n, top.known, top.left_sub child List.mem_cons_self⟩
    refine ih start (List.forall_mem_cons.mpr ⟨⟨reached, known, fun _ member => member⟩,
      List.forall_mem_cons.mpr ⟨⟨top.reached, top.known, ?_⟩, below⟩⟩) found
    exact fun c member => top.left_sub c (List.mem_cons_of_mem child member)
  | case5 => cases found
  | case6 fuel id n stack p placed ih => exact ih start (List.forall_mem_cons.mp path).2 found
  | case7 fuel id n stack p new p₁ finished ih =>
    obtain ⟨top, below⟩ := List.forall_mem_cons.mp path
    obtain ⟨computed, room, cs, rfl, placed⟩ := finish_eq_ok finished
    have new : p.find? id = none := by simpa using new
    exact ih (step p id n cs start top.reached top.known computed room new placed) below found
  | case8 => cases found

theorem Arranged.push_needed {root : NodeId} (arranged : Arranged g inputs outputs p)
    (declared : root ∈ outputs) (reached : g.Reaches root id) (known : g.node? id = some n)
    (computed : n.kind.isSymbol = false) (new : p.find? id = none)
    (placed : List.Forall₂ (fun c j => p.find? c = some j) n.children cs) :
    Arranged g inputs outputs (p.push id n cs) := by
  have inside := (g.node?_eq_some_iff_lt id).mp ⟨n, known⟩
  rw [← arranged.valid.room] at inside
  refine ⟨arranged.valid.push known new placed, fun c k found => ?_, fun i c at_i => ?_, ?_,
    fun k e at_k => ?_⟩
  · rw [find?_push inside] at found
    by_cases same : c = id
    · exact .inr ⟨root, declared, same ▸ reached⟩
    · rw [if_neg same] at found
      exact arranged.origin c k found
  · have found := arranged.front i c at_i
    have apart : c ≠ id := by
      rintro rfl
      simp [new] at found
    rw [find?_push inside, if_neg apart, found]
  · simpa [push] using Nat.le_succ_of_le arranged.length_le
  · rcases entries_push.mp at_k with earlier | ⟨rfl, rfl⟩
    · exact arranged.symbol_iff k e earlier
    · simp [computed, arranged.length_le]

/-- Placing the inputs, one after the other. -/
theorem Arranged.push_inputs (sound : g.Sound) (rest : List NodeId)
    (arranged : Arranged g inputs [] p) (size : p.entries.size = inputs.length)
    (placed : (rest.zipIdx inputs.length).foldlM (pushInput g) p = .ok p') :
    Arranged g (inputs ++ rest) [] p' := by
  induction rest generalizing inputs p with
  | nil =>
    cases placed
    simpa using arranged
  | cons id rest ih =>
    obtain ⟨p₁, first, later⟩ := Outcome.bind_eq_ok.mp placed
    obtain ⟨n, known, symbol, new, -, rfl⟩ := pushInput_eq_ok first
    have next := arranged.push_input sound size known symbol new
    have size : (p.push id n []).entries.size = (inputs ++ [id]).length := by simp [push, size]
    rw [show inputs.length + 1 = (inputs ++ [id]).length by simp] at later
    simpa using ih next size later

/-- Placing what the outputs need, one output after the other. -/
theorem Arranged.search_outputs (arranged : Arranged g inputs outputs p)
    (placed : outputs.foldlM (searchFrom g) p = .ok p') : Arranged g inputs outputs p' := by
  refine Outcome.foldlM_keeps (fun p root p' declared arranged found => ?_) arranged placed
  obtain ⟨n, known, found⟩ := Outcome.bind_eq_ok.mp found
  split at found
  · cases found
    exact arranged
  · have path : ∀ f ∈ [Frame.mk root n n.children], OnPath g root f := by
      simpa using ⟨.refl, Graph.node_eq_ok.mp known, fun _ member => member⟩
    refine search_keeps (fun p id n cs arranged reached known computed _ => ?_) _ _ arranged path
      found
    exact arranged.push_needed declared reached known computed

theorem arranged_empty (g : Graph α σ) : Arranged g [] [] (.empty g) where
  valid := valid_empty g
  origin id k found := absurd ((valid_empty g).lt_size found) (Nat.not_lt_zero k)
  front i id at_i := by simp at at_i
  length_le := Nat.zero_le _
  symbol_iff k e at_k := by simp [empty] at at_k

/-- What is placed is closed under operands. -/
theorem Valid.placed_of_reaches (valid : Valid g p) {o : NodeId} (path : g.Reaches o id)
    (placed : ∃ k, p.find? o = some k) : ∃ k, p.find? id = some k := by
  induction path with
  | refl => exact placed
  | tail _ operand ih =>
    obtain ⟨k, found⟩ := ih
    obtain ⟨e, at_k, rfl⟩ := (valid.find?_iff _ k).mp found
    obtain ⟨n, known, -, -, operands⟩ := valid.entry k e at_k
    obtain ⟨m, same, member⟩ := operand
    cases known.symm.trans same
    obtain ⟨j, -, placed, -⟩ := Outcome.exists_of_forall₂ operands member
    exact ⟨j, placed⟩

end Placement

namespace Plan

variable {g : Graph α σ} {inputs outputs : List NodeId} {p : Plan α σ}

/-- Compiling is placing the inputs, then what the outputs need, then looking the outputs up. -/
theorem compile_eq_ok (compiled : compile g inputs outputs = .ok p) :
    ∃ q, inputs.zipIdx.foldlM (Placement.pushInput g) (.empty g) = .ok q ∧
      ∃ r, outputs.foldlM (Placement.searchFrom g) q = .ok r ∧ ∃ ks,
        List.Forall₂ (fun o k => r.find? o = some k) outputs ks ∧
        p = ⟨g, r.entries, r.position, List.range inputs.length, ks⟩ := by
  simp only [compile, Outcome.bind_eq_ok, pure, Except.pure, Except.ok.injEq] at compiled
  obtain ⟨q, front, r, rest, ks, found, rfl⟩ := compiled
  exact ⟨q, front, r, rest, ks,
    (Outcome.mapM_eq_ok.mp found).imp fun _ _ => Placement.find_eq_ok.mp, rfl⟩

/-- The nodes of a placement are those with a position. -/
theorem mem_nodes_iff {r : Placement α σ} (valid : r.Valid g) (id : NodeId) :
    id ∈ r.entries.toList.map (·.node) ↔ ∃ k, r.find? id = some k := by
  rw [List.mem_iff_getElem?]
  exact exists_congr fun k => by simp [valid.find?_iff]

/-- No node has two positions. -/
theorem nodup_nodes {r : Placement α σ} (valid : r.Valid g) :
    (r.entries.toList.map (·.node)).Nodup := by
  refine List.pairwise_iff_getElem.mpr ?_
  intro i j hi hj less same
  rw [List.length_map, Array.length_toList] at hi hj
  simp only [List.getElem_map, Array.getElem_toList] at same
  have at_i := (valid.find?_iff _ i).mpr ⟨_, Array.getElem?_eq_getElem hi, rfl⟩
  have at_j := (valid.find?_iff _ j).mpr ⟨_, Array.getElem?_eq_getElem hj, rfl⟩
  rw [same, at_j] at at_i
  cases at_i
  exact Nat.lt_irrefl i less

/-- A compiled plan is arranged as its inputs and outputs ask for. -/
theorem layout_of_compile (built : g.Built) (compiled : compile g inputs outputs = .ok p) :
    p.Layout g inputs outputs := by
  obtain ⟨q, front, r, rest, ks, found, rfl⟩ := compile_eq_ok compiled
  have first : Placement.Arranged g inputs [] q := by
    simpa using (Placement.arranged_empty g).push_inputs built.sound inputs rfl front
  have arranged : Placement.Arranged g inputs outputs r :=
    Placement.Arranged.search_outputs { first with
      origin := fun id k found => (first.origin id k found).imp_right (by simp) } rest
  have valid := arranged.valid
  refine ⟨rfl, fun id => ?_, nodup_nodes valid, valid.find?_iff, valid.entry, rfl, arranged.front,
    arranged.symbol_iff, found⟩
  rw [mem_nodes_iff valid]
  constructor
  · rintro ⟨k, placed⟩
    exact arranged.origin id k placed
  · rintro (declared | ⟨o, declared, path⟩)
    · obtain ⟨i, at_i⟩ := List.mem_iff_getElem?.mp declared
      exact ⟨i, arranged.front i id at_i⟩
    · obtain ⟨k, -, placed⟩ := Outcome.exists_of_forall₂ found declared
      exact valid.placed_of_reaches path ⟨k, placed⟩

theorem Layout.length_le (layout : p.Layout g inputs outputs) :
    inputs.length ≤ p.entries.size := by
  by_contra more
  have found := layout.front p.entries.size _ (List.getElem?_eq_getElem (by omega))
  obtain ⟨e, at_k, -⟩ := (layout.find?_iff _ _).mp found
  exact Nat.lt_irrefl _ (Array.getElem?_eq_some_iff.mp at_k).1

theorem Layout.constant_shape (layout : p.Layout g inputs outputs) (sound : g.Sound) (k : Nat)
    (e : Entry α σ) (m : DenseMatrix α) (at_k : p.entries[k]? = some e)
    (constant : e.kind = .constant m) : m.shape = e.shape := by
  obtain ⟨n, known, kind, shape, -⟩ := layout.entry k e at_k
  rw [shape]
  exact (sound e.node n known).constant m (kind ▸ constant)

/-- A plan has its inputs in front, everything the outputs need behind them and nothing twice, every
operand before the nodes that use it, and one number of each kind for every entry, which has the
shape of the node and is the matrix of a constant. -/
theorem compile_arranges [Zero α] (built : g.Built)
    (compiled : compile g inputs outputs = .ok p) :
    p.Layout g inputs outputs ∧ p.startSlots.size = p.entries.size ∧
      ∀ (k : Nat) (e : Entry α σ) (n : Node α σ) (c : Cell α), p.entries[k]? = some e →
        g.node? e.node = some n → p.startSlots[k]? = some c →
        c.value.shape = n.shape ∧ (∀ m, n.kind = .constant m → c.value = m) ∧
        (∃ m, c.forward = #[m] ∧ m.shape = n.shape) ∧
        ∃ m, c.adjoint = #[m] ∧ m.shape = n.shape := by
  have layout := layout_of_compile built compiled
  have fit := fit_startSlots (layout.constant_shape built.sound)
  refine ⟨layout, fit.size, ?_⟩
  intro k e n c at_k known held
  obtain ⟨n', known', kind, shape, -⟩ := layout.entry k e at_k
  cases known.symm.trans known'
  have fits := fit.cell k e c at_k held
  rw [← kind, ← shape]
  refine ⟨fits.value, fits.constant, ?_⟩
  simp only [startSlots, Array.getElem?_map, at_k, Option.map_some, Option.some.injEq] at held
  subst held
  exact ⟨⟨_, rfl, fits.forward _ (by simp)⟩, ⟨_, rfl, fits.adjoint _ (by simp)⟩⟩

theorem compile_arranges_sharing :
    ∃ p, compile Graph.sharing [⟨0⟩, ⟨1⟩] [⟨5⟩, ⟨3⟩, ⟨5⟩, ⟨0⟩, ⟨2⟩] = .ok p ∧
      p.Layout Graph.sharing [⟨0⟩, ⟨1⟩] [⟨5⟩, ⟨3⟩, ⟨5⟩, ⟨0⟩, ⟨2⟩] ∧ p.outputs = [5, 2, 5, 0, 3] :=
  ⟨_, rfl, (compile_arranges Graph.built_sharing rfl).1, rfl⟩

end Plan

end Cotangent
