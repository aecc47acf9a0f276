import Mathlib.Logic.Relation
import Cotangent.Expression.Graph
import Cotangent.Proofs.Computation
import Cotangent.Proofs.ExactScalar

/-! Graphs that builders can make. A history of builder calls starts from the empty graph, and every
call appends one node to what is there, so an operand is always older than the nodes that use it.
Reachability through operands therefore runs down the arena and has no cycles. -/
namespace Cotangent.Graph

variable {α σ : Type}

/-- A graph made by some sequence of builder calls. A call that fails makes no graph. -/
inductive Built : Graph α σ → Prop
  | empty : Built .empty
  | symbol {g : Graph α σ} (before : Built g) (name : String) (shape : Shape) :
      Built (g.symbol name shape).2
  | constant {g : Graph α σ} (before : Built g) (value : DenseMatrix α) :
      Built (g.constant value).2
  | apply {g g' : Graph α σ} {op : Operation α σ} {children : List NodeId} {id : NodeId}
      (before : Built g) (answered : g.apply op children = .ok (id, g')) : Built g'

/-- The named builders on matrices are applications. -/
theorem Built.named [Scalar α] {g g' : Graph α σ} {a b id : NodeId} (before : Built g)
    (answered : (∃ k, g.binary k a b = .ok (id, g')) ∨ (∃ k, g.unary k a = .ok (id, g')) ∨
      g.matmul a b = .ok (id, g') ∨ g.transpose a = .ok (id, g') ∨ g.sum a = .ok (id, g')) :
    Built g' := by
  obtain ⟨k, h⟩ | ⟨k, h⟩ | h | h | h := answered <;> exact before.apply h

/-- So is the solution of a linear system, once its solver exists. -/
theorem Built.solveSparse {β ω : Type} [Scalar α] [Backend α ω β] {catalogue : Catalogue α β}
    {g g' : Graph α (Store α β ω)} {s s' : Store α β ω} {a b id : NodeId} {plugin : String}
    {pattern : Pattern} {transposed : Bool} (before : Built g)
    (answered : g.solveSparse catalogue s a b plugin pattern transposed = .ok (id, g', s')) :
    Built g' := by
  simp only [Graph.solveSparse, Outcome.bind_eq_ok, pure, Except.pure, Except.ok.injEq] at answered
  obtain ⟨⟨op, s''⟩, -, ⟨id', g''⟩, applied, same⟩ := answered
  cases same
  exact before.apply applied

/-- What the node of a handle looks like in a graph made by builders. -/
structure NodeSound (id : NodeId) (n : Node α σ) : Prop where
  /-- Operands are older than the node. -/
  child_lt : ∀ c ∈ n.children, c.index < id.index
  /-- Only an application has operands. -/
  leaf : (∀ op, n.kind ≠ .apply op) → n.children = []
  /-- A constant has the shape of its matrix. -/
  constant : ∀ m, n.kind = .constant m → m.shape = n.shape

theorem NodeSound.leaf_of_symbol {id : NodeId} {n : Node α σ} (sound : NodeSound id n)
    (symbol : n.kind.isSymbol = true) : n.children = [] :=
  sound.leaf fun op applied => by simp [applied, NodeKind.isSymbol] at symbol

/-- Every node of the graph is sound. -/
def Sound (g : Graph α σ) : Prop := ∀ id n, g.node? id = some n → NodeSound id n

/-- A handle of the graph belongs to a node. -/
theorem node?_eq_some_iff_lt (g : Graph α σ) (id : NodeId) :
    (∃ n, g.node? id = some n) ↔ id.index < g.size := by
  simp [node?, size, ← Option.isSome_iff_exists]

theorem node_eq_ok {g : Graph α σ} {id : NodeId} {n : Node α σ} :
    g.node id = .ok n ↔ g.node? id = some n := by
  unfold node
  cases g.node? id <;> simp

/-- A successful application appends one node, whose operands are all there. -/
theorem apply_eq_ok {g g' : Graph α σ} {op : Operation α σ} {children : List NodeId} {id : NodeId}
    (answered : g.apply op children = .ok (id, g')) :
    (∀ c ∈ children, c.index < g.size) ∧ ∃ shape, g' = (g.push ⟨.apply op, children, shape⟩).2 := by
  simp only [Graph.apply, Outcome.bind_eq_ok, pure, Except.pure, Except.ok.injEq] at answered
  obtain ⟨_, -, shapes, found, shape, -, pushed⟩ := answered
  refine ⟨fun c member => ?_, shape, (congrArg Prod.snd pushed).symm⟩
  obtain ⟨s, hs⟩ := Outcome.mapM_ok_of_mem found member
  obtain ⟨n, hn, -⟩ := Outcome.map_eq_ok.mp hs
  exact (g.node?_eq_some_iff_lt c).mp ⟨n, node_eq_ok.mp hn⟩

/-- A node of the graph after a push was there before, or is the new one. -/
theorem node?_push_cases {g : Graph α σ} {n m : Node α σ} {id : NodeId}
    (known : (g.push n).2.node? id = some m) : g.node? id = some m ∨ id = ⟨g.size⟩ ∧ m = n := by
  have inside := (node?_eq_some_iff_lt _ id).mp ⟨m, known⟩
  rw [size_push, Nat.lt_succ_iff_lt_or_eq] at inside
  rcases inside with older | last
  · exact .inl (node?_push_of_lt g n older ▸ known)
  · obtain rfl : id = ⟨g.size⟩ := by cases id; exact congrArg NodeId.mk last
    exact .inr ⟨rfl, Option.some.inj (known.symm.trans (node?_push_self g n))⟩

/-- A builder leaves the shapes of earlier nodes as they are. -/
theorem shape_push {g : Graph α σ} {n : Node α σ} {c : NodeId} {s : Shape}
    (known : g.shape c = .ok s) : (g.push n).2.shape c = .ok s := by
  obtain ⟨m, found, rfl⟩ := Outcome.map_eq_ok.mp known
  have there := node_eq_ok.mp found
  have older := (g.node?_eq_some_iff_lt c).mp ⟨m, there⟩
  rw [← node?_push_of_lt g n older, ← node_eq_ok] at there
  rw [shape, there]
  rfl

/-- Appending a sound node keeps the graph sound. -/
theorem Sound.push {g : Graph α σ} (sound : g.Sound) {n : Node α σ}
    (new : NodeSound ⟨g.size⟩ n) : (g.push n).2.Sound := by
  intro id m known
  rcases node?_push_cases known with older | ⟨rfl, rfl⟩
  · exact sound id m older
  · exact new

/-- Every builder keeps the graph sound. -/
theorem Built.sound {g : Graph α σ} (built : g.Built) : g.Sound := by
  induction built with
  | empty => simp [Sound, Graph.empty, node?]
  | symbol before name shape ih => exact ih.push ⟨by simp, fun _ => rfl, by simp⟩
  | constant before value ih => exact ih.push ⟨by simp, fun _ => rfl, by simp⟩
  | @apply g g' op children id before answered ih =>
    obtain ⟨inside, shape, rfl⟩ := apply_eq_ok answered
    exact ih.push ⟨inside, by simp, by simp⟩

/-! ### Reachability -/

/-- One node is an operand of another. -/
def Operand (g : Graph α σ) (id child : NodeId) : Prop :=
  ∃ n, g.node? id = some n ∧ child ∈ n.children

/-- A node is an operand of an operand and so on of another, or the same. -/
def Reaches (g : Graph α σ) : NodeId → NodeId → Prop := Relation.ReflTransGen g.Operand

/-- A node that some output needs applies an operation. -/
structure Applied (g : Graph α σ) (outputs : List NodeId) (id : NodeId) (n : Node α σ)
    (op : Operation α σ) : Prop where
  needed : ∃ o ∈ outputs, g.Reaches o id
  known : g.node? id = some n
  kind : n.kind = .apply op

/-- All operations are primitives. -/
def Stateless (g : Graph α σ) : Prop :=
  ∀ id n op, g.node? id = some n → n.kind = .apply op → ∃ p : Primitive α, op = p.operation

/-! ### A graph with sharing -/

/-- An operand used twice by one node, a node used by two, a symbol that nothing uses, a constant,
and a last node that nothing uses: `x * x`, `x * x + 3` and their product. -/
def sharing : Graph Int Unit :=
  ⟨#[⟨.symbol "x", [], (1, 1)⟩, ⟨.symbol "u", [], (2, 1)⟩, ⟨.constant (.scalar 3), [], (1, 1)⟩,
    ⟨.apply BinaryKind.mul.primitive.operation, [⟨0⟩, ⟨0⟩], (1, 1)⟩,
    ⟨.apply BinaryKind.add.primitive.operation, [⟨3⟩, ⟨2⟩], (1, 1)⟩,
    ⟨.apply BinaryKind.mul.primitive.operation, [⟨4⟩, ⟨3⟩], (1, 1)⟩,
    ⟨.apply UnaryKind.neg.primitive.operation, [⟨0⟩], (1, 1)⟩]⟩

theorem built_sharing : sharing.Built := by
  have start : (Graph.empty : Graph Int Unit).Built := .empty
  have leaves := ((start.symbol "x" (1, 1)).symbol "u" (2, 1)).constant (.scalar 3)
  have square := leaves.named (a := ⟨0⟩) (b := ⟨0⟩) (.inl ⟨.mul, rfl⟩)
  have shifted := square.named (a := ⟨3⟩) (b := ⟨2⟩) (.inl ⟨.add, rfl⟩)
  have product := shifted.named (a := ⟨4⟩) (b := ⟨3⟩) (.inl ⟨.mul, rfl⟩)
  exact product.named (a := ⟨0⟩) (b := ⟨0⟩) (.inr (.inl ⟨.neg, rfl⟩))

theorem stateless_sharing : sharing.Stateless := by
  intro id n op known kind
  have member := Array.mem_toList_iff.mpr (Array.mem_of_getElem? known)
  simp only [sharing, List.mem_cons, List.not_mem_nil, or_false] at member
  rcases member with rfl | rfl | rfl | rfl | rfl | rfl | rfl <;> cases kind <;> exact ⟨_, rfl⟩

end Cotangent.Graph
