import Cotangent.Expression.Building
import Cotangent.Proofs.Arena
import Cotangent.Proofs.Shapes

/-! Requests to a graph, one after another. Whatever a request checks, it reads the graph only, and what it
changes last is the graph, by one node that is in order. So every request inserts or leaves the graph alone,
and by induction every graph that requests leave behind is in order, though some of them were refused and the
solvers were used in between. -/
namespace Cotangent

variable {α σ τ γ : Type}

namespace Graph

/-- An application has as many operands as its operation takes, and the shape that the operation gives for
their shapes. -/
structure Fulfils (g : Graph α σ) (n : Node α σ) (op : Operation α σ) : Prop where
  arity : n.children.length = op.arity
  promised : ∃ shapes, List.Forall₂ (fun c s => g.shape c = .ok s) n.children shapes ∧
    op.outputShape shapes = .ok n.shape

/-- A node that is in order under a handle. -/
structure Ordered (g : Graph α σ) (id : NodeId) (n : Node α σ) : Prop extends NodeSound id n where
  fulfils : ∀ op, n.kind = .apply op → g.Fulfils n op

/-- Every node is in order. -/
def InOrder (g : Graph α σ) : Prop := ∀ id n, g.node? id = some n → g.Ordered id n

theorem Ordered.push {g : Graph α σ} {id : NodeId} {n : Node α σ} (ordered : g.Ordered id n)
    (m : Node α σ) : (g.push m).2.Ordered id n where
  toNodeSound := ordered.toNodeSound
  fulfils op applied := by
    obtain ⟨arity, shapes, known, promised⟩ := ordered.fulfils op applied
    exact ⟨arity, shapes, known.imp fun _ _ => shape_push, promised⟩

theorem InOrder.push {g : Graph α σ} (inOrder : g.InOrder) {n : Node α σ}
    (new : g.Ordered ⟨g.size⟩ n) : (g.push n).2.InOrder := by
  intro id m known
  rcases node?_push_cases known with older | ⟨rfl, rfl⟩
  · exact (inOrder id m older).push n
  · exact new.push m

/-- A builder could have appended any node that is in order. -/
theorem Built.push {g : Graph α σ} (built : g.Built) {n : Node α σ} (new : g.Ordered ⟨g.size⟩ n) :
    (g.push n).2.Built := by
  obtain ⟨kind, children, shape⟩ := n
  cases kind with
  | symbol name =>
    obtain rfl : children = [] := new.leaf (by simp)
    exact built.symbol name shape
  | constant value =>
    obtain rfl : children = [] := new.leaf (by simp)
    obtain rfl : value.shape = shape := new.constant value rfl
    exact built.constant value
  | apply op =>
    obtain ⟨arity, shapes, known, promised⟩ := new.fulfils op rfl
    have counted : checkArity op.name op.arity children.length = .ok () :=
      checkArity_eq_ok.mpr arity.symm
    have answered : g.apply op children = .ok (g.push ⟨.apply op, children, shape⟩) := by
      rw [Graph.apply, counted, Outcome.ok_bind, Outcome.mapM_eq_ok.mpr known, Outcome.ok_bind,
        promised]
      rfl
    exact built.apply answered

/-- What an application appends is in order. -/
theorem apply_cases (g : Graph α σ) (op : Operation α σ) (children : List NodeId) :
    (∃ n, g.apply op children = .ok (g.push n) ∧ n.children = children ∧
      g.Ordered ⟨g.size⟩ n) ∨
    ∃ e, g.apply op children = .error e := by
  cases answered : g.apply op children with
  | error e => exact .inr ⟨e, rfl⟩
  | ok r =>
    obtain ⟨inside, -⟩ := apply_eq_ok answered
    simp only [apply, Outcome.bind_eq_ok, pure, Except.pure, Except.ok.injEq] at answered
    obtain ⟨_, counted, shapes, found, shape, promised, rfl⟩ := answered
    refine .inl ⟨_, rfl, rfl, ⟨inside, by simp, by simp⟩, fun op' same => ?_⟩
    cases same
    exact ⟨(checkArity_eq_ok.mp counted).symm, shapes, Outcome.mapM_eq_ok.mp found, promised⟩

end Graph

namespace NodeRequest

/-- A computation that leaves the graph as it is. -/
def Reads (act : Run (Graph α σ × τ) γ) : Prop := ∀ g s, (act (g, s)).2.1 = g

/-- A computation that appends one node with these operands, which is in order, and answers its position, or
leaves the graph as it is. -/
def Inserts (operands : List NodeId) (act : Run (Graph α σ × τ) NodeId) : Prop := ∀ g s,
  (∃ n s', act (g, s) = (.ok ⟨g.size % handleLimit⟩, (g.push n).2, s') ∧ n.children = operands ∧
    g.Ordered ⟨g.size⟩ n) ∨
  ∃ e s', act (g, s) = (.error e, g, s')

theorem reads_ofExcept (x : Except Error γ) : Reads (Run.ofExcept x : Run (Graph α σ × τ) γ) :=
  fun _ _ => rfl

theorem reads_shapeOf (id : NodeId) : Reads (shapeOf id : Run (Graph α σ × τ) Shape) :=
  fun _ _ => rfl

theorem reads_onSecond (act : Run τ γ) : Reads (Run.onSecond act : Run (Graph α σ × τ) γ) :=
  fun _ _ => rfl

/-- Reading comes before the insertion. -/
theorem Reads.bind {operands : List NodeId} {act : Run (Graph α σ × τ) γ}
    {next : γ → Run (Graph α σ × τ) NodeId} (reads : Reads act)
    (inserts : ∀ x, Inserts operands (next x)) : Inserts operands (act >>= next) := by
  intro g s
  have kept := reads g s
  rw [Run.bind_apply]
  rcases ran : act (g, s) with ⟨_ | x, g', s'⟩ <;> rw [ran] at kept <;> cases kept
  · exact .inr ⟨_, s', rfl⟩
  · exact inserts x _ s'

theorem inserts_append {n : Node α σ} (leaf : n.children = []) (other : ∀ op, n.kind ≠ .apply op)
    (constant : ∀ m, n.kind = .constant m → m.shape = n.shape) :
    Inserts [] (append n : Run (Graph α σ × τ) NodeId) := by
  intro g s
  refine .inl ⟨n, s, rfl, leaf, ⟨by simp [leaf], fun _ => leaf, constant⟩, fun op applied => ?_⟩
  exact absurd applied (other op)

/-- An application on the graph as it is now. -/
theorem applied_eq (op : Operation α σ) (children : List NodeId) (g : Graph α σ) (s : τ) :
    applied op children (g, s) = match g.apply op children with
      | .ok (_, g') => (.ok ⟨g.size % handleLimit⟩, g', s)
      | .error e => (.error e, g, s) := by
  have shapes : (children.mapM shapeOf : Run (Graph α σ × τ) (List Shape)) (g, s) =
      (children.mapM g.shape, (g, s)) := Run.mapM_stay fun _ _ => rfl
  rw [applied, Graph.apply, Run.bind_apply, Run.ofExcept]
  cases checkArity op.name op.arity children.length with
  | error e => rfl
  | ok _ =>
    rw [Outcome.ok_bind]
    dsimp only
    rw [Run.bind_apply, shapes]
    cases children.mapM g.shape with
    | error e => rfl
    | ok shapes =>
      rw [Outcome.ok_bind]
      dsimp only
      rw [Run.bind_apply, Run.ofExcept]
      cases op.outputShape shapes <;> rfl

theorem inserts_applied (op : Operation α σ) (children : List NodeId) :
    Inserts children (applied op children : Run (Graph α σ × τ) NodeId) := by
  intro g s
  rw [applied_eq]
  rcases g.apply_cases op children with ⟨n, done, operands, ordered⟩ | ⟨e, failed⟩
  · rw [done]
    exact .inl ⟨n, s, rfl, operands, ordered⟩
  · rw [failed]
    exact .inr ⟨e, s, rfl⟩

/-- The operands that are asked for. -/
def operands : NodeRequest α σ → List NodeId
  | symbol .. | constant _ | scalar _ => []
  | apply _ children => children
  | unary _ a | transpose a | sum a => [a]
  | binary _ a b | matmul a b | solve a b .. | solveSparse a b .. => [a, b]

variable {β ω : Type} [Scalar α] [Backend α ω β]

/-- Every request inserts. -/
theorem inserts (catalogue : Catalogue α β) (r : NodeRequest α (Store α β ω)) :
    Inserts r.operands (r.run catalogue) := by
  have solves (a b : NodeId) (plugin : String) (pattern : Pattern) (transposed : Bool) :
      Inserts [a, b] (solved catalogue a b plugin pattern transposed :
        Run (Graph α (Store α β ω) × Store α β ω) NodeId) :=
    (reads_onSecond _).bind fun op => inserts_applied op.operation [a, b]
  cases r with
  | symbol name shape => exact inserts_append rfl (by simp) (by simp)
  | constant value => exact inserts_append rfl (by simp) (by simp)
  | scalar x => exact inserts_append rfl (by simp) (by simp)
  | apply op children => exact inserts_applied op children
  | unary kind a => exact inserts_applied _ [a]
  | binary kind a b => exact inserts_applied _ [a, b]
  | matmul a b => exact inserts_applied _ [a, b]
  | transpose a => exact inserts_applied _ [a]
  | sum a => exact inserts_applied _ [a]
  | solve a b plugin transposed =>
    exact (reads_shapeOf a).bind fun shape =>
      (reads_ofExcept _).bind fun pattern => solves a b plugin pattern transposed
  | solveSparse a b plugin pattern transposed => exact solves a b plugin pattern transposed

end NodeRequest

/-! ### Histories -/

/-- A request together with what it meets: the kinds of backends that there are, and the state of all
solvers. -/
structure NodeAttempt (α β ω : Type) where
  catalogue : Catalogue α β
  store : Store α β ω
  request : NodeRequest α (Store α β ω)

section Histories

variable {β ω : Type} [Scalar α] [Backend α ω β]

/-- The answer to an attempt, and what it leaves behind. -/
def NodeAttempt.run (t : NodeAttempt α β ω) (g : Graph α (Store α β ω)) :
    Except Error NodeId × Graph α (Store α β ω) × Store α β ω :=
  t.request.run t.catalogue (g, t.store)

namespace Graph

/-- The graph that attempts leave behind, one after another. -/
def after (attempts : List (NodeAttempt α β ω)) : Graph α (Store α β ω) :=
  attempts.foldl (fun g t => (t.run g).2.1) .empty

/-- What a node in order keeps, an attempt keeps. -/
theorem attempt_keeps {P : Graph α (Store α β ω) → Prop} {g : Graph α (Store α β ω)} (kept : P g)
    (push : ∀ n, g.Ordered ⟨g.size⟩ n → P (g.push n).2) (t : NodeAttempt α β ω) : P (t.run g).2.1 := by
  rcases t.request.inserts t.catalogue g t.store with ⟨n, s', ran, -, ordered⟩ | ⟨e, s', ran⟩
  · rw [NodeAttempt.run, ran]
    exact push n ordered
  · rw [NodeAttempt.run, ran]
    exact kept

theorem after_keeps {P : Graph α (Store α β ω) → Prop} (empty : P .empty)
    (push : ∀ g n, P g → g.Ordered ⟨g.size⟩ n → P (g.push n).2) (attempts : List (NodeAttempt α β ω)) :
    P (after attempts) :=
  foldl_keeps (P := fun _ g => P g) empty
    fun _ t _ g _ kept => attempt_keeps kept (fun n => push g n kept) t

/-- Requests make no graphs but those that builders make. -/
theorem built_after (attempts : List (NodeAttempt α β ω)) : (after attempts).Built :=
  after_keeps .empty (fun _ _ built new => built.push new) attempts

/-- Every graph that requests leave behind is in order: operands are older than their node, and an
application has as many operands as its operation takes and the shape that the operation gives for their
shapes. A request that is answered appends exactly one node, on the operands that were asked for, and leaves
all others alone; as long as a handle can hold the position of the node, it is what is answered. A request
that is refused leaves the graph as it is. -/
theorem requests_insert (attempts : List (NodeAttempt α β ω)) :
    (after attempts).InOrder ∧
    ∀ t : NodeAttempt α β ω,
      (∀ id g' s', t.run (after attempts) = (.ok id, g', s') →
        g'.size = (after attempts).size + 1 ∧
        ((after attempts).size < handleLimit → id.index = (after attempts).size) ∧
        (∀ c : NodeId, c.index < (after attempts).size → g'.node? c = (after attempts).node? c) ∧
        ∃ n, g'.node? ⟨(after attempts).size⟩ = some n ∧ n.children = t.request.operands) ∧
      ∀ e g' s', t.run (after attempts) = (.error e, g', s') → g' = after attempts := by
  have inOrder : (after attempts).InOrder :=
    after_keeps (by simp [InOrder, Graph.empty, node?]) (fun _ _ inOrder new => inOrder.push new) attempts
  refine ⟨inOrder, fun t => ?_⟩
  obtain ⟨g, here⟩ : ∃ g, after attempts = g := ⟨_, rfl⟩
  rw [here]
  rcases t.request.inserts t.catalogue g t.store with ⟨n, s', ran, operands, -⟩ | ⟨e, s', ran⟩
  · refine ⟨fun id g' s'' answered => ?_, fun e g' s'' failed => ?_⟩
    · cases ran.symm.trans answered
      exact ⟨size_push g n, fun room => Nat.mod_eq_of_lt room,
        fun c older => node?_push_of_lt g n older, n, node?_push_self g n, operands⟩
    · cases ran.symm.trans failed
  · refine ⟨fun id g' s'' answered => ?_, fun e' g' s'' failed => ?_⟩
    · cases ran.symm.trans answered
    · cases ran.symm.trans failed
      rfl

/-- Of eight requests three are answered: an unknown operand, a wrong number of operands, shapes that do not
fit, a matrix that is not square and an unknown kind of backend are refused. -/
example :
    let attempt (r : NodeRequest Int (Store Int (BuiltIn Int) Unit)) : NodeAttempt Int (BuiltIn Int) Unit :=
      ⟨.builtIn id, ⟨#[], ()⟩, r⟩
    (after [attempt (.symbol "A" (2, 2)), attempt (.constant (.fill (2, 1) 1)),
      attempt (.binary .add ⟨0⟩ ⟨7⟩), attempt (.apply Primitive.sum.operation [⟨0⟩, ⟨1⟩]),
      attempt (.binary .add ⟨0⟩ ⟨1⟩), attempt (.solve ⟨1⟩ ⟨1⟩ "lu" false),
      attempt (.solve ⟨0⟩ ⟨1⟩ "ul" false), attempt (.solve ⟨0⟩ ⟨1⟩ "lu" false)]).size = 3 := by
  decide +kernel

end Graph

end Histories

end Cotangent
