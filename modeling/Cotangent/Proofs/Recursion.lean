import Cotangent.Proofs.Arena

/-! The meaning of a graph by recursion over its nodes, without a plan. A rule says what a node
makes of what its operands have; the value of a node and its sensitivity along a direction are two
rules. As operands are older than their node, the recursion ends, and it fails exactly when the rule
fails at a node that is reached. -/
namespace Cotangent.Graph

variable {α σ β : Type}

/-- What a rule gives for a node, operands first. -/
def recurse (g : Graph α σ) (rule : NodeId → Node α σ → List β → Except Error β) (id : NodeId) :
    Except Error β :=
  match g.node? id with
  | none => .error (.graph (.unknownNode id))
  | some n => do
    let xs ← n.children.mapM fun c =>
      if _older : c.index < id.index then recurse g rule c else .error (.graph (.unknownNode c))
    rule id n xs
termination_by id.index

variable {g : Graph α σ} {rule : NodeId → Node α σ → List β → Except Error β} {id : NodeId}

theorem recurse_eq (sound : g.Sound) {n : Node α σ} (known : g.node? id = some n) :
    g.recurse rule id = n.children.mapM (g.recurse rule) >>= rule id n := by
  rw [recurse, known]
  refine congrArg (· >>= rule id n) (Outcome.mapM_congr fun c member => ?_)
  rw [dif_pos ((sound id n known).child_lt c member)]

/-- Rules that agree on all nodes below give the same. -/
theorem recurse_congr {rule' : NodeId → Node α σ → List β → Except Error β} (sound : g.Sound)
    (same : ∀ c n xs, g.Reaches id c → g.node? c = some n → rule c n xs = rule' c n xs) :
    g.recurse rule id = g.recurse rule' id := by
  induction h : id.index using Nat.strongRecOn generalizing id with
  | _ k ih =>
    cases known : g.node? id with
    | none => rw [recurse, recurse, known]
    | some n =>
      have operands : n.children.mapM (g.recurse rule) = n.children.mapM (g.recurse rule') :=
        Outcome.mapM_congr fun c member => ih c.index (h ▸ (sound id n known).child_lt c member)
          (fun d m xs path => same d m xs (.head ⟨n, known, member⟩ path)) rfl
      rw [recurse_eq sound known, recurse_eq sound known, operands]
      exact congrArg _ (funext fun xs => same id n xs .refl known)

/-- The matrix supplied for a declared input. -/
def supplied (inputs : List NodeId) (xs : List (DenseMatrix α)) (id : NodeId) :
    Option (DenseMatrix α) :=
  xs[inputs.idxOf id]?

/-- What is supplied for a symbol. A symbol without supply is a free variable. -/
def required (supply : NodeId → Option (DenseMatrix α)) (name : String) (id : NodeId) :
    Except Error (DenseMatrix α) :=
  match supply id with
  | some m => .ok m
  | none => .error (.graph (.freeVariable name id))

theorem required_eq_ok {supply : NodeId → Option (DenseMatrix α)} {name : String} {id : NodeId}
    {m : DenseMatrix α} : required supply name id = .ok m ↔ supply id = some m := by
  unfold required
  cases supply id <;> simp

/-- The value of a node from those of its operands: an input has the supplied matrix, a constant its
own, and an application what its operation answers, if that has the shape of the node. -/
def valueRule (w : σ) (given : NodeId → Option (DenseMatrix α)) (id : NodeId) (n : Node α σ)
    (xs : List (DenseMatrix α)) : Except Error (DenseMatrix α) :=
  match n.kind with
  | .symbol name => required given name id
  | .constant m => .ok m
  | .apply op => do
    let m ← (op.evaluate xs w).1
    m.checkShape n.shape
    return m

/-- The value of a node by recursion, with operations called in a state. -/
def value (g : Graph α σ) (w : σ) (given : NodeId → Option (DenseMatrix α)) :
    NodeId → Except Error (DenseMatrix α) :=
  g.recurse (valueRule w given)

variable [Scalar α]

/-- The sensitivity of a node from those of its operands: an input has the supplied one, a constant
none, and an application what its operation answers for the values and sensitivities of its operands
and its own value, if that has the shape of the node. -/
def tangentRule (g : Graph α σ) (w : σ) (given seed : NodeId → Option (DenseMatrix α)) (id : NodeId)
    (n : Node α σ) (ts : List (DenseMatrix α)) : Except Error (DenseMatrix α) :=
  match n.kind with
  | .symbol name => required seed name id
  | .constant _ => .ok (.fill n.shape 0)
  | .apply op => do
    let xs ← n.children.mapM (g.value w given)
    let y ← g.value w given id
    let t ← (op.forward xs y ts w).1
    t.checkShape n.shape
    return t

/-- The sensitivity of a node along a direction by recursion. -/
def tangent (g : Graph α σ) (w : σ) (given seed : NodeId → Option (DenseMatrix α)) :
    NodeId → Except Error (DenseMatrix α) :=
  g.recurse (g.tangentRule w given seed)

end Cotangent.Graph
