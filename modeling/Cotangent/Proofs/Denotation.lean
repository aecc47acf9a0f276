import Cotangent.Proofs.Directions
import Cotangent.Proofs.SolveMotions

/-! What a graph denotes over the real numbers, told without plans, stores or factorizations. An
elementary operation denotes what it computes in exact arithmetic and a solve operation the only
solution of its system. Where the backends of the solve operations take any invertible matrix, a value
that a graph has is the one that it denotes. -/
namespace Cotangent

/-! ### Operators -/

/-- The operations that need no solver. -/
inductive Elementary where
  | unary (k : UnaryKind)
  | binary (k : BinaryKind)
  | matmul
  | transpose
  | sum

/-- The operations of the library by what they are. -/
inductive Operator where
  | elementary (e : Elementary)
  | solve (op : Solve)

namespace Elementary

def primitive {α : Type} [Scalar α] : Elementary → Primitive α
  | unary k => k.primitive
  | binary k => k.primitive
  | matmul => .matmul
  | transpose => .transpose
  | sum => .sum

/-- Where the operation has its derivative. -/
def Regular : Elementary → List (DenseMatrix ℝ) → Prop
  | unary k => k.RegularOperands
  | binary k => k.RegularOperands
  | _ => fun _ => True

theorem differentiates (e : Elementary) :
    (e.primitive : Primitive ℝ).Differentiates e.Regular := by
  cases e with
  | unary k => exact k.differentiates
  | binary k => exact k.differentiates
  | matmul => exact Primitive.matmul_differentiates
  | transpose => exact Primitive.transpose_differentiates
  | sum => exact Primitive.sum_differentiates

end Elementary

namespace Operator

variable {ω : Type} {s : Store ℝ (BuiltIn ℝ) ω} {xs : List (DenseMatrix ℝ)} {y : DenseMatrix ℝ}

/-- The operation as nodes apply it. -/
def operation {α : Type} [Scalar α] : Operator → Operation α (Store α (BuiltIn α) ω)
  | elementary e => e.primitive.operation
  | solve op => op.operation

/-- What an operator makes of its operands. -/
def Means : Operator → List (DenseMatrix ℝ) → DenseMatrix ℝ → Prop
  | elementary e, xs, y => e.primitive.evaluate xs = .ok y
  | solve op, xs, y => ∃ a b, xs = [a, b] ∧ op.Exact a b y

/-- Where the operator has its derivative. A system that is solved is regular. -/
def Regular : Operator → List (DenseMatrix ℝ) → Prop
  | elementary e => e.Regular
  | solve _ => fun _ => True

/-- A solve operator whose backend takes any invertible matrix. -/
def General (s : Store ℝ (BuiltIn ℝ) ω) : Operator → Prop
  | elementary _ => True
  | solve op => op.General s

theorem Means.unique {o : Operator} {y' : DenseMatrix ℝ} (first : o.Means xs y)
    (second : o.Means xs y') : y = y' := by
  cases o with
  | elementary e => exact Except.ok.inj (first.symm.trans second)
  | solve op =>
    obtain ⟨a, b, rfl, solution, -⟩ := first
    obtain ⟨a', b', same, -, unique⟩ := second
    cases same
    exact unique y solution

/-- What an operation answers is what its operator makes of the operands. -/
theorem means_of_evaluate (faithful : s.Faithful) {o : Operator} (general : o.General s)
    (evaluated : (o.operation.evaluate xs s).1 = .ok y) : o.Means xs y := by
  cases o with
  | elementary e => exact evaluated
  | solve op =>
    obtain ⟨a, b, rfl, solution, invertible⟩ := Solve.evaluate_solution faithful general evaluated
    exact ⟨a, b, rfl, solution.exact invertible⟩

end Operator

/-! ### Graphs -/

/-- What matches the same list is the same, if every element determines its match. -/
theorem eq_of_forall₂ {β γ : Type} {R S : β → γ → Prop} {cs : List β} {xs ys : List γ}
    (first : List.Forall₂ R cs xs) (second : List.Forall₂ S cs ys)
    (unique : ∀ c ∈ cs, ∀ x y, R c x → S c y → x = y) : xs = ys := by
  induction first generalizing ys with
  | nil =>
    cases second
    rfl
  | cons here _ ih =>
    cases second with
    | cons here' rest' =>
      rw [unique _ List.mem_cons_self _ _ here here',
        ih rest' fun c member => unique c (List.mem_cons_of_mem _ member)]

namespace Graph

section Denotes

variable {σ : Type}

/-- What a node denotes when an operator is known for every application: what is supplied for a
symbol, the matrix of a constant, and what its operator makes of what the operands denote. -/
inductive Denotes (g : Graph ℝ σ) (label : NodeId → Operator)
    (given : NodeId → Option (DenseMatrix ℝ)) : NodeId → DenseMatrix ℝ → Prop
  | symbol {id : NodeId} {n : Node ℝ σ} {name : String} {m : DenseMatrix ℝ}
      (known : g.node? id = some n) (kind : n.kind = .symbol name) (supplied : given id = some m) :
      Denotes g label given id m
  | constant {id : NodeId} {n : Node ℝ σ} {m : DenseMatrix ℝ}
      (known : g.node? id = some n) (kind : n.kind = .constant m) : Denotes g label given id m
  | apply {id : NodeId} {n : Node ℝ σ} {op : Operation ℝ σ} {xs : List (DenseMatrix ℝ)}
      {y : DenseMatrix ℝ} (known : g.node? id = some n) (kind : n.kind = .apply op)
      (operands : List.Forall₂ (Denotes g label given) n.children xs)
      (result : (label id).Means xs y) : Denotes g label given id y

variable {g : Graph ℝ σ} {label : NodeId → Operator} {given : NodeId → Option (DenseMatrix ℝ)}
  {id : NodeId} {y y' : DenseMatrix ℝ}

/-- A symbol denotes what is supplied for it. -/
theorem Denotes.supplied {n : Node ℝ σ} {name : String} (denotes : g.Denotes label given id y)
    (known : g.node? id = some n) (kind : n.kind = .symbol name) : given id = some y := by
  cases denotes with
  | symbol _ _ supplied => exact supplied
  | constant known' kind' | apply known' kind' =>
    cases known.symm.trans known'
    cases kind.symm.trans kind'

/-- A node denotes one matrix at most. -/
theorem Denotes.unique (sound : g.Sound) (first : g.Denotes label given id y)
    (second : g.Denotes label given id y') : y = y' := by
  induction h : id.index using Nat.strongRecOn generalizing id y y' with
  | _ k ih =>
    cases first with
    | symbol known kind supplied =>
      cases second with
      | symbol _ _ supplied' => exact Option.some.inj (supplied.symm.trans supplied')
      | constant known' kind' | apply known' kind' =>
        cases known.symm.trans known'
        cases kind.symm.trans kind'
    | constant known kind =>
      cases second with
      | constant known' kind' =>
        cases known.symm.trans known'
        cases kind.symm.trans kind'
        rfl
      | symbol known' kind' | apply known' kind' =>
        cases known.symm.trans known'
        cases kind.symm.trans kind'
    | @apply _ n op xs _ known kind operands result =>
      cases second with
      | @apply _ n' op' xs' _ known' kind' operands' result' =>
        cases known.symm.trans known'
        obtain rfl : xs = xs' := eq_of_forall₂ operands operands' fun c member x x' here here' =>
          ih c.index (h ▸ (sound id n known).child_lt c member) here here' rfl
        exact result.unique result'
      | symbol known' kind' | constant known' kind' =>
        cases known.symm.trans known'
        cases kind.symm.trans kind'

end Denotes

section Stores

variable {ω : Type} {g : Graph ℝ (Store ℝ (BuiltIn ℝ) ω)} {label : NodeId → Operator}
  {s : Store ℝ (BuiltIn ℝ) ω} {outputs : List NodeId} {given : NodeId → Option (DenseMatrix ℝ)}
  {id : NodeId} {y : DenseMatrix ℝ}

/-- Every application that some output needs is known as an operator, and its backend, if it has one,
takes any invertible matrix. -/
structure Spelled (g : Graph ℝ (Store ℝ (BuiltIn ℝ) ω)) (label : NodeId → Operator)
    (outputs : List NodeId) (s : Store ℝ (BuiltIn ℝ) ω) : Prop where
  operation : ∀ id n op, g.Applied outputs id n op → op = (label id).operation
  general : ∀ id n op, g.Applied outputs id n op → (label id).General s

/-- The value of a node is what it denotes. -/
theorem denotes_of_value (sound : g.Sound) (faithful : s.Faithful)
    (spelled : g.Spelled label outputs s) (needed : ∃ o ∈ outputs, g.Reaches o id)
    (defined : g.value s given id = .ok y) : g.Denotes label given id y := by
  induction h : id.index using Nat.strongRecOn generalizing id y with
  | _ k ih =>
    obtain ⟨n, known, xs, operands, answered⟩ := (recurse_eq_ok sound).mp defined
    cases kind : n.kind with
    | symbol name =>
      simp only [valueRule, kind] at answered
      exact .symbol known kind (required_eq_ok.mp answered)
    | constant m =>
      simp only [valueRule, kind] at answered
      cases answered
      exact .constant known kind
    | apply op =>
      obtain ⟨o, output, path⟩ := needed
      have applied : g.Applied outputs id n op := ⟨⟨o, output, path⟩, known, kind⟩
      obtain ⟨evaluated, -⟩ := (valueRule_apply kind).mp answered
      have each := (List.forall₂_and_left _ _).mpr ⟨fun c member => member, Outcome.mapM_eq_ok.mp operands⟩
      refine .apply known kind (each.imp fun c x here => ?_) ?_
      · exact ih c.index (h ▸ (sound id n known).child_lt c here.1)
          ⟨o, output, path.tail ⟨n, known, here.1⟩⟩ here.2 rfl
      · obtain rfl := spelled.operation id n op applied
        exact Operator.means_of_evaluate faithful (spelled.general id n _ applied) evaluated

end Stores

end Graph

end Cotangent
