import Mathlib.Logic.Relation
import Cotangent.Proofs.SolveRecords

/-! When a solve operation factorizes. A request with directions that fit is one solve with the matrix
that it is asked with, unless it asks for nothing or for more columns than a size can count. So the calls
that the backend receives for it can be told from the record of the earlier ones. -/
namespace Cotangent

open Relation

variable {α β γ ω : Type}

/-! ### Requests -/

namespace Operation.Request

/-- The operands of a request. -/
def operands : Request α → List (DenseMatrix α)
  | .evaluate xs | .forward xs _ _ | .adjoint xs _ _ | .forwardBatch xs _ _ | .adjointBatch xs _ _ => xs

/-- How many results are asked for: one for each direction of a batch. -/
def count : Request α → Nat
  | .evaluate _ | .forward .. | .adjoint .. => 1
  | .forwardBatch _ _ seeds => seeds.length
  | .adjointBatch _ _ seeds => seeds.length

/-- The arguments have the shapes of the operands and of the result. -/
def Fits (shapes : List Shape) (shape : Shape) : Request α → Prop
  | .evaluate xs => xs.map (·.shape) = shapes
  | .forward xs y seeds =>
    xs.map (·.shape) = shapes ∧ y.shape = shape ∧ seeds.map (·.shape) = shapes
  | .adjoint xs y seed => xs.map (·.shape) = shapes ∧ y.shape = shape ∧ seed.shape = shape
  | .forwardBatch xs y seeds => xs.map (·.shape) = shapes ∧ y.shape = shape ∧
    ∀ direction ∈ seeds, direction.map (·.shape) = shapes
  | .adjointBatch xs y seeds => xs.map (·.shape) = shapes ∧ y.shape = shape ∧
    ∀ seed ∈ seeds, seed.shape = shape

theorem Fits.operands {shapes : List Shape} {shape : Shape} {r : Request α} (fits : r.Fits shapes shape) :
    r.operands.map (·.shape) = shapes := by
  cases r with
  | evaluate => exact fits
  | _ => exact fits.1

end Operation.Request

/-! ### One solve -/

namespace Solve

open Received

variable [Scalar α] [Backend α ω β] {op : Solve} {s t : Store α (Recorded β) (List (Received α) × ω)}

/-- What comes of a computation that is one solve for so many blocks of a width, or none. -/
inductive Solving (op : Solve) (a : DenseMatrix α) (width count : Nat)
    (s : Store α (Recorded β) (List (Received α) × ω)) :
    Except Error γ × Store α (Recorded β) (List (Received α) × ω) → Prop where
  | nothing {outcome : Except Error γ} (none : count = 0) : Solving op a width count s (outcome, s)
  | crowded (some : count ≠ 0) (many : sizeLimit ≤ count * width) :
      Solving op a width count s (.error .sizeOverflow, s)
  | solve {outcome : Except Error γ} (some : count ≠ 0) (few : count * width < sizeLimit)
      (rhs : DenseMatrix α) (opposite : Bool)
      (shape : rhs.shape = (op.pattern.nrows, count * width)) :
      Solving op a width count s (outcome, (op.solveWith a rhs opposite s).2)

section Solving

variable {a b y : DenseMatrix α} {width count : Nat} {shape : Shape} {xs : List (DenseMatrix α)}

theorem Solving.last {δ : Type} {act : Run (Store α (Recorded β) (List (Received α) × ω)) γ}
    (solving : op.Solving a width count s (act s)) (f : γ → Except Error δ) :
    op.Solving a width count s ((act >>= fun x => Run.ofExcept (f x)) s) := by
  have after := Run.after_last act f s
  rw [Run.bind_apply] at after ⊢
  generalize act s = ran at solving after ⊢
  cases solving with
  | @nothing outcome none => cases outcome <;> exact .nothing none
  | crowded some many => exact .crowded some many
  | @solve outcome some few rhs opposite shape =>
    cases outcome <;> exact .solve some few rhs opposite shape

/-- Blocks side by side are one solve. -/
theorem solving_sideBySide {blocks : List (DenseMatrix α)} (rows : shape.1 = op.pattern.nrows)
    (sized : shape.Sized) (more : blocks ≠ []) (shapes : ∀ b ∈ blocks, b.shape = shape)
    (opposite : Bool) (next : DenseMatrix α → Except Error γ) :
    op.Solving a shape.2 blocks.length s ((do
      let rhs ← Run.ofExcept (DenseMatrix.hcat blocks)
      let x ← op.solveWith (← Run.ofExcept (elementAt [a, b] 0)) rhs opposite
      Run.ofExcept (next x) : Run _ _) s) := by
  have split : shape = (op.pattern.nrows, shape.2) := Prod.ext rows rfl
  have some : blocks.length ≠ 0 := fun none => more (List.eq_nil_of_length_eq_zero none)
  rcases DenseMatrix.hcat_cases more sized.columns fun b member => (shapes b member).trans split with
    ⟨rhs, joined, whole, small⟩ | ⟨refused, large⟩
  · rw [joined]
    have solving : op.Solving a shape.2 blocks.length s (op.solveWith a rhs opposite s) :=
      .solve some small rhs opposite whole
    exact solving.last next
  · rw [refused]
    exact .crowded some large

theorem solving_forwardBatch (square : op.pattern.ncols = op.pattern.nrows)
    (rows : shape.1 = op.pattern.nrows) (sized : shape.Sized) (result : y.shape = shape)
    {seeds : List (List (DenseMatrix α))} (seeding : ∀ direction ∈ seeds,
      direction.map (·.shape) = [(op.pattern.nrows, op.pattern.nrows), shape]) :
    op.Solving a shape.2 seeds.length s (op.forwardBatch [a, b] y seeds s) := by
  by_cases nothing : seeds = []
  · subst nothing
    exact .nothing rfl
  have asked : seeds.isEmpty = false := by simpa using nothing
  have each (direction) (along : direction ∈ seeds) :=
    exists_direction square rows sized result (seeding direction along)
  obtain ⟨blocks, computed, length, shapes⟩ := Outcome.exists_mapM each
  have more : blocks ≠ [] := by
    rintro rfl
    exact nothing (List.eq_nil_of_length_eq_zero length.symm)
  have solving := solving_sideBySide (s := s) (a := a) (b := b) rows sized more shapes false
    fun x => split x y.ncols seeds.length
  change op.Solving a shape.2 seeds.length s
    ((if seeds.isEmpty = true then _ else _ : Run (Store α (Recorded β) _) _) s)
  rw [asked, if_neg Bool.false_ne_true, computed]
  exact length ▸ solving

theorem solving_adjointBatch (rows : shape.1 = op.pattern.nrows) (sized : shape.Sized)
    {seeds : List (DenseMatrix α)} (seeding : ∀ seed ∈ seeds, seed.shape = shape) :
    op.Solving a shape.2 seeds.length s (op.adjointBatch [a, b] y seeds s) := by
  by_cases nothing : seeds = []
  · subst nothing
    exact .nothing rfl
  have asked : seeds.isEmpty = false := by simpa using nothing
  change op.Solving a shape.2 seeds.length s
    ((if seeds.isEmpty = true then _ else _ : Run (Store α (Recorded β) _) _) s)
  rw [asked, if_neg Bool.false_ne_true]
  exact solving_sideBySide rows sized nothing seeding true _

/-- A request whose arguments fit is one solve, unless it asks for nothing or for too much. -/
theorem solving_ask (square : op.pattern.ncols = op.pattern.nrows) (rows : shape.1 = op.pattern.nrows)
    (sized : shape.Sized) {r : Operation.Request α} (operands : r.operands = [a, b])
    (fits : r.Fits [(op.pattern.nrows, op.pattern.nrows), shape] shape) :
    op.Solving a shape.2 r.count s (op.operation.ask r s) := by
  have form {γ δ : Type} {count : Nat} (form : γ → δ)
      {act : Run (Store α (Recorded β) (List (Received α) × ω)) γ}
      (solving : op.Solving a shape.2 count s (act s)) :
      op.Solving a shape.2 count s ((form <$> act) s) := solving.last fun x => .ok (form x)
  have single {γ : Type} {x y : γ} {P : γ → Prop} (holds : P x) (member : y ∈ [x]) : P y :=
    List.mem_singleton.mp member ▸ holds
  cases r with
  | evaluate xs =>
    obtain rfl : xs = [a, b] := operands
    obtain ⟨_, _, same, -, whole⟩ := eq_two_of_shapes fits
    cases same
    have one : 1 * shape.2 = shape.2 := Nat.one_mul _
    have solving : op.Solving a shape.2 1 s (op.evaluate [a, b] s) :=
      .solve one_ne_zero (one.symm ▸ sized.columns) b false (whole.trans (Prod.ext rows one.symm))
    exact form _ solving
  | forward xs y seeds =>
    obtain rfl : xs = [a, b] := operands
    exact form _ ((solving_forwardBatch square rows sized fits.2.1 fun direction along =>
      single (P := fun d => d.map (·.shape) = _) fits.2.2 along).last _)
  | adjoint xs y seed =>
    obtain rfl : xs = [a, b] := operands
    exact form _ ((solving_adjointBatch rows sized fun direction along =>
      single (P := fun d => d.shape = shape) fits.2.2 along).last _)
  | forwardBatch xs y seeds =>
    obtain rfl : xs = [a, b] := operands
    exact form _ (solving_forwardBatch square rows sized fits.2.1 fits.2.2)
  | adjointBatch xs y seeds =>
    obtain rfl : xs = [a, b] := operands
    exact form _ (solving_adjointBatch rows sized fits.2.2)

end Solving

/-! ### Histories -/

/-- What may happen: a request of the operation with any arguments, or anything else that leaves its
cell alone and makes no call of its backend. -/
inductive Step (op : Solve) (s : Store α (Recorded β) (List (Received α) × ω)) :
    Store α (Recorded β) (List (Received α) × ω) → Prop where
  | ask (r : Operation.Request α) : Step op s (op.operation.ask r s).2
  | elsewhere {t : Store α (Recorded β) (List (Received α) × ω)}
      (cell : t.cells[op.cell]? = s.cells[op.cell]?) (record : t.world.1 = s.world.1) : Step op s t

theorem Logged.step (logged : op.Logged s) (step : op.Step s t) : op.Logged t := by
  cases step with
  | ask r => exact logged.ask r
  | elsewhere cell record =>
    obtain ⟨c, held, here⟩ := logged
    exact ⟨c, cell.trans held, record.symm ▸ here⟩

theorem Logged.later (logged : op.Logged s) (later : ReflTransGen op.Step s t) : op.Logged t := by
  induction later with
  | refl => exact logged
  | tail _ step ih => exact ih.step step

/-- A solve operation factorizes when it must. After any history a request that fits makes the calls that
the record of the earlier ones asks for: an attempt at factors unless the current ones are of equal values,
with an analysis first if none has succeeded, and then the solve. A batch of no directions makes no calls,
and neither does one with more columns than a size can count. The record itself changes nothing. -/
theorem factorizes_when_needed {catalogue : Catalogue α (Recorded β)} {plugin : String}
    {pattern : Pattern} {transposed : Bool} {s₀ s₁ : Store α (Recorded β) (List (Received α) × ω)}
    (created : Solve.create catalogue plugin pattern transposed s₀ = .ok (op, s₁))
    (fresh : s₀.world.1 = []) (later : ReflTransGen op.Step s₁ s) {shapes : List Shape} {shape : Shape}
    (promised : op.outputShape shapes = .ok shape) (sized : shape.Sized)
    {r : Operation.Request α} (fits : r.Fits shapes shape) :
    ∃ a m, r.operands.head? = some a ∧ SparseMatrix.project a pattern = .ok m ∧
      (r.count = 0 → (op.operation.ask r s).2 = s) ∧
      (r.count ≠ 0 → sizeLimit ≤ r.count * shape.2 →
        op.operation.ask r s = (.error .sizeOverflow, s)) ∧
      (r.count ≠ 0 → r.count * shape.2 < sizeLimit →
        Extends pattern m.values (r.count * shape.2) s.world.1 (op.operation.ask r s).2.world.1) ∧
      op.operation.ask r s.plain = ((op.operation.ask r s).1, (op.operation.ask r s).2.plain) := by
  have logged := (logged_create created fresh).later later
  obtain ⟨square, same, -⟩ := create_cases created
  obtain rfl : op.pattern = pattern := congrArg Solve.pattern same
  obtain ⟨rfl, rows⟩ := outputShape_eq_ok promised
  obtain ⟨a, b, operands, first, -⟩ := eq_two_of_shapes fits.operands
  obtain ⟨m, projected, -⟩ := exists_project square first
  refine ⟨a, m, by rw [operands]; rfl, projected, ?_⟩
  have noted : op.operation.ask r s.plain = _ := mirrors_ask r s
  have solving := solving_ask (s := s) square rows sized operands fits
  simp only [noted, and_true]
  generalize op.operation.ask r s = ran at solving ⊢
  cases solving with
  | nothing none => exact ⟨fun _ => rfl, fun some => absurd none some, fun some => absurd none some⟩
  | crowded some many =>
    exact ⟨fun none => absurd none some, fun _ _ => rfl, fun _ few => absurd many (Nat.not_le.mpr few)⟩
  | solve some few rhs opposite shape =>
    obtain ⟨order, columns⟩ := Prod.mk.inj shape
    refine ⟨fun none => absurd none some, fun _ many => absurd many (Nat.not_le.mpr few), fun _ _ => ?_⟩
    exact columns ▸ (logged.solveWith a rhs opposite).2 m projected order

/-- The first matrix is refused after its pattern is analysed, so the second one is not analysed. -/
theorem factorizes_when_needed_retry :
    ∃ (op : Solve) (s₁ s : Store Int (Recorded (BuiltIn Int)) (List (Received Int) × Unit)),
      Solve.create (.builtIn Recorded.mk) "lu" (.dense 1 1) false ⟨#[], [], ()⟩ = .ok (op, s₁) ∧
      s = (op.operation.ask (.evaluate [.scalar 0, .scalar 1]) s₁).2 ∧
      s.world.1 = [.numeric (.dense 1 1) #[0] false, .symbolic (.dense 1 1) true] ∧
      Extends (.dense 1 1) #[1] 1 s.world.1
        (op.operation.ask (.evaluate [.scalar 1, .scalar 7]) s).2.world.1 ∧
      (op.operation.ask (.evaluate [.scalar 1, .scalar 7]) s).2.world.1 =
        .solve 1 1 :: .numeric (.dense 1 1) #[1] true :: s.world.1 := by
  have created : Solve.create (.builtIn Recorded.mk : Catalogue Int (Recorded (BuiltIn Int))) "lu"
      (.dense 1 1) false (⟨#[], [], ()⟩ : Store Int _ (List (Received Int) × Unit)) = .ok (_, _) := rfl
  have promised : (⟨0, .dense 1 1, false⟩ : Solve).outputShape [(1, 1), (1, 1)] = .ok (1, 1) := rfl
  refine ⟨_, _, _, created, rfl, ?_, ?_, ?_⟩
  · decide +kernel
  · obtain ⟨a, m, first, projected, -, -, noted, -⟩ := factorizes_when_needed created rfl
      (.tail .refl (.ask (.evaluate [.scalar 0, .scalar 1]))) promised
      ⟨⟨by decide, by decide⟩, by decide⟩ (r := .evaluate [.scalar 1, .scalar 7]) rfl
    cases first
    cases projected
    exact noted (by decide) (by decide)
  · decide +kernel

/-- `2 ^ 24` directions of a system without equations, of `2 ^ 40` columns each. There are no factors yet,
and no attempt is made at them. -/
theorem crowded_batch_factorizes_nothing :
    ∃ (op : Solve) (s₀ s : Store Int (Recorded (BuiltIn Int)) (List (Received Int) × Unit))
      (shape : Shape) (r : Operation.Request Int),
      Solve.create (.builtIn Recorded.mk) "lu" (.dense 0 0) false s₀ = .ok (op, s) ∧ s₀.world.1 = [] ∧
        op.outputShape [(0, 0), shape] = .ok shape ∧ shape.Sized ∧ r.Fits [(0, 0), shape] shape ∧
        r.count = 16777216 ∧ isCurrent #[] s.world.1 = false ∧ (op.operation.ask r s).2.world.1 = [] ∧
        (op.operation.ask r s).1 = .error .sizeOverflow := by
  let shape : Shape := (0, 1099511627776)
  let columns : DenseMatrix Int := ⟨0, 1099511627776, #[], rfl⟩
  let seeds := List.replicate 16777216 [.empty, columns]
  have sized : shape.Sized := ⟨⟨by decide, by decide⟩, by decide⟩
  have length : seeds.length = 16777216 := List.length_replicate
  have seeding (direction) (along : direction ∈ seeds) :
      direction.map (·.shape) = [(0, 0), shape] := by
    rw [List.eq_of_mem_replicate along]
    rfl
  have many : sizeLimit ≤ seeds.length * shape.2 := by
    rw [length]
    decide
  let op : Solve := ⟨0, .dense 0 0, false⟩
  have crowded (s : Store Int (Recorded (BuiltIn Int)) (List (Received Int) × Unit)) :
      op.operation.ask (.forwardBatch [.empty, columns] columns seeds) s = (.error .sizeOverflow, s) := by
    have refused : op.operation.forwardBatch [.empty, columns] columns seeds s =
        (.error .sizeOverflow, s) := forwardBatch_of_crowded rfl rfl sized rfl rfl seeding many
    rw [Operation.ask, Run.map_apply, refused]
    rfl
  refine ⟨op, ⟨#[], [], ()⟩, _, shape, .forwardBatch [.empty, columns] columns seeds, rfl, rfl, rfl, sized,
    ⟨rfl, rfl, seeding⟩, length, rfl, ?_, ?_⟩
  · rw [crowded]
  · rw [crowded]

end Solve

end Cotangent
