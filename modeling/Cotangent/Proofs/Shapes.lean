import Cotangent.Expression.Graph
import Cotangent.Proofs.Cells

/-! Shapes of results. An operation promises a shape before it sees a number. It keeps the promise
when, on operands of the promised shapes, its value and its sensitivities have the shape of the
result and every contribution has that of its operand. A primitive keeps it without ever failing,
since what its rule for shapes accepts is what its arithmetic accepts, a one by one operand and a
matrix without entries included. -/
namespace Cotangent

variable {α σ : Type}

/-- Both numbers of a shape are sizes. -/
structure Shape.Small (s : Shape) : Prop where
  rows : s.1 < sizeLimit
  columns : s.2 < sizeLimit

/-- A shape that a matrix can have: there is also room for the entries. -/
structure Shape.Sized (s : Shape) : Prop extends s.Small where
  room : s.elements < wordLimit

/-- Contributions with the shapes of the operands, where there are contributions. -/
def Contributes (contributions : List (Option (DenseMatrix α))) (shapes : List Shape) : Prop :=
  List.Forall₂ (fun c s => ∀ m, c = some m → m.shape = s) contributions shapes

/-- What an operation answers for operands of given shapes in states that satisfy an invariant: a
result of the promised shape, sensitivities of that shape, contributions of the operands' shapes,
all of them for every direction asked for. It may refuse with certain errors, which depend on the
number of directions. -/
structure Operation.Shaped (inv : σ → Prop) (op : Operation α σ) (shapes : List Shape)
    (shape : Shape) (refuses : Nat → Error → Prop) : Prop where
  evaluate : ∀ xs w, xs.map (·.shape) = shapes → inv w →
    Run.Post (op.evaluate xs) w (fun y w => y.shape = shape ∧ inv w)
      (fun e w => refuses 0 e ∧ inv w)
  forward : ∀ xs y seeds w, xs.map (·.shape) = shapes → y.shape = shape →
    seeds.map (·.shape) = shapes → inv w →
    Run.Post (op.forward xs y seeds) w (fun m w => m.shape = shape ∧ inv w)
      (fun e w => refuses 1 e ∧ inv w)
  adjoint : ∀ xs y seed w, xs.map (·.shape) = shapes → y.shape = shape → seed.shape = shape →
    inv w →
    Run.Post (op.adjoint xs y seed) w (fun cs w => Contributes cs shapes ∧ inv w)
      (fun e w => refuses 1 e ∧ inv w)
  forwardBatch : ∀ xs y seeds w, xs.map (·.shape) = shapes → y.shape = shape →
    (∀ direction ∈ seeds, direction.map (·.shape) = shapes) → inv w →
    Run.Post (op.forwardBatch xs y seeds) w
      (fun ms w => (ms.length = seeds.length ∧ ∀ m ∈ ms, m.shape = shape) ∧ inv w)
      (fun e w => refuses seeds.length e ∧ inv w)
  adjointBatch : ∀ xs y seeds w, xs.map (·.shape) = shapes → y.shape = shape →
    (∀ seed ∈ seeds, seed.shape = shape) → inv w →
    Run.Post (op.adjointBatch xs y seeds) w
      (fun css w => (css.length = seeds.length ∧ ∀ cs ∈ css, Contributes cs shapes) ∧ inv w)
      (fun e w => refuses seeds.length e ∧ inv w)

/-- A computation for every member of a list that never fails and keeps an invariant. -/
theorem Run.Post.mapM {β γ : Type} {inv : σ → Prop} {Q : γ → Prop} {act : β → Run σ γ}
    {failed : Error → σ → Prop} {xs : List β} {w : σ} (hw : inv w)
    (step : ∀ x ∈ xs, ∀ w, inv w →
      Run.Post (act x) w (fun y w => Q y ∧ inv w) (fun _ _ => False)) :
    Run.Post (xs.mapM act) w (fun ys w => (ys.length = xs.length ∧ ∀ y ∈ ys, Q y) ∧ inv w)
      failed := by
  induction xs generalizing w with
  | nil => exact ⟨⟨rfl, nofun⟩, hw⟩
  | cons x xs ih =>
    rw [List.mapM_cons]
    refine Run.Post.bind_sure (step x List.mem_cons_self w hw) ?_
    rintro y w ⟨holds, hw⟩
    refine Run.Post.bind (ih hw fun x member => step x (List.mem_cons_of_mem _ member)) ?_
    rintro ys w ⟨⟨length, all⟩, hw⟩
    exact ⟨⟨by simp [length], List.forall_mem_cons.mpr ⟨holds, all⟩⟩, hw⟩

/-- A primitive that keeps the promise never fails on operands of the promised shapes. -/
structure Primitive.Shaped (p : Primitive α) (shapes : List Shape) (shape : Shape) : Prop where
  evaluate : ∀ xs, xs.map (·.shape) = shapes → ∃ y, p.evaluate xs = .ok y ∧ y.shape = shape
  forward : ∀ xs y seeds, xs.map (·.shape) = shapes → y.shape = shape →
    seeds.map (·.shape) = shapes → ∃ m, p.forward xs y seeds = .ok m ∧ m.shape = shape
  adjoint : ∀ xs y seed, xs.map (·.shape) = shapes → y.shape = shape → seed.shape = shape →
    ∃ cs, p.adjoint xs y seed = .ok cs ∧ Contributes cs shapes

theorem Run.Post.of_success {β : Type} {inv : σ → Prop} {Q : β → Prop} {outcome : Except Error β}
    {failed : Error → σ → Prop} {w : σ} (hw : inv w) (succeeds : ∃ x, outcome = .ok x ∧ Q x) :
    Run.Post (Run.ofExcept outcome) w (fun x w => Q x ∧ inv w) failed := by
  obtain ⟨x, rfl, holds⟩ := succeeds
  exact ⟨holds, hw⟩

theorem Primitive.Shaped.operation {p : Primitive α} {shapes : List Shape} {shape : Shape}
    (shaped : p.Shaped shapes shape) (inv : σ → Prop) (refuses : Nat → Error → Prop) :
    Operation.Shaped inv p.operation shapes shape refuses where
  evaluate xs _ fits hw := .of_success hw (shaped.evaluate xs fits)
  forward xs y seeds _ fits promised seeding hw :=
    .of_success hw (shaped.forward xs y seeds fits promised seeding)
  adjoint xs y seed _ fits promised seeding hw :=
    .of_success hw (shaped.adjoint xs y seed fits promised seeding)
  forwardBatch xs y _ _ fits promised seeding hw := .mapM hw fun direction along _ hw =>
    .of_success hw (shaped.forward xs y direction fits promised (seeding direction along))
  adjointBatch xs y _ _ fits promised seeding hw := .mapM hw fun seed along _ hw =>
    .of_success hw (shaped.adjoint xs y seed fits promised (seeding seed along))

/-! ### Shapes of arithmetic -/

theorem checkArity_eq_ok {name : String} {expected got : Nat} {u : Unit} :
    checkArity name expected got = .ok u ↔ expected = got := by
  unfold checkArity
  split <;> simp [*]

/-- A list of one or two operands is known from its shapes. -/
theorem eq_one_of_shapes {xs : List (DenseMatrix α)} {s : Shape} (fits : xs.map (·.shape) = [s]) :
    ∃ a, xs = [a] ∧ a.shape = s := by
  obtain ⟨a, rest, rfl, shape, nothing⟩ := List.map_eq_cons_iff.mp fits
  obtain rfl := List.map_eq_nil_iff.mp nothing
  exact ⟨a, rfl, shape⟩

theorem eq_two_of_shapes {xs : List (DenseMatrix α)} {s t : Shape}
    (fits : xs.map (·.shape) = [s, t]) : ∃ a b, xs = [a, b] ∧ a.shape = s ∧ b.shape = t := by
  obtain ⟨a, rest, rfl, first, others⟩ := List.map_eq_cons_iff.mp fits
  obtain ⟨b, rfl, second⟩ := eq_one_of_shapes others
  exact ⟨a, b, rfl, first, second⟩

theorem eq_one_of_length {β : Type} {xs : List β} (length : 1 = xs.length) : ∃ x, xs = [x] :=
  List.length_eq_one_iff.mp length.symm

theorem eq_two_of_length {β : Type} {xs : List β} (length : 2 = xs.length) : ∃ x y, xs = [x, y] :=
  List.length_eq_two.mp length.symm

namespace DenseMatrix

theorem scalar?_cases (m : DenseMatrix α) :
    (m.shape = (1, 1) ∧ ∃ x, m.scalar? = some x) ∨ (m.shape ≠ (1, 1) ∧ m.scalar? = none) := by
  by_cases one : m.shape = (1, 1)
  · refine .inl ⟨one, ?_⟩
    simp only [shape, Prod.mk.injEq] at one
    have size : 0 < m.data.size := by simp [m.size_data, one.1, one.2]
    exact ⟨m.data[0], by simp [scalar?, isScalar, one.1, one.2, Array.getElem?_eq_getElem size]⟩
  · refine .inr ⟨one, ?_⟩
    have large : m.isScalar = false := by
      simpa [isScalar, shape, Prod.ext_iff] using one
    simp [scalar?, large]

/-- What two shapes broadcast to: one of them, and each of them unless it is one by one. -/
theorem broadcastShape_eq_ok {a b s : Shape} : BinaryKind.broadcastShape a b = .ok s ↔
    (a = s ∨ b = s) ∧ (a = s ∨ a = (1, 1)) ∧ (b = s ∨ b = (1, 1)) := by
  unfold BinaryKind.broadcastShape
  split
  · simp only [Except.ok.injEq]
    grind
  · split
    · simp only [Except.ok.injEq]
      grind
    · simp only [reduceCtorEq, false_iff]
      grind

/-- The arithmetic on entries accepts the shapes that broadcast, and no others are promised. -/
theorem exists_zipMap (f : α → α → α) {a b : DenseMatrix α} {s : Shape}
    (fits : BinaryKind.broadcastShape a.shape b.shape = .ok s) :
    ∃ y, a.zipMap f b = .ok y ∧ y.shape = s := by
  obtain ⟨one, left, right⟩ := broadcastShape_eq_ok.mp fits
  unfold zipMap
  by_cases same : a.shape = b.shape
  · rw [dif_pos same]
    exact ⟨_, rfl, one.elim id fun h => same.trans h⟩
  · rw [dif_neg same]
    rcases a.scalar?_cases with ⟨scalar, x, read⟩ | ⟨large, read⟩
    · rw [read]
      exact ⟨_, rfl, right.elim id fun h => absurd (scalar.trans h.symm) same⟩
    · have whole := left.resolve_right large
      rcases b.scalar?_cases with ⟨scalar, y, read'⟩ | ⟨large', read'⟩
      · rw [read, read']
        exact ⟨_, rfl, whole⟩
      · exact absurd (whole.trans (right.resolve_right large').symm) same

/-- Entry by entry on one shape. -/
theorem exists_zipMap_same (f : α → α → α) {a b : DenseMatrix α} {s : Shape} (left : a.shape = s)
    (right : b.shape = s) : ∃ y, a.zipMap f b = .ok y ∧ y.shape = s :=
  exists_zipMap f (broadcastShape_eq_ok.mpr ⟨.inl left, .inl left, .inl right⟩)

theorem shape_reduceTo [Scalar α] {m : DenseMatrix α} {s target : Shape} (shape : m.shape = s)
    (fits : target = s ∨ target = (1, 1)) : (m.reduceTo target).shape = target := by
  unfold reduceTo
  split
  · assumption
  · next other => exact (fits.resolve_left fun h => other (shape.trans h.symm)).symm

theorem exists_accumulate [Scalar α] {a b : DenseMatrix α} {s : Shape} (left : a.shape = s)
    (right : b.shape = s) : ∃ y, a.accumulate b = .ok y ∧ y.shape = s := by
  rw [accumulate, dif_pos (right.trans left.symm)]
  exact ⟨_, rfl, left⟩

theorem exists_matmul [Scalar α] {a b : DenseMatrix α} {r k c : Nat} (left : a.shape = (r, k))
    (right : b.shape = (k, c)) (room : Shape.elements (r, c) < wordLimit) :
    ∃ y, a.matmul b = .ok y ∧ y.shape = (r, c) := by
  obtain ⟨rfl, rfl⟩ := Prod.mk.inj left
  obtain ⟨inner, rfl⟩ := Prod.mk.inj right
  have enough : checkRoom (a.nrows * b.ncols) = .ok () := checkRoom_eq_ok_iff.mpr room
  rw [matmul, if_pos inner.symm, enough]
  exact ⟨_, rfl, rfl⟩

/-- Whether there is room for a product depends on shapes only. -/
theorem exists_matmul_of_shapes [Scalar α] {a b a' b' y : DenseMatrix α} (product : a.matmul b = .ok y)
    (left : a'.shape = a.shape) (right : b'.shape = b.shape) :
    ∃ y', a'.matmul b' = .ok y' ∧ y'.shape = y.shape := by
  obtain ⟨rows, columns⟩ := Prod.mk.inj left
  obtain ⟨rows', columns'⟩ := Prod.mk.inj right
  unfold DenseMatrix.matmul at product ⊢
  split at product
  · next inner =>
    obtain ⟨_, room, rfl⟩ := Outcome.map_eq_ok.mp product
    rw [if_pos (by omega), rows, columns', room]
    exact ⟨_, rfl, rfl⟩
  · cases product

theorem shape_transpose [Zero α] {m : DenseMatrix α} {r c : Nat} (shape : m.shape = (r, c)) :
    m.transpose.shape = (c, r) := by
  obtain ⟨rfl, rfl⟩ := Prod.mk.inj shape
  rfl

end DenseMatrix

/-! ### Primitives -/

section Primitives

open DenseMatrix

variable {shapes : List Shape} {shape : Shape}

theorem contributes_one {m : DenseMatrix α} {s : Shape} (fits : m.shape = s) :
    Contributes [some m] [s] := by
  simpa [Contributes] using fits

theorem contributes_two {a b : DenseMatrix α} {s t : Shape} (first : a.shape = s)
    (second : b.shape = t) : Contributes [some a, some b] [s, t] := by
  simpa [Contributes] using ⟨first, second⟩

variable [Scalar α]

theorem UnaryKind.exists_chain (k : UnaryKind) {a y seed : DenseMatrix α} {s : Shape}
    (operand : a.shape = s) (result : y.shape = s) (along : seed.shape = s) :
    ∃ m, k.chain [a] y (.ok seed) = .ok m ∧ m.shape = s := by
  obtain ⟨slope, known, fits⟩ := exists_zipMap_same k.derivative operand result
  obtain ⟨m, product, fits⟩ := exists_zipMap_same (· * ·) fits along
  exact ⟨m, by simp [UnaryKind.chain, elementAt, known, product], fits⟩

theorem UnaryKind.shaped (k : UnaryKind)
    (promised : (k.primitive : Primitive α).outputShape shapes = .ok shape) :
    (k.primitive : Primitive α).Shaped shapes shape := by
  obtain ⟨_, arity, read⟩ := Outcome.bind_eq_ok.mp promised
  obtain ⟨s, rfl⟩ := eq_one_of_length (checkArity_eq_ok.mp arity)
  cases read
  refine ⟨fun xs fits => ?_, fun xs y seeds fits result along => ?_,
    fun xs y seed fits result along => ?_⟩
  · obtain ⟨a, rfl, operand⟩ := eq_one_of_shapes fits
    exact ⟨_, rfl, operand⟩
  · obtain ⟨a, rfl, operand⟩ := eq_one_of_shapes fits
    obtain ⟨seed, rfl, direction⟩ := eq_one_of_shapes along
    exact k.exists_chain operand result direction
  · obtain ⟨a, rfl, operand⟩ := eq_one_of_shapes fits
    obtain ⟨m, chained, shape⟩ := k.exists_chain operand result along
    exact ⟨[some m], by simp [UnaryKind.primitive, chained, pure, Except.pure],
      contributes_one shape⟩

/-- The product rule and the quotient rule stay within the shapes that broadcast. -/
theorem BinaryKind.exists_push (k : BinaryKind) {a b y da db : DenseMatrix α} {s : Shape}
    (fits : broadcastShape a.shape b.shape = .ok s) (result : y.shape = s)
    (left : da.shape = a.shape) (right : db.shape = b.shape) :
    ∃ m, k.push a b y da db = .ok m ∧ m.shape = s := by
  obtain ⟨one, first, second⟩ := broadcastShape_eq_ok.mp fits
  have seeds : broadcastShape da.shape db.shape = .ok s := by rw [left, right, fits]
  cases k with
  | add | sub => exact exists_zipMap _ seeds
  | mul =>
    obtain ⟨u, hu, shape⟩ := exists_zipMap (· * ·) (a := da) (b := b) (by rw [left, fits])
    obtain ⟨v, hv, shape'⟩ := exists_zipMap (· * ·) (a := a) (b := db) (by rw [right, fits])
    obtain ⟨m, hm, fits⟩ := exists_zipMap_same (· + ·) shape shape'
    exact ⟨m, by simp [push, hu, hv, hm], fits⟩
  | div =>
    obtain ⟨u, hu, shape⟩ := exists_zipMap (· * ·) (a := y) (b := db)
      (broadcastShape_eq_ok.mpr ⟨.inl result, .inl result, right ▸ second⟩)
    obtain ⟨v, hv, shape'⟩ := exists_zipMap (· - ·) (a := da) (b := u)
      (broadcastShape_eq_ok.mpr ⟨.inr shape, left ▸ first, .inl shape⟩)
    obtain ⟨m, hm, fits⟩ := exists_zipMap (· / ·) (a := v) (b := b)
      (broadcastShape_eq_ok.mpr ⟨.inl shape', .inl shape', second⟩)
    exact ⟨m, by simp [push, hu, hv, hm], fits⟩

theorem BinaryKind.exists_pull (k : BinaryKind) {a b y seed : DenseMatrix α} {s : Shape}
    (fits : broadcastShape a.shape b.shape = .ok s) (result : y.shape = s)
    (along : seed.shape = s) :
    ∃ ga gb, k.pull a b y seed = .ok (ga, gb) ∧ ga.shape = s ∧ gb.shape = s := by
  obtain ⟨-, first, second⟩ := broadcastShape_eq_ok.mp fits
  have right : broadcastShape seed.shape b.shape = .ok s :=
    broadcastShape_eq_ok.mpr ⟨.inl along, .inl along, second⟩
  cases k with
  | add => exact ⟨seed, seed, rfl, along, along⟩
  | sub => exact ⟨seed, seed.scaled (-1), rfl, along, along⟩
  | mul =>
    obtain ⟨ga, ha, shape⟩ := exists_zipMap (· * ·) right
    obtain ⟨gb, hb, shape'⟩ := exists_zipMap (· * ·) (a := seed) (b := a)
      (broadcastShape_eq_ok.mpr ⟨.inl along, .inl along, first⟩)
    exact ⟨ga, gb, by simp [pull, ha, hb, pure, Except.pure], shape, shape'⟩
  | div =>
    obtain ⟨ga, ha, shape⟩ := exists_zipMap (· / ·) right
    obtain ⟨gb, hb, shape'⟩ := exists_zipMap_same (fun g y => -g * y) shape result
    exact ⟨ga, gb, by simp [pull, ha, hb, pure, Except.pure], shape, shape'⟩

theorem BinaryKind.shaped (k : BinaryKind)
    (promised : (k.primitive : Primitive α).outputShape shapes = .ok shape) :
    (k.primitive : Primitive α).Shaped shapes shape := by
  obtain ⟨_, arity, read⟩ := Outcome.bind_eq_ok.mp promised
  obtain ⟨s, t, rfl⟩ := eq_two_of_length (checkArity_eq_ok.mp arity)
  have fits : broadcastShape s t = .ok shape := read
  refine ⟨fun xs operands => ?_, fun xs y seeds operands result along => ?_,
    fun xs y seed operands result along => ?_⟩
  · obtain ⟨a, b, rfl, rfl, rfl⟩ := eq_two_of_shapes operands
    exact exists_zipMap _ fits
  · obtain ⟨a, b, rfl, rfl, rfl⟩ := eq_two_of_shapes operands
    obtain ⟨da, db, rfl, left, right⟩ := eq_two_of_shapes along
    exact k.exists_push fits result left right
  · obtain ⟨a, b, rfl, rfl, rfl⟩ := eq_two_of_shapes operands
    obtain ⟨ga, gb, pulled, left, right⟩ := k.exists_pull fits result along
    obtain ⟨-, first, second⟩ := broadcastShape_eq_ok.mp fits
    exact ⟨[some (ga.reduceTo a.shape), some (gb.reduceTo b.shape)],
      by simp [BinaryKind.primitive, checkArity, elementAt, pulled, pure, Except.pure],
      contributes_two (shape_reduceTo left first) (shape_reduceTo right second)⟩

theorem Primitive.matmul_shaped (promised : (matmul : Primitive α).outputShape shapes = .ok shape)
    (sized : ∀ s ∈ shape :: shapes, s.Sized) : (matmul : Primitive α).Shaped shapes shape := by
  obtain ⟨_, arity, read⟩ := Outcome.bind_eq_ok.mp promised
  obtain ⟨⟨r, k⟩, ⟨k', c⟩, rfl⟩ := eq_two_of_length (checkArity_eq_ok.mp arity)
  simp only [List.forall_mem_cons] at sized
  obtain ⟨whole, first, second, -⟩ := sized
  simp only [elementAt, List.getElem?_cons_zero, List.getElem?_cons_succ, Outcome.ok_bind] at read
  split at read
  · next inner =>
    subst inner
    cases read
    refine ⟨fun xs operands => ?_, fun xs y seeds operands result along => ?_,
      fun xs y seed operands result along => ?_⟩
    · obtain ⟨a, b, rfl, left, right⟩ := eq_two_of_shapes operands
      exact exists_matmul left right whole.room
    · obtain ⟨a, b, rfl, left, right⟩ := eq_two_of_shapes operands
      obtain ⟨da, db, rfl, dleft, dright⟩ := eq_two_of_shapes along
      obtain ⟨u, hu, shape⟩ := exists_matmul dleft right whole.room
      obtain ⟨v, hv, shape'⟩ := exists_matmul left dright whole.room
      obtain ⟨m, hm, fits⟩ := exists_accumulate shape shape'
      exact ⟨m, by simp [matmul, checkArity, elementAt, hu, hv, hm], fits⟩
    · obtain ⟨a, b, rfl, left, right⟩ := eq_two_of_shapes operands
      obtain ⟨u, hu, shape⟩ := exists_matmul along (shape_transpose right) first.room
      obtain ⟨v, hv, shape'⟩ := exists_matmul (shape_transpose left) along second.room
      exact ⟨[some u, some v], by simp [matmul, elementAt, hu, hv, pure, Except.pure],
        contributes_two shape shape'⟩
  · cases read

theorem Primitive.transpose_shaped
    (promised : (transpose : Primitive α).outputShape shapes = .ok shape) :
    (transpose : Primitive α).Shaped shapes shape := by
  obtain ⟨_, arity, read⟩ := Outcome.bind_eq_ok.mp promised
  obtain ⟨⟨r, c⟩, rfl⟩ := eq_one_of_length (checkArity_eq_ok.mp arity)
  cases read
  refine ⟨fun xs fits => ?_, fun xs y seeds fits result along => ?_,
    fun xs y seed fits result along => ?_⟩
  · obtain ⟨a, rfl, operand⟩ := eq_one_of_shapes fits
    exact ⟨_, rfl, shape_transpose operand⟩
  · obtain ⟨seed, rfl, direction⟩ := eq_one_of_shapes along
    exact ⟨_, rfl, shape_transpose direction⟩
  · exact ⟨_, rfl, contributes_one (shape_transpose along)⟩

theorem Primitive.sum_shaped (promised : (sum : Primitive α).outputShape shapes = .ok shape) :
    (sum : Primitive α).Shaped shapes shape := by
  obtain ⟨_, arity, read⟩ := Outcome.bind_eq_ok.mp promised
  obtain ⟨s, rfl⟩ := eq_one_of_length (checkArity_eq_ok.mp arity)
  cases read
  refine ⟨fun xs fits => ?_, fun xs y seeds fits result along => ?_,
    fun xs y seed fits result along => ?_⟩
  · obtain ⟨a, rfl, operand⟩ := eq_one_of_shapes fits
    exact ⟨_, rfl, rfl⟩
  · obtain ⟨seed, rfl, -⟩ := eq_one_of_shapes along
    exact ⟨_, rfl, rfl⟩
  · obtain ⟨a, rfl, operand⟩ := eq_one_of_shapes fits
    rcases seed.scalar?_cases with ⟨-, g, read⟩ | ⟨large, -⟩
    · exact ⟨[some (.fill a.shape g)], by simp [sum, read, elementAt, pure, Except.pure],
        contributes_one operand⟩
    · exact absurd along large

end Primitives

end Cotangent
