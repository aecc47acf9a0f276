import Cotangent.Proofs.SafeCalls
import Cotangent.Proofs.SolveColumns

/-! Operations treat directions apart. What an operation of the library answers for one direction of a
batch it answers for that direction alone, and it refuses the batch as it refuses the direction, unless
the blocks of a solve are too many to stand side by side. Either way it leaves the same state behind. -/
namespace Cotangent

variable {α σ ω : Type}

/-- An operation that treats directions apart, on operands of given shapes in states that satisfy an
invariant. A batch may be too crowded, depending on its size. -/
structure Operation.Separates (inv : σ → Prop) (op : Operation α σ) (shapes : List Shape)
    (shape : Shape) (crowded : Nat → Error → Prop) : Prop where
  forwardNone : ∀ xs y w, xs.map (·.shape) = shapes → op.forwardBatch xs y [] w = (.ok [], w)
  adjointNone : ∀ xs y w, xs.map (·.shape) = shapes → op.adjointBatch xs y [] w = (.ok [], w)
  forward : ∀ xs y seeds w, xs.map (·.shape) = shapes → y.shape = shape →
    (∀ direction ∈ seeds, direction.map (·.shape) = shapes) → inv w →
    ∀ (d : Nat) seed, seeds[d]? = some seed →
      Run.Follows (op.forwardBatch xs y seeds) (op.forwardBatch xs y [seed]) w w
        (crowded seeds.length) fun found alone t t' =>
          t = t' ∧ ∃ m, found[d]? = some m ∧ alone = [m]
  adjoint : ∀ xs y seeds w, xs.map (·.shape) = shapes → y.shape = shape →
    (∀ seed ∈ seeds, seed.shape = shape) → inv w →
    ∀ (d : Nat) seed, seeds[d]? = some seed →
      Run.Follows (op.adjointBatch xs y seeds) (op.adjointBatch xs y [seed]) w w
        (crowded seeds.length) fun found alone t t' =>
          t = t' ∧ ∃ cs, found[d]? = some cs ∧ alone = [cs]

/-! ### Primitives -/

section Primitives

variable {β γ : Type}

/-- Outcomes that depend on nothing are the same alone. -/
theorem Run.follows_mapM {f : β → Except Error γ} {xs : List β} {x : β} {d : Nat}
    (all : ∀ x ∈ xs, ∃ y, f x = .ok y) (at_d : xs[d]? = some x) (w : σ) (excuse : Error → Prop) :
    Run.Follows (xs.mapM fun x => Run.ofExcept (f x)) ([x].mapM fun x => Run.ofExcept (f x)) w w
      excuse fun found alone t t' => t = t' ∧ ∃ y, found[d]? = some y ∧ alone = [y] := by
  obtain ⟨ys, done⟩ := Outcome.mapM_ok_of_all all
  obtain ⟨y, at_y, here⟩ := Outcome.exists_at_of_forall₂ (Outcome.mapM_eq_ok.mp done) at_d
  have alone : [x].mapM f = .ok [y] := by
    rw [List.mapM_cons, here]
    rfl
  have stay (xs : List β) : (xs.mapM fun x => Run.ofExcept (f x)) w = (xs.mapM f, w) :=
    mapM_stay fun _ _ => rfl
  unfold Run.Follows Run.Post
  rw [stay, stay, done, alone]
  exact ⟨_, _, rfl, rfl, y, at_y, rfl⟩

theorem Primitive.Shaped.separates {p : Primitive α} {shapes : List Shape} {shape : Shape}
    (shaped : p.Shaped shapes shape) (inv : σ → Prop) (crowded : Nat → Error → Prop) :
    Operation.Separates inv p.operation shapes shape crowded where
  forwardNone _ _ _ _ := rfl
  adjointNone _ _ _ _ := rfl
  forward xs y _ w fits result seeding _ _ _ at_d := Run.follows_mapM
    (fun direction along =>
      (shaped.forward xs y direction fits result (seeding direction along)).imp fun _ => And.left)
    at_d w _
  adjoint xs y _ w fits result seeding _ _ _ at_d := Run.follows_mapM
    (fun seed along =>
      (shaped.adjoint xs y seed fits result (seeding seed along)).imp fun _ => And.left)
    at_d w _

end Primitives

/-! ### Solve operations -/

section Solves

variable [Scalar α] {solves : List Solve}

namespace Solve

/-- So many blocks of a shape are too many to stand side by side. -/
def Crowded (shape : Shape) (count : Nat) (e : Error) : Prop :=
  e = .sizeOverflow ∧ sizeLimit ≤ count * shape.2

variable {op : Solve} {s s' : Store α (BuiltIn α) ω} {a b y rhs : DenseMatrix α} {r : Response α}
  {opposite : Bool} {blocks : List (DenseMatrix α)} {shape : Shape}

/-- One solve for blocks side by side, and its answer cut into blocks again. -/
def sideBySide {γ : Type} (op : Solve) (a : DenseMatrix α) (opposite : Bool)
    (blocks : List (DenseMatrix α)) (width : Nat) (finish : DenseMatrix α → Except Error γ) :
    Run (Store α (BuiltIn α) ω) (List γ) := do
  let rhs ← Run.ofExcept (DenseMatrix.hcat blocks)
  let x ← op.solveWith a rhs opposite
  Run.ofExcept ((List.range blocks.length).mapM fun d => x.colBlock (d * width) width >>= finish)

/-- Blocks that fit side by side have one answer. -/
theorem sideBySide_eq {γ : Type} {finish : DenseMatrix α → Except Error γ} {width : Nat}
    (answers : ∀ rhs : DenseMatrix α, rhs.nrows = op.pattern.nrows →
      op.solveWith a rhs opposite s = (r.answer rhs, s'))
    (joined : DenseMatrix.hcat blocks = .ok rhs) (order : rhs.nrows = op.pattern.nrows) :
    op.sideBySide a opposite blocks width finish s =
      (r.batch rhs width blocks.length finish, s') := by
  unfold sideBySide Response.batch
  rw [joined, Run.bind_apply]
  change (op.solveWith a rhs opposite >>= fun x => Run.ofExcept _) s = _
  rw [Run.bind_apply, answers rhs order]
  cases r.answer rhs <;> rfl

theorem follows_sideBySide {γ : Type} {finish : DenseMatrix α → Except Error γ}
    (member : op ∈ solves) (serves : s.Serves solves) (square : op.pattern.ncols = op.pattern.nrows)
    (fits : a.shape = (op.pattern.nrows, op.pattern.nrows)) (rows : shape.1 = op.pattern.nrows)
    (sized : shape.Sized) (shapes : ∀ b ∈ blocks, b.shape = shape) (opposite : Bool)
    (finishes : ∀ x : DenseMatrix α, x.shape = shape → ∃ z, finish x = .ok z) {d : Nat}
    (at_d : blocks[d]? = some b) :
    Run.Follows (op.sideBySide a opposite blocks shape.2 finish)
      (op.sideBySide a opposite [b] shape.2 finish) s s (Crowded shape blocks.length)
      fun found alone t t' => t = t' ∧ ∃ z, found[d]? = some z ∧ alone = [z] := by
  obtain ⟨n, m⟩ := shape
  obtain ⟨r, s', -, answers⟩ := solveWith_columnwise member serves square fits opposite
  have block := shapes b (List.mem_of_getElem? at_d)
  have single : DenseMatrix.hcat [b] = .ok b := rfl
  have alone : op.sideBySide a opposite [b] m finish s = (r.batch b m 1 finish, s') :=
    sideBySide_eq answers single ((congrArg Prod.fst block).trans rows)
  have more : blocks ≠ [] := by
    rintro rfl
    cases at_d
  rcases DenseMatrix.hcat_cases more sized.columns shapes with ⟨rhs, joined, whole, -⟩ | ⟨refused, large⟩
  · have together : op.sideBySide a opposite blocks m finish s =
        (r.batch rhs m blocks.length finish, s') :=
      sideBySide_eq answers joined ((congrArg Prod.fst whole).trans rows)
    unfold Run.Follows Run.Post
    rw [together, alone]
    rcases Response.batch_cases (r := r) shapes sized.columns joined finishes at_d with
      ⟨found, z, done, at_d, single⟩ | ⟨e, failed, single⟩
    · rw [done, single]
      exact ⟨_, _, rfl, rfl, z, at_d, rfl⟩
    · rw [failed, single]
      exact .inr rfl
  · unfold Run.Follows Run.Post sideBySide
    rw [refused]
    exact .inl ⟨rfl, large⟩

/-- A batch of forward directions is one solve for blocks side by side. -/
theorem forwardBatch_eq {seeds : List (List (DenseMatrix α))} (asked : seeds ≠ [])
    (computed : seeds.mapM (op.direction y) = .ok blocks) :
    op.forwardBatch [a, b] y seeds s = op.sideBySide a false blocks y.ncols .ok s := by
  have some : seeds.isEmpty = false := by simpa using asked
  have same (x : DenseMatrix α) : split x y.ncols seeds.length =
      (List.range blocks.length).mapM fun d => x.colBlock (d * y.ncols) y.ncols >>= .ok := by
    rw [split, (Outcome.mapM_eq_ok.mp computed).length_eq]
    refine Outcome.mapM_congr fun d _ => ?_
    cases x.colBlock (d * y.ncols) y.ncols <;> rfl
  change (if seeds.isEmpty = true then _ else _ : Run (Store α (BuiltIn α) ω) _) s = _
  rw [some, if_neg Bool.false_ne_true, computed]
  unfold sideBySide
  simp only [← same]
  rfl

/-- A batch of adjoint directions is one solve for the seeds side by side. -/
theorem adjointBatch_eq (asked : blocks ≠ []) :
    op.adjointBatch [a, b] y blocks s = op.sideBySide a true blocks y.ncols
      (fun bbar => do return [some (← op.matrixSensitivity y bbar), some bbar]) s := by
  have some : blocks.isEmpty = false := by simpa using asked
  change (if blocks.isEmpty = true then _ else _ : Run (Store α (BuiltIn α) ω) _) s = _
  rw [some, if_neg Bool.false_ne_true]
  rfl

/-- A single block is solved as it is. -/
theorem sideBySide_single {γ : Type} {finish : DenseMatrix α → Except Error γ} {x : DenseMatrix α}
    (solved : (op.solveWith a rhs opposite s).1 = .ok x) (shape : x.shape = rhs.shape)
    (small : rhs.ncols < sizeLimit) : (op.sideBySide a opposite [rhs] rhs.ncols finish s).1 =
      (finish x).map fun z => [z] := by
  have width : x.ncols = rhs.ncols := congrArg Prod.snd shape
  have cut : x.colBlock (0 * rhs.ncols) rhs.ncols = .ok x := by
    rw [Nat.zero_mul, ← width]
    exact DenseMatrix.colBlock_all (width.symm ▸ small)
  refine (Run.bind_of_first solved).trans ?_
  change (List.range 1).mapM (fun d => x.colBlock (d * rhs.ncols) rhs.ncols >>= finish) = _
  rw [List.range_one, List.mapM_cons, cut, Outcome.ok_bind, List.mapM_nil]
  cases finish x <;> rfl

/-- A batch of one direction has what its right-hand side is solved to. -/
theorem forwardBatch_of_solved {seed : List (DenseMatrix α)} {block dy : DenseMatrix α}
    (computed : op.direction y seed = .ok block) (fits : block.shape = y.shape)
    (solved : (op.solveWith a block false s).1 = .ok dy) (shape : dy.shape = block.shape)
    (small : y.ncols < sizeLimit) : (op.forwardBatch [a, b] y [seed] s).1 = .ok [dy] := by
  have width : block.ncols = y.ncols := congrArg Prod.snd fits
  rw [forwardBatch_eq (List.cons_ne_nil _ _)
    (show [seed].mapM (op.direction y) = .ok [block] by rw [List.mapM_cons, computed]; rfl), ← width]
  exact sideBySide_single solved shape (width ▸ small)

/-- And so has the direction alone. -/
theorem forward_of_solved {seed : List (DenseMatrix α)} {block dy : DenseMatrix α}
    (computed : op.direction y seed = .ok block) (fits : block.shape = y.shape)
    (solved : (op.solveWith a block false s).1 = .ok dy) (shape : dy.shape = block.shape)
    (small : y.ncols < sizeLimit) : (op.operation.forward [a, b] y seed s).1 = .ok dy :=
  Run.bind_of_first (forwardBatch_of_solved (b := b) computed fits solved shape small)

/-- An adjoint direction has what its seed is solved to, and what this means for the operand. -/
theorem adjoint_of_solved {seed abar bbar : DenseMatrix α} (fits : seed.shape = y.shape)
    (solved : (op.solveWith a seed true s).1 = .ok bbar) (shape : bbar.shape = seed.shape)
    (product : op.matrixSensitivity y bbar = .ok abar) (small : y.ncols < sizeLimit) :
    (op.operation.adjoint [a, b] y seed s).1 = .ok [some abar, some bbar] := by
  have width : seed.ncols = y.ncols := congrArg Prod.snd fits
  have alone : (op.adjointBatch [a, b] y [seed] s).1 = .ok [[some abar, some bbar]] := by
    rw [adjointBatch_eq (List.cons_ne_nil _ _), ← width,
      sideBySide_single solved shape (width.symm ▸ small), product]
    rfl
  exact Run.bind_of_first alone

theorem separates (member : op ∈ solves) {shapes : List Shape}
    (promised : op.outputShape shapes = .ok shape) (sized : ∀ s ∈ shape :: shapes, s.Sized) :
    Operation.Separates (Store.Serves solves)
      (op.operation : Operation α (Store α (BuiltIn α) ω)) shapes shape (Crowded shape) := by
  obtain ⟨rfl, rows⟩ := outputShape_eq_ok promised
  simp only [List.forall_mem_cons] at sized
  obtain ⟨whole, matrix, -, -⟩ := sized
  have split : shape = (op.pattern.nrows, shape.2) := Prod.ext rows rfl
  refine ⟨?_, ?_, ?_, ?_⟩
  · intro xs y s fits
    obtain ⟨a, b, rfl, -, -⟩ := eq_two_of_shapes fits
    rfl
  · intro xs y s fits
    obtain ⟨a, b, rfl, -, -⟩ := eq_two_of_shapes fits
    rfl
  · intro xs y seeds s fits result seeding serves d seed at_d
    obtain ⟨a, b, rfl, first, -⟩ := eq_two_of_shapes fits
    have square := serves.square member
    have each (direction) (along : direction ∈ seeds) :=
      exists_direction square rows whole result (seeding direction along)
    obtain ⟨blocks, computed, length, shapes⟩ := Outcome.exists_mapM each
    obtain ⟨block, at_block, here⟩ :=
      Outcome.exists_at_of_forall₂ (Outcome.mapM_eq_ok.mp computed) at_d
    have alone : [seed].mapM (op.direction y) = .ok [block] := by
      rw [List.mapM_cons, here]
      rfl
    have more : seeds ≠ [] := by
      rintro rfl
      cases at_d
    have width : y.ncols = shape.2 := congrArg Prod.snd result
    unfold Run.Follows Run.Post
    simp only [operation, forwardBatch_eq more computed,
      forwardBatch_eq (List.cons_ne_nil _ _) alone, width, ← length]
    exact follows_sideBySide member serves square first rows whole shapes false
      (fun x _ => ⟨x, rfl⟩) at_block
  · intro xs y seeds s fits result seeding serves d seed at_d
    obtain ⟨a, b, rfl, first, -⟩ := eq_two_of_shapes fits
    have square := serves.square member
    have more : seeds ≠ [] := by
      rintro rfl
      cases at_d
    have width : y.ncols = shape.2 := congrArg Prod.snd result
    unfold Run.Follows Run.Post
    simp only [operation, adjointBatch_eq more, adjointBatch_eq (List.cons_ne_nil _ _), width]
    refine follows_sideBySide member serves square first rows whole seeding true (fun x block => ?_)
      at_d
    obtain ⟨abar, product, -⟩ := exists_matrixSensitivity square matrix.room (result.trans split)
      (block.trans split)
    exact ⟨_, by rw [product]; rfl⟩

end Solve

/-- The solve operation of an entry gets too many blocks to stand side by side. -/
def Entry.Crowded (e : Entry α (Store α (BuiltIn α) ω)) (count : Nat) (x : Error) : Prop :=
  ∃ op : Solve, e.kind = .apply op.operation ∧ Solve.Crowded e.shape count x

end Solves

end Cotangent
