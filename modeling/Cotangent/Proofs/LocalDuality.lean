import Mathlib
import Cotangent.Proofs.EntryRules
import Cotangent.Proofs.SharedSolves
import Cotangent.Proofs.SingleDirections
import Cotangent.Proofs.SolveRules
import Cotangent.Proofs.TransposedRules
import Cotangent.Proofs.Transposition

/-! The rules of every operation of the library are dual, node by node: the adjoint rule is the transpose
of the forward rule. A one by one operand collects what all entries of the result contribute to it, the
quotient rule uses the contribution to the dividend again, and a solve trades the solution of one system
for that of the transposed one. -/
namespace Cotangent

open Matrix
open Finset (range mem_range)

section Ring

variable {α : Type} [RingScalar α]

/-! ### Inner products of results -/

namespace DenseMatrix

variable {a b g p q u y : DenseMatrix α}

theorem inner_fill (m : DenseMatrix α) (x : α) : m.inner (fill m.shape x) = m.sum * x := by
  have rows : (fill m.shape x).nrows = m.nrows := rfl
  rw [inner_eq_entries m rows, sum_eq, Finset.sum_mul]
  refine Finset.sum_congr rfl fun j hj => ?_
  rw [Finset.sum_mul]
  refine Finset.sum_congr rfl fun i hi => ?_
  rw [entry_fill (mem_range.mp hi) (mem_range.mp hj)]

theorem inner_transpose (fits : g.shape = u.transpose.shape) :
    u.transpose.inner g = u.inner g.transpose := by
  obtain ⟨rows, columns⟩ := Prod.mk.inj fits
  rw [inner_eq_entries _ rows, inner_eq_entries u columns, Finset.sum_comm]
  refine Finset.sum_congr rfl fun i hi => Finset.sum_congr rfl fun j hj => ?_
  replace hi := mem_range.mp hi
  replace hj := mem_range.mp hj
  rw [entry_transpose u hi hj, entry_transpose g (columns.symm ▸ hj) (rows.symm ▸ hi)]

/-- The left factor of a product. -/
theorem inner_matmul_left (product : u.matmul b = .ok p) (fits : g.shape = p.shape)
    (pulled : g.matmul b.transpose = .ok q) : p.inner g = u.inner q := by
  obtain ⟨inner, shape, entries⟩ := matmul_eq_ok product
  obtain ⟨-, shape', entries'⟩ := matmul_eq_ok pulled
  obtain ⟨rows, columns⟩ := Prod.mk.inj shape
  obtain ⟨rows', columns'⟩ := Prod.mk.inj (fits.trans shape)
  have order : q.nrows = u.nrows := (congrArg Prod.fst shape').trans rows'
  let term (i j k : Nat) : α := u.entry i k * b.entry k j * g.entry i j
  have pushed (i j) (hi : i ∈ range u.nrows) (hj : j ∈ range b.ncols) :
      p.entry i j * g.entry i j = ∑ k ∈ range u.ncols, term i j k := by
    rw [entries i (mem_range.mp hi) j (mem_range.mp hj), Finset.sum_mul]
  have spread (i k) (hi : i ∈ range u.nrows) (hk : k ∈ range u.ncols) :
      u.entry i k * q.entry i k = ∑ j ∈ range b.ncols, term i j k := by
    replace hk : k < b.nrows := inner ▸ mem_range.mp hk
    rw [entries' i (rows'.symm ▸ mem_range.mp hi) k hk, columns', Finset.mul_sum]
    refine Finset.sum_congr rfl fun j hj => ?_
    rw [entry_transpose b (mem_range.mp hj) hk]
    ring
  calc p.inner g
      = ∑ j ∈ range b.ncols, ∑ i ∈ range u.nrows, ∑ k ∈ range u.ncols, term i j k := by
        rw [inner_eq_entries p (rows'.trans rows.symm), rows, columns]
        exact Finset.sum_congr rfl fun j hj => Finset.sum_congr rfl fun i hi => pushed i j hi hj
    _ = ∑ i ∈ range u.nrows, ∑ k ∈ range u.ncols, ∑ j ∈ range b.ncols, term i j k :=
        Finset.sum_comm.trans (Finset.sum_congr rfl fun i _ => Finset.sum_comm)
    _ = ∑ k ∈ range u.ncols, ∑ i ∈ range u.nrows, ∑ j ∈ range b.ncols, term i j k := Finset.sum_comm
    _ = u.inner q := by
        rw [inner_eq_entries u order]
        exact Finset.sum_congr rfl fun k hk => Finset.sum_congr rfl fun i hi => (spread i k hi hk).symm

/-- The right factor of a product. -/
theorem inner_matmul_right (product : a.matmul u = .ok p) (fits : g.shape = p.shape)
    (pulled : a.transpose.matmul g = .ok q) : p.inner g = u.inner q := by
  obtain ⟨inner, shape, entries⟩ := matmul_eq_ok product
  obtain ⟨-, shape', entries'⟩ := matmul_eq_ok pulled
  obtain ⟨rows, columns⟩ := Prod.mk.inj shape
  obtain ⟨rows', columns'⟩ := Prod.mk.inj (fits.trans shape)
  have order : q.nrows = u.nrows := (congrArg Prod.fst shape').trans inner
  rw [inner_eq_entries p (rows'.trans rows.symm), inner_eq_entries u order, columns, rows]
  refine Finset.sum_congr rfl fun j hj => ?_
  replace hj := mem_range.mp hj
  have pushed (i) (hi : i ∈ range a.nrows) : p.entry i j * g.entry i j =
      ∑ k ∈ range u.nrows, a.entry i k * u.entry k j * g.entry i j := by
    rw [entries i (mem_range.mp hi) j hj, Finset.sum_mul, inner]
  have spread (k) (hk : k ∈ range u.nrows) : u.entry k j * q.entry k j =
      ∑ i ∈ range a.nrows, a.entry i k * u.entry k j * g.entry i j := by
    replace hk : k < a.ncols := inner.symm ▸ mem_range.mp hk
    rw [entries' k hk j (columns'.symm ▸ hj), Finset.mul_sum]
    refine Finset.sum_congr rfl fun i hi => ?_
    rw [entry_transpose a hk (mem_range.mp hi)]
    ring
  rw [Finset.sum_congr rfl pushed, Finset.sum_congr rfl spread, Finset.sum_comm]

/-- An operand that is repeated collects what its copies contribute. -/
theorem inner_reduceTo (fits : u.shape = g.shape ∨ u.shape = (1, 1)) : u.inner (g.reduceTo u.shape) =
    ∑ j ∈ range g.ncols, ∑ i ∈ range g.nrows, u.broadcast i j * g.entry i j := by
  unfold reduceTo
  by_cases same : g.shape = u.shape
  · obtain ⟨rows, columns⟩ := Prod.mk.inj same
    rw [if_pos same, inner_eq_entries u rows, rows, columns]
    refine Finset.sum_congr rfl fun j hj => Finset.sum_congr rfl fun i hi => ?_
    rw [broadcast_of_lt (mem_range.mp hi) (mem_range.mp hj)]
  · have one := fits.resolve_left (Ne.symm same)
    obtain ⟨rows, columns⟩ := Prod.mk.inj one
    have alone : (scalar g.sum).nrows = u.nrows := rows.symm
    rw [if_neg same, inner_eq_entries u alone, rows, columns]
    simp only [broadcast, if_pos one, Finset.sum_range_one, ← Finset.mul_sum, ← sum_eq]
    rfl

end DenseMatrix

/-! ### Primitives -/

/-- Two rules at operands and a result: for seeds of their shapes both have answers of their shapes, and
the sensitivity of the result pairs with its seed as the seeds of the operands pair with the
contributions to them. -/
def DualRules (xs : List (DenseMatrix α)) (y : DenseMatrix α)
    (forward : List (DenseMatrix α) → Except Error (DenseMatrix α))
    (adjoint : DenseMatrix α → Except Error (List (Option (DenseMatrix α)))) : Prop :=
  ∀ us seed, us.map (·.shape) = xs.map (·.shape) → seed.shape = y.shape →
    ∃ v ws, forward us = .ok v ∧ v.shape = y.shape ∧
      adjoint seed = .ok (ws.map some) ∧ ws.map (·.shape) = xs.map (·.shape) ∧
      v.inner seed = pairing us ws

theorem UnaryKind.dual (k : UnaryKind) {x y : DenseMatrix α} (result : y.shape = x.shape) :
    DualRules [x] y (k.primitive.forward [x] y) (k.primitive.adjoint [x] y) := by
  intro us seed fits along
  obtain ⟨u, rfl, shape⟩ := eq_one_of_shapes fits
  obtain ⟨v, pushed, whole⟩ := k.exists_chain rfl result shape
  obtain ⟨w, pulled, whole'⟩ := k.exists_chain rfl result (along.trans result)
  obtain ⟨-, sensitivity⟩ := k.entry_chain result shape pushed
  obtain ⟨-, contribution⟩ := k.entry_chain result (along.trans result) pulled
  refine ⟨v, [w], pushed, whole.trans result.symm, ?_, by simp [whole'], ?_⟩
  · simp [primitive, pulled, pure, Except.pure]
  · obtain ⟨rows, columns⟩ := Prod.mk.inj shape
    obtain ⟨rows₁, columns₁⟩ := Prod.mk.inj whole
    have order : seed.nrows = v.nrows := congrArg Prod.fst (along.trans (result.trans whole.symm))
    have order' : w.nrows = u.nrows := congrArg Prod.fst (whole'.trans shape.symm)
    rw [pairing_one, DenseMatrix.inner_eq_entries v order, DenseMatrix.inner_eq_entries u order', rows,
      columns, rows₁, columns₁]
    refine Finset.sum_congr rfl fun j hj => Finset.sum_congr rfl fun i hi => ?_
    replace hi := mem_range.mp hi
    replace hj := mem_range.mp hj
    rw [sensitivity i hi j hj, contribution i hi j hj]
    ring

theorem Primitive.matmul_dual {a b y : DenseMatrix α} (product : a.matmul b = .ok y)
    (room : a.shape.Sized) (room' : b.shape.Sized) :
    DualRules [a, b] y (matmul.forward [a, b] y) (matmul.adjoint [a, b] y) := by
  intro us seed fits along
  obtain ⟨da, db, rfl, left, right⟩ := eq_two_of_shapes fits
  obtain ⟨p, first, shape⟩ := DenseMatrix.exists_matmul_of_shapes product left rfl
  obtain ⟨q, second, shape'⟩ := DenseMatrix.exists_matmul_of_shapes product rfl right
  obtain ⟨v, added, whole⟩ := DenseMatrix.exists_accumulate shape shape'
  obtain ⟨inner, result, -⟩ := DenseMatrix.matmul_eq_ok product
  have seeded := along.trans result
  have matrix : a.shape = (a.nrows, a.ncols) := rfl
  have other : b.shape = (a.ncols, b.ncols) := Prod.ext inner.symm rfl
  obtain ⟨abar, pulled, fits₁⟩ :=
    DenseMatrix.exists_matmul seeded (DenseMatrix.shape_transpose other) room.room
  obtain ⟨bbar, pulled', fits₂⟩ :=
    DenseMatrix.exists_matmul (DenseMatrix.shape_transpose matrix) seeded (other ▸ room'.room)
  refine ⟨v, [abar, bbar], ?_, whole, ?_, ?_, ?_⟩
  · simp [matmul, checkArity, elementAt, first, second, added]
  · simp [matmul, elementAt, pulled, pulled', pure, Except.pure]
  · rw [List.map_cons, List.map_singleton, fits₁, fits₂, ← other]
    rfl
  · rw [pairing_two, DenseMatrix.inner_comm, DenseMatrix.inner_accumulate added,
      ← DenseMatrix.inner_matmul_left first (along.trans shape.symm) pulled,
      ← DenseMatrix.inner_matmul_right second (along.trans shape'.symm) pulled',
      DenseMatrix.inner_comm seed, DenseMatrix.inner_comm seed]

theorem Primitive.transpose_dual (x : DenseMatrix α) :
    DualRules [x] x.transpose (transpose.forward [x] x.transpose)
      (transpose.adjoint [x] x.transpose) := by
  intro us seed fits along
  obtain ⟨u, rfl, shape⟩ := eq_one_of_shapes fits
  have whole : u.transpose.shape = x.transpose.shape := DenseMatrix.shape_transpose shape
  refine ⟨u.transpose, [seed.transpose], rfl, whole, rfl, ?_, ?_⟩
  · exact congrArg (fun s => [s]) (DenseMatrix.shape_transpose along)
  · rw [pairing_one, DenseMatrix.inner_transpose (along.trans whole.symm)]

theorem Primitive.sum_dual (x : DenseMatrix α) :
    DualRules [x] (.scalar x.sum) (sum.forward [x] (.scalar x.sum)) (sum.adjoint [x] (.scalar x.sum)) := by
  intro us seed fits along
  obtain ⟨u, rfl, shape⟩ := eq_one_of_shapes fits
  obtain ⟨g, rfl⟩ := DenseMatrix.eq_scalar along
  refine ⟨.scalar u.sum, [.fill x.shape g], rfl, rfl, rfl, rfl, ?_⟩
  have fits' : u.shape = x.shape := shape
  rw [pairing_one, DenseMatrix.inner_scalar, ← fits', DenseMatrix.inner_fill]

end Ring

section Field

variable {α : Type} [FieldScalar α]

namespace BinaryKind

theorem dual (k : BinaryKind) {a b y : DenseMatrix α}
    (fits : broadcastShape a.shape b.shape = .ok y.shape) :
    DualRules [a, b] y (k.primitive.forward [a, b] y) (k.primitive.adjoint [a, b] y) := by
  intro us seed same along
  obtain ⟨da, db, rfl, left, right⟩ := eq_two_of_shapes same
  obtain ⟨v, pushed, whole⟩ := k.exists_push fits rfl left right
  obtain ⟨ga, gb, pulled, shape, shape'⟩ := k.exists_pull fits rfl along
  obtain ⟨-, sensitivity⟩ := k.entry_push fits rfl left right pushed
  have contribution := k.entry_pull fits rfl along pulled
  obtain ⟨-, first, second⟩ := DenseMatrix.broadcastShape_eq_ok.mp fits
  refine ⟨v, [ga.reduceTo a.shape, gb.reduceTo b.shape], pushed, whole, ?_, ?_, ?_⟩
  · simp [primitive, checkArity, elementAt, pulled, pure, Except.pure]
  · rw [List.map_cons, List.map_singleton, DenseMatrix.shape_reduceTo shape first,
      DenseMatrix.shape_reduceTo shape' second]
    rfl
  · have left' : da.shape = a.shape := left
    have right' : db.shape = b.shape := right
    obtain ⟨rows, columns⟩ := Prod.mk.inj whole
    obtain ⟨rows₁, columns₁⟩ := Prod.mk.inj shape
    obtain ⟨rows₂, columns₂⟩ := Prod.mk.inj shape'
    have order : seed.nrows = v.nrows := congrArg Prod.fst (along.trans whole.symm)
    rw [pairing_two, ← left', ← right',
      DenseMatrix.inner_reduceTo (shape.symm ▸ left'.symm ▸ first),
      DenseMatrix.inner_reduceTo (shape'.symm ▸ right'.symm ▸ second),
      DenseMatrix.inner_eq_entries v order, rows, columns, rows₁, columns₁, rows₂, columns₂]
    simp only [← Finset.sum_add_distrib]
    refine Finset.sum_congr rfl fun j hj => Finset.sum_congr rfl fun i hi => ?_
    replace hi := mem_range.mp hi
    replace hj := mem_range.mp hj
    rw [sensitivity i hi j hj, pushEntry_mul, ← contribution i hi j hj]

end BinaryKind

/-! ### Solve operations -/

namespace SparseMatrix

variable {p : Pattern} {a a' : DenseMatrix α}

/-- What is read through a pattern depends on the entries there. -/
theorem project_congr (shape : a.shape = a'.shape)
    (agree : ∀ j, ∀ i ∈ p.col j, a.entry i j = a'.entry i j) : project a p = project a' p := by
  have sampled : sample p a.entry = sample p a'.entry := by
    simp only [sample, mk.injEq, true_and]
    refine congrArg List.toArray (List.map_congr_left ?_)
    rintro ⟨i, j⟩ cell
    exact agree j i (Pattern.mem_col_of_mem_cells cell)
  rw [project, project, DenseMatrix.checkShape, DenseMatrix.checkShape, shape, sampled]

end SparseMatrix

namespace Solve

variable {ω : Type} {op : Solve} {s t u : Store α (BuiltIn α) ω} {a b rhs y : DenseMatrix α}
  {plugin : String} {rule : Bool → Array α → Array α}

/-- In this state right-hand sides of a shape are answered column by column, with a rule for each of the
two systems. -/
def RulesOf (op : Solve) (a : DenseMatrix α) (shape : Shape) (rule : Bool → Array α → Array α)
    (s : Store α (BuiltIn α) ω) : Prop :=
  ∀ (r : DenseMatrix α) (opposite : Bool), r.shape = shape →
    (op.solveWith a r opposite s).1 = .ok (r.mapColumns (rule opposite))

/-- Once a matrix has been solved with, there are rules for it, transposes of each other. -/
theorem exists_rules {b : BuiltIn α} (answered : op.answer b a rhs false = .ok y) :
    a.shape = op.pattern.shape ∧ rhs.nrows = op.pattern.nrows ∧ y.shape = rhs.shape ∧
    ∃ rule : Bool → Array α → Array α, Factor.Transposes op.pattern.nrows (rule false) (rule true) ∧
      ∀ (r : DenseMatrix α) (opposite : Bool), r.shape = rhs.shape →
        op.answer b a r opposite = .ok (r.mapColumns (rule opposite)) := by
  obtain ⟨m, projected, answered⟩ := Outcome.bind_eq_ok.mp answered
  obtain ⟨b', factored, answered⟩ := Outcome.bind_eq_ok.mp answered
  have order : m.nrows = op.pattern.nrows :=
    congrArg Pattern.nrows (SparseMatrix.pattern_project projected)
  have arranged : b'.Arranged op.pattern.nrows := order ▸ BuiltIn.arranged_of_factored factored
  obtain ⟨_, checked, -⟩ := Outcome.map_eq_ok.mp projected
  have rows : rhs.nrows = op.pattern.nrows := by
    by_contra other
    rw [BuiltIn.answer, if_neg other] at answered
    cases answered
  rw [BuiltIn.answer_columnwise arranged.factored _ rows] at answered
  obtain ⟨_, accepted, rfl⟩ := Outcome.map_eq_ok.mp answered
  refine ⟨Sweep.checkShape_eq_ok.mp checked, rows, rfl,
    fun opposite => b'.rule (op.transposed != opposite), ?_, fun r opposite same => ?_⟩
  · have transposes := arranged.transposes op.transposed
    cases sense : op.transposed <;> simpa [sense] using transposes
  · obtain ⟨rows', columns⟩ := Prod.mk.inj same
    rw [answer, projected, Outcome.ok_bind, factored, Outcome.ok_bind,
      BuiltIn.answer_columnwise arranged.factored _ (rows'.trans rows)]
    refine Outcome.map_eq_ok.mpr ⟨(), ?_, rfl⟩
    rw [columns]
    exact accepted

theorem rules_of_evaluate (made : s.made op.cell = some (op.pattern, plugin)) (faithful : s.Faithful)
    (evaluated : (op.evaluate [a, b] s).1 = .ok y) :
    a.shape = (op.pattern.nrows, op.pattern.nrows) ∧ op.pattern.ncols = op.pattern.nrows ∧
    b.nrows = op.pattern.nrows ∧ y.shape = b.shape ∧
    ∃ rule, Factor.Transposes op.pattern.nrows (rule false) (rule true) ∧
      ∀ t, s.Extends t → op.RulesOf a y.shape rule t := by
  obtain ⟨c, held, same⟩ := Option.map_eq_some_iff.mp made
  obtain ⟨pattern, rfl⟩ := Prod.mk.inj same
  obtain ⟨backend, created, sound⟩ := faithful c (Array.mem_of_getElem? held)
  have square : op.pattern.ncols = op.pattern.nrows := pattern ▸ sound.square
  have answered : op.answer backend a b false = .ok y :=
    (solveWith_eq (.refl faithful) made created a b false).1.symm.trans evaluated
  obtain ⟨fits, rows, shape, rule, transposes, answers⟩ := exists_rules answered
  refine ⟨fits.trans (Prod.ext rfl square), square, rows, shape, rule, transposes, fun t later => ?_⟩
  intro r opposite along
  exact (solveWith_eq later made created a r opposite).1.trans (answers r opposite (along.trans shape))

section Rules

variable (square : op.pattern.ncols = op.pattern.nrows)
  (fits : a.shape = (op.pattern.nrows, op.pattern.nrows)) (room : a.shape.Sized)
  (rows : y.nrows = op.pattern.nrows) (sized : y.shape.Sized)

include square fits room rows sized

/-- What an adjoint direction is answered, by the rule for the other system. -/
theorem adjoint_of_rules {seed : DenseMatrix α} (rules : op.RulesOf a y.shape rule u)
    (along : seed.shape = y.shape) : ∃ abar,
      op.matrixSensitivity y (seed.mapColumns (rule true)) = .ok abar ∧ abar.shape = a.shape ∧
      (op.operation.adjoint [a, b] y seed u).1 =
        .ok [some abar, some (seed.mapColumns (rule true))] := by
  have order : y.shape = (op.pattern.nrows, y.ncols) := Prod.ext rows rfl
  have shape : (seed.mapColumns (rule true)).shape = y.shape := along
  obtain ⟨abar, product, whole⟩ :=
    exists_matrixSensitivity square (fits ▸ room.room) order (shape.trans order)
  exact ⟨abar, product, whole.trans fits.symm,
    adjoint_of_solved along (rules seed true along) rfl product sized.columns⟩

/-- The sensitivity of the solution pairs with its seed as the seeds pair with the contributions. -/
theorem dual (transposes : Factor.Transposes op.pattern.nrows (rule false) (rule true))
    (result : y.shape = b.shape) (rules : op.RulesOf a y.shape rule t)
    (rules' : op.RulesOf a y.shape rule u) :
    DualRules [a, b] y (fun us => (op.operation.forward [a, b] y us t).1)
      (fun seed => (op.operation.adjoint [a, b] y seed u).1) := by
  intro us seed same along
  obtain ⟨da, db, rfl, left, right⟩ := eq_two_of_shapes same
  have matrix : da.shape = (op.pattern.nrows, op.pattern.nrows) := left.trans fits
  have right' : db.shape = y.shape := right.trans result.symm
  have order : y.shape = (op.pattern.nrows, y.ncols) := Prod.ext rows rfl
  have seeding : [da, db].map (·.shape) = [(op.pattern.nrows, op.pattern.nrows), y.shape] := by
    rw [List.map_cons, List.map_singleton, matrix, right']
  obtain ⟨block, computed, shape⟩ := exists_direction square rows sized rfl seeding
  obtain ⟨-, columns⟩ := direction_columns square rows right' computed
  obtain ⟨abar, product, whole, answered⟩ :=
    adjoint_of_rules (b := b) square fits room rows sized rules' along
  set v := block.mapColumns (rule false)
  set bbar := seed.mapColumns (rule true)
  have shape' : bbar.shape = y.shape := along
  have apart : block.inner bbar = db.inner bbar -
      ∑ c ∈ range y.ncols, (op.system da *ᵥ y.columnVec _ c) ⬝ᵥ bbar.columnVec _ c := by
    rw [DenseMatrix.inner_eq_columns (shape.trans order) (shape'.trans order),
      DenseMatrix.inner_eq_columns (right'.trans order) (shape'.trans order), ← Finset.sum_sub_distrib]
    refine Finset.sum_congr rfl fun c inside => ?_
    rw [columns c (mem_range.mp inside), sub_dotProduct]
  refine ⟨v, [abar, bbar], ?_, shape, answered, ?_, ?_⟩
  · exact forward_of_solved computed shape (rules block false shape) rfl sized.columns
  · rw [List.map_cons, List.map_singleton, whole, shape', result]
    rfl
  · calc v.inner seed
        = block.inner bbar :=
          DenseMatrix.inner_mapColumns transposes (shape.trans order) (along.trans order)
      _ = da.inner abar + db.inner bbar := by
          rw [apart,
            inner_matrixSensitivity order (shape'.trans order) product (whole.trans fits) matrix]
          ring
      _ = pairing [da, db] [abar, bbar] := (pairing_two _ _ _ _).symm

end Rules

/-- Two rules of a solve operation that keep to its pattern: what the sensitivity of the matrix has at
other positions makes no difference, and nothing is contributed there. -/
structure KeepsToPattern (op : Solve) (y : DenseMatrix α)
    (forward : List (DenseMatrix α) → Except Error (DenseMatrix α))
    (adjoint : DenseMatrix α → Except Error (List (Option (DenseMatrix α)))) : Prop where
  reads : ∀ da da' db, da.shape = da'.shape →
    (∀ j, ∀ i ∈ op.pattern.col j, da.entry i j = da'.entry i j) → forward [da, db] = forward [da', db]
  contributes : ∀ seed, seed.shape = y.shape → ∃ abar bbar,
    adjoint seed = .ok [some abar, some bbar] ∧
      ∀ i < op.pattern.nrows, ∀ j < op.pattern.nrows, i ∉ op.pattern.col j → abar.entry i j = 0

theorem forward_congr {xs : List (DenseMatrix α)} {da da' db : DenseMatrix α}
    (shape : da.shape = da'.shape)
    (agree : ∀ j, ∀ i ∈ op.pattern.col j, da.entry i j = da'.entry i j) :
    (op.operation.forward xs y [da, db] t).1 = (op.operation.forward xs y [da', db] t).1 := by
  have same : op.direction y [da, db] = op.direction y [da', db] := by
    simp only [direction, elementAt, List.getElem?_cons_zero, Outcome.ok_bind, seedTimes,
      SparseMatrix.project_congr shape agree]
    rfl
  have all : [[da, db]].mapM (op.direction y) = [[da', db]].mapM (op.direction y) := by
    rw [List.mapM_cons, List.mapM_cons, same]
  simp only [operation, forwardBatch, all]
  rfl

end Solve

/-! ### Operations -/

section Operations

variable {ω : Type} {solves : List Solve} {op : Operation α (Store α (BuiltIn α) ω)}
  {s t u : Store α (BuiltIn α) ω} {xs : List (DenseMatrix α)} {y : DenseMatrix α} {shape : Shape}

/-- Every operation of the library has dual rules at its result, in any later states. -/
theorem Operation.Offered.dual (offered : op.Offered solves) (faithful : s.Faithful)
    (makes : s.Makes solves) (promised : op.outputShape (xs.map (·.shape)) = .ok shape)
    (sized : ∀ x ∈ xs, x.shape.Sized) (evaluated : (op.evaluate xs s).1 = .ok y)
    (later : s.Extends t) (later' : s.Extends u) : y.shape = shape ∧
      DualRules xs y (fun us => (op.forward xs y us t).1) fun seed => (op.adjoint xs y seed u).1 := by
  cases offered with
  | unary k =>
    obtain ⟨_, arity, found⟩ := Outcome.bind_eq_ok.mp
      (show (k.primitive : Primitive α).evaluate xs = .ok y from evaluated)
    obtain ⟨x, rfl⟩ := eq_one_of_length (checkArity_eq_ok.mp arity)
    cases found
    cases promised
    exact ⟨rfl, k.dual rfl⟩
  | binary k =>
    obtain ⟨_, arity, found⟩ := Outcome.bind_eq_ok.mp
      (show (k.primitive : Primitive α).evaluate xs = .ok y from evaluated)
    obtain ⟨a, b, rfl⟩ := eq_two_of_length (checkArity_eq_ok.mp arity)
    have fits : BinaryKind.broadcastShape a.shape b.shape = .ok shape := promised
    obtain ⟨y', zipped, rfl⟩ := DenseMatrix.exists_zipMap k.apply fits
    cases zipped.symm.trans found
    exact ⟨rfl, k.dual fits⟩
  | matmul =>
    obtain ⟨_, arity, product⟩ := Outcome.bind_eq_ok.mp
      (show (Primitive.matmul : Primitive α).evaluate xs = .ok y from evaluated)
    obtain ⟨a, b, rfl⟩ := eq_two_of_length (checkArity_eq_ok.mp arity)
    obtain ⟨inner, result, -⟩ := DenseMatrix.matmul_eq_ok product
    simp only [List.forall_mem_cons] at sized
    have whole : (if a.ncols = b.nrows then .ok (a.nrows, b.ncols) else _) = Except.ok shape := promised
    rw [if_pos inner] at whole
    exact ⟨result.trans (Except.ok.inj whole), Primitive.matmul_dual product sized.1 sized.2.1⟩
  | transpose =>
    obtain ⟨_, arity, found⟩ := Outcome.bind_eq_ok.mp
      (show (Primitive.transpose : Primitive α).evaluate xs = .ok y from evaluated)
    obtain ⟨x, rfl⟩ := eq_one_of_length (checkArity_eq_ok.mp arity)
    cases found
    cases promised
    exact ⟨rfl, Primitive.transpose_dual x⟩
  | sum =>
    obtain ⟨_, arity, found⟩ := Outcome.bind_eq_ok.mp
      (show (Primitive.sum : Primitive α).evaluate xs = .ok y from evaluated)
    obtain ⟨x, rfl⟩ := eq_one_of_length (checkArity_eq_ok.mp arity)
    cases found
    cases promised
    exact ⟨rfl, Primitive.sum_dual x⟩
  | @solve op member =>
    obtain ⟨_, arity, -⟩ := Run.ok_of_bind evaluated
    obtain ⟨a, b, rfl⟩ := eq_two_of_length (checkArity_eq_ok.mp arity)
    obtain ⟨plugin, made⟩ := makes op member
    obtain ⟨fits, square, rows, result, rule, transposes, rules⟩ :=
      Solve.rules_of_evaluate made faithful evaluated
    obtain ⟨same, -⟩ := Solve.outputShape_eq_ok promised
    have whole : b.shape = shape := (List.cons.inj (List.cons.inj same).2).1
    simp only [List.forall_mem_cons] at sized
    exact ⟨result.trans whole, Solve.dual square fits sized.1 ((congrArg Prod.fst result).trans rows)
      (result ▸ sized.2.1) transposes result (rules t later) (rules u later')⟩

/-- The rules of a solve keep to its pattern. -/
theorem Solve.keepsToPattern {op : Solve} (faithful : s.Faithful) (makes : s.Makes solves)
    (member : op ∈ solves) (sized : ∀ x ∈ xs, x.shape.Sized)
    (evaluated : (op.evaluate xs s).1 = .ok y) (later : s.Extends u) :
    op.KeepsToPattern y (fun us => (op.operation.forward xs y us t).1)
      fun seed => (op.operation.adjoint xs y seed u).1 := by
  obtain ⟨_, arity, -⟩ := Run.ok_of_bind evaluated
  obtain ⟨a, b, rfl⟩ := eq_two_of_length (checkArity_eq_ok.mp arity)
  obtain ⟨plugin, made⟩ := makes op member
  obtain ⟨fits, square, rows, result, rule, -, rules⟩ :=
    Solve.rules_of_evaluate made faithful evaluated
  simp only [List.forall_mem_cons] at sized
  have order : y.nrows = op.pattern.nrows := (congrArg Prod.fst result).trans rows
  refine ⟨fun _ _ _ shape agree => forward_congr shape agree, fun seed along => ?_⟩
  obtain ⟨abar, product, -, answered⟩ := adjoint_of_rules (b := b) square fits sized.1 order
    (result ▸ sized.2.1) (rules u later) along
  have shape : y.shape = (op.pattern.nrows, y.ncols) := Prod.ext order rfl
  have shape' : (seed.mapColumns (rule true)).shape = y.shape := along
  have entries := entry_matrixSensitivity shape (shape'.trans shape) product
  exact ⟨abar, _, answered, fun i hi j hj outside => (entries ⟨i, hi⟩ ⟨j, hj⟩).trans (if_neg outside)⟩

namespace Session

/-- The rules of every operation of the library are dual, node by node. In any session take operands
whose shapes the operation accepts, with the result that it has for them. In any later sessions, whatever
was asked of shared solvers in between, both rules answer all seeds of the right shapes: the sensitivity
of the result pairs with its seed as the seeds of the operands pair with the contributions to them. The
rules of a solve keep to its pattern. No comparison and no root is asked to obey any law, and no divisor
or pivot to be different from zero. -/
theorem local_duality {world : ω} {s t u : Session α ω} {op : Operation α (Store α (BuiltIn α) ω)}
    {xs : List (DenseMatrix α)} {y : DenseMatrix α} {shape : Shape}
    (before : Later ⟨[], [], [], ⟨#[], world⟩⟩ s) (offered : op.Offered s.solves)
    (promised : op.outputShape (xs.map (·.shape)) = .ok shape) (sized : ∀ x ∈ xs, x.shape.Sized)
    (evaluated : (op.evaluate xs s.store).1 = .ok y) (later : Later s t) (later' : Later s u) :
    y.shape = shape ∧
    DualRules xs y (fun us => (op.forward xs y us t.store).1)
      (fun seed => (op.adjoint xs y seed u.store).1) ∧
    ∀ solve ∈ s.solves, op = solve.operation →
      solve.KeepsToPattern y (fun us => (op.forward xs y us t.store).1)
        fun seed => (op.adjoint xs y seed u.store).1 := by
  have shared := ((Shared.start world).later before).1
  have faithful := shared.faithful
  obtain ⟨-, after⟩ := shared.later later
  obtain ⟨-, after'⟩ := shared.later later'
  obtain ⟨result, dual⟩ :=
    offered.dual faithful.store faithful.makes promised sized evaluated after after'
  refine ⟨result, dual, ?_⟩
  rintro solve member rfl
  exact Solve.keepsToPattern faithful.store faithful.makes member sized evaluated after'

/-- A transposed system on a lower triangle, outside of which the operand and its sensitivity have
entries too. -/
theorem local_duality_lower : ∃ (op : Solve) (store : Store Rat (BuiltIn Rat) Unit)
    (v abar bbar : DenseMatrix Rat),
    Solve.create (.builtIn id) "lu" (Pattern.dense 2 2).lower true
      (⟨#[], ()⟩ : Store Rat (BuiltIn Rat) Unit) = .ok (op, store) ∧
    (op.operation.evaluate [⟨2, 2, #[2, 1, 5, 4], rfl⟩, .column [2, 8]] store).1 =
      .ok (.column [0, 2]) ∧
    (op.operation.forward [⟨2, 2, #[2, 1, 5, 4], rfl⟩, .column [2, 8]] (.column [0, 2])
      [⟨2, 2, #[1, 3, 7, 1], rfl⟩, .column [1, 0]] store).1 = .ok v ∧
    (op.operation.adjoint [⟨2, 2, #[2, 1, 5, 4], rfl⟩, .column [2, 8]] (.column [0, 2])
      (.column [8, 8]) store).1 = .ok [some abar, some bbar] ∧
    v.inner (.column [8, 8]) = -22 ∧
    DenseMatrix.inner ⟨2, 2, #[1, 3, 7, 1], rfl⟩ abar + (DenseMatrix.column [1, 0]).inner bbar = -22 ∧
    abar.entry 0 1 = 0 := by
  have created : Solve.create (.builtIn id : Catalogue Rat (BuiltIn Rat)) "lu" (Pattern.dense 2 2).lower
    true (⟨#[], ()⟩ : Store Rat (BuiltIn Rat) Unit) = .ok (_, _) := rfl
  have sized : ∀ x ∈ [(⟨2, 2, #[2, 1, 5, 4], rfl⟩ : DenseMatrix Rat), .column [2, 8]],
      x.shape.Sized := by
    simp only [List.forall_mem_cons, List.not_mem_nil, false_imp_iff, implies_true, and_true]
    exact ⟨⟨⟨by decide +kernel, by decide +kernel⟩, by decide +kernel⟩,
      ⟨by decide +kernel, by decide +kernel⟩, by decide +kernel⟩
  obtain ⟨-, dual, keeps⟩ := local_duality (.tail .refl (.step (.solve created)))
    (.solve List.mem_cons_self) rfl sized (y := .column [0, 2]) (by decide +kernel) .refl .refl
  obtain ⟨v, ws, pushed, -, pulled, -, paired⟩ :=
    dual [⟨2, 2, #[1, 3, 7, 1], rfl⟩, .column [1, 0]] (.column [8, 8]) rfl rfl
  obtain ⟨abar, bbar, pulled', outside⟩ :=
    (keeps _ List.mem_cons_self rfl).contributes (.column [8, 8]) rfl
  obtain rfl : ws = [abar, bbar] := List.map_injective_iff.mpr (Option.some_injective _)
    (Except.ok.inj (pulled.symm.trans pulled'))
  obtain rfl : v = .column [-9 / 4, -1 / 2] := Except.ok.inj (pushed.symm.trans (by decide +kernel))
  have product : DenseMatrix.inner (.column [-9 / 4, -1 / 2]) (.column [8, 8] : DenseMatrix Rat) =
      -22 := by decide +kernel
  refine ⟨_, _, _, abar, bbar, created, by decide +kernel, pushed, pulled, product, ?_, ?_⟩
  · rw [← pairing_two, ← paired, product]
  · exact outside 0 (by decide +kernel) 1 (by decide +kernel) (by decide +kernel)

end Session

end Operations

end Field

end Cotangent
