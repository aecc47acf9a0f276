import Mathlib
import Cotangent.Proofs.Caches
import Cotangent.Proofs.Entries
import Cotangent.Proofs.InnerProduct
import Cotangent.Proofs.SparseFactors

/-! The rules of a solve operation as matrices. The operand is read through the pattern, and transposed
if the operation says so; this is its system. A forward direction takes the product with the system of
its sensitivity off the right-hand side, and an adjoint one spreads products over the pattern. The two
are transposes of each other. -/
namespace Cotangent

open Matrix

variable {α : Type} [FieldScalar α]

/-- One column as a vector. -/
def DenseMatrix.columnVec (m : DenseMatrix α) (n c : Nat) : Fin n → α := fun i => m.entry i c

theorem DenseMatrix.columnVec_eq {m : DenseMatrix α} {n c : Nat} (rows : m.nrows = n) :
    m.columnVec n c = columnOf n c m.data := by
  subst rows
  rfl

/-- The inner product, column by column. -/
theorem DenseMatrix.inner_eq_columns {a b : DenseMatrix α} {n k : Nat} (left : a.shape = (n, k))
    (right : b.shape = (n, k)) :
    a.inner b = ∑ c ∈ Finset.range k, a.columnVec n c ⬝ᵥ b.columnVec n c := by
  obtain ⟨rfl, rfl⟩ := Prod.mk.inj left
  rw [inner_eq_entries a (Prod.mk.inj right).1]
  exact Finset.sum_congr rfl fun c _ => Finset.sum_range _

namespace Solve

/-- The matrix of the system: the operand at the positions of the pattern, zero elsewhere, transposed
if the operation says so. -/
def system (op : Solve) (a : DenseMatrix α) :
    Matrix (Fin op.pattern.nrows) (Fin op.pattern.nrows) α :=
  let restricted : Matrix (Fin op.pattern.nrows) (Fin op.pattern.nrows) α :=
    .of fun i j => if (i : Nat) ∈ op.pattern.col j then a.entry i j else 0
  if op.transposed then restrictedᵀ else restricted

theorem system_of_project {op : Solve} {a : DenseMatrix α} {m : SparseMatrix α}
    (projected : SparseMatrix.project a op.pattern = .ok m) :
    op.system a = if op.transposed then (m.matrix op.pattern.nrows)ᵀ else
      m.matrix op.pattern.nrows := by
  obtain ⟨_, -, rfl⟩ := Outcome.map_eq_ok.mp projected
  have restricted : (SparseMatrix.sample op.pattern a.entry).matrix op.pattern.nrows =
      .of fun i j => if (i : Nat) ∈ op.pattern.col j then a.entry i j else 0 := by
    ext i j
    exact SparseMatrix.entry_sample op.pattern a.entry i j
  rw [system, restricted]

variable {op : Solve} {x y : DenseMatrix α}

/-- The product with a sensitivity of the operand is the product with its system. -/
theorem seedTimes_columns {da p : DenseMatrix α} (square : op.pattern.ncols = op.pattern.nrows)
    (product : op.seedTimes da y = .ok p) : p.shape = (op.pattern.nrows, y.ncols) ∧
      ∀ c < y.ncols, p.columnVec _ c = op.system da *ᵥ y.columnVec _ c := by
  obtain ⟨m, projected, product⟩ := Outcome.bind_eq_ok.mp product
  have pattern := SparseMatrix.pattern_project projected
  have system := system_of_project projected
  have times {q : SparseMatrix α} (rows : q.nrows = op.pattern.nrows)
      (columns : q.ncols = op.pattern.nrows) (found : q.matmul y = .ok p)
      (same : ∀ i k : Fin op.pattern.nrows, q.entry i k = op.system da i k) :
      p.shape = (op.pattern.nrows, y.ncols) ∧
        ∀ c < y.ncols, p.columnVec _ c = op.system da *ᵥ y.columnVec _ c := by
    obtain ⟨-, shape, entries⟩ := SparseMatrix.matmul_eq_ok found
    refine ⟨shape.trans (Prod.ext rows rfl), fun c inside => funext fun i => ?_⟩
    change p.entry i c = _
    rw [entries i (i.isLt.trans_eq rows.symm) c inside, columns, Finset.sum_range]
    exact Finset.sum_congr rfl fun k _ => congrArg (· * _) (same i k)
  cases sense : op.transposed with
  | false =>
    simp only [sense, Bool.false_eq_true, if_false] at product system
    refine times ?_ ?_ product fun i k => by rw [system]; rfl
    · rw [SparseMatrix.nrows, pattern]
    · rw [SparseMatrix.ncols, pattern, square]
  | true =>
    simp only [sense, if_true] at product system
    refine times ?_ ?_ product fun i k => by
      rw [system, SparseMatrix.entry_transpose]
      rfl
    · simp [SparseMatrix.transpose, SparseMatrix.sample, SparseMatrix.nrows, Pattern.transpose,
        pattern, square]
    · simp [SparseMatrix.transpose, SparseMatrix.sample, SparseMatrix.ncols, Pattern.transpose,
        Pattern.ncols, pattern]

/-- The right-hand side of one direction. -/
theorem direction_columns (square : op.pattern.ncols = op.pattern.nrows)
    (rows : y.nrows = op.pattern.nrows) {da db block : DenseMatrix α} (fits : db.shape = y.shape)
    (found : op.direction y [da, db] = .ok block) : block.shape = y.shape ∧
      ∀ c < y.ncols, block.columnVec _ c = db.columnVec _ c - op.system da *ᵥ y.columnVec _ c := by
  obtain ⟨_, -, found⟩ := Outcome.bind_eq_ok.mp found
  obtain ⟨p, product, found⟩ := Outcome.bind_eq_ok.mp
    (show (op.seedTimes da y >>= fun p => .ok (takeOff db p)) = .ok block from found)
  obtain rfl := Except.ok.inj found
  obtain ⟨shape, columns⟩ := seedTimes_columns square product
  obtain ⟨rows', columns'⟩ := Prod.mk.inj fits
  obtain ⟨rows₁, columns₁⟩ := Prod.mk.inj shape
  refine ⟨fits, fun c inside => ?_⟩
  rw [← columns c inside]
  funext i
  have hi : (i : Nat) < db.nrows := by omega
  have held := DenseMatrix.getElem?_data db hi (columns'.symm ▸ inside)
  have taken := DenseMatrix.getElem?_data p (i.isLt.trans_eq rows₁.symm) (columns₁.symm ▸ inside)
  have order : p.nrows = db.nrows := by omega
  rw [order] at taken
  refine DenseMatrix.entry_eq_of_getElem? (m := takeOff db p) ?_
  change (db.data.mapIdx _)[c * db.nrows + i]? = _
  rw [Array.getElem?_mapIdx, held, Option.map_some, taken]
  rfl

/-- A product with a transposed matrix, negated and read through the pattern. -/
theorem entry_outer {width : Nat} {p q r : DenseMatrix α}
    (left : p.shape = (op.pattern.nrows, width)) (right : q.shape = (op.pattern.nrows, width))
    (found : (p.matmul q.transpose >>= fun outer =>
      SparseMatrix.project (outer.scaled (-1)) op.pattern >>= fun m => .ok m.toDense) = .ok r)
    (i j : Fin op.pattern.nrows) : r.entry i j = if (i : Nat) ∈ op.pattern.col j then
      -∑ c ∈ Finset.range width, p.entry i c * q.entry j c else 0 := by
  obtain ⟨outer, product, found⟩ := Outcome.bind_eq_ok.mp found
  obtain ⟨m, projected, found⟩ := Outcome.bind_eq_ok.mp found
  cases found
  obtain ⟨_, checked, rfl⟩ := Outcome.map_eq_ok.mp projected
  obtain ⟨-, shape, entries⟩ := DenseMatrix.matmul_eq_ok product
  obtain ⟨rows, columns⟩ := Prod.mk.inj left
  obtain ⟨rows', columns'⟩ := Prod.mk.inj right
  have hi : (i : Nat) < p.nrows := i.isLt.trans_eq rows.symm
  have hj : (j : Nat) < q.nrows := j.isLt.trans_eq rows'.symm
  obtain ⟨high, wide⟩ := Prod.mk.inj shape
  have square : op.pattern.nrows = op.pattern.ncols :=
    (rows'.symm.trans wide.symm).trans (congrArg Prod.snd (Sweep.checkShape_eq_ok.mp checked))
  rw [SparseMatrix.entry_toDense (a := .sample op.pattern _) i.isLt (j.isLt.trans_eq square),
    SparseMatrix.entry_sample, DenseMatrix.scaled,
    DenseMatrix.entry_map _ (hi.trans_eq high.symm) (hj.trans_eq wide.symm), neg_one_mul,
    entries i hi j hj, columns]
  refine congrArg (fun sum : α => if (i : Nat) ∈ op.pattern.col j then -sum else 0) ?_
  refine Finset.sum_congr rfl fun c inside => ?_
  rw [DenseMatrix.entry_transpose q (columns'.symm ▸ Finset.mem_range.mp inside) hj]

/-- The contributions to the operand of a sensitivity of the right-hand side. -/
theorem entry_matrixSensitivity {width : Nat} {s r : DenseMatrix α}
    (left : x.shape = (op.pattern.nrows, width)) (right : s.shape = (op.pattern.nrows, width))
    (found : op.matrixSensitivity x s = .ok r) (i j : Fin op.pattern.nrows) :
    r.entry i j = if (i : Nat) ∈ op.pattern.col j then -∑ c ∈ Finset.range width,
      (if op.transposed then x.entry i c * s.entry j c else s.entry i c * x.entry j c) else 0 := by
  cases sense : op.transposed with
  | false =>
    simp only [matrixSensitivity, sense, Bool.false_eq_true, if_false] at found ⊢
    exact entry_outer right left found i j
  | true =>
    simp only [matrixSensitivity, sense, if_true] at found ⊢
    exact entry_outer left right found i j

/-- What a sensitivity of the operand pairs to with the contributions to it: its products with the
solution are taken off. -/
theorem inner_matrixSensitivity {width : Nat} {s r da : DenseMatrix α}
    (left : x.shape = (op.pattern.nrows, width)) (right : s.shape = (op.pattern.nrows, width))
    (found : op.matrixSensitivity x s = .ok r) (whole : r.shape = (op.pattern.nrows, op.pattern.nrows))
    (fits : da.shape = (op.pattern.nrows, op.pattern.nrows)) : da.inner r =
      -∑ c ∈ Finset.range width, (op.system da *ᵥ x.columnVec _ c) ⬝ᵥ s.columnVec _ c := by
  let term (i j : Fin op.pattern.nrows) (c : Nat) : α :=
    (if (i : Nat) ∈ op.pattern.col j then da.entry i j else 0) *
      (if op.transposed then x.entry i c * s.entry j c else s.entry i c * x.entry j c)
  have spread (i j : Fin op.pattern.nrows) :
      da.entry i j * r.entry i j = -∑ c ∈ Finset.range width, term i j c := by
    rw [entry_matrixSensitivity left right found, ← Finset.mul_sum]
    split <;> ring
  have column (c : Nat) : ∑ j, ∑ i, term i j c =
      (op.system da *ᵥ x.columnVec _ c) ⬝ᵥ s.columnVec _ c := by
    simp only [dotProduct, mulVec, Finset.sum_mul]
    cases sense : op.transposed with
    | false =>
      rw [Finset.sum_comm]
      refine Finset.sum_congr rfl fun i _ => Finset.sum_congr rfl fun j _ => ?_
      simp only [term, system, sense, DenseMatrix.columnVec, Bool.false_eq_true, if_false, of_apply]
      ring
    | true =>
      refine Finset.sum_congr rfl fun j _ => Finset.sum_congr rfl fun i _ => ?_
      simp only [term, system, sense, DenseMatrix.columnVec, if_true, transpose_apply, of_apply]
      ring
  calc da.inner r
      = ∑ j, ∑ i, -∑ c ∈ Finset.range width, term i j c := by
        rw [DenseMatrix.inner_eq_columns fits whole, Finset.sum_range]
        exact Finset.sum_congr rfl fun j _ => Finset.sum_congr rfl fun i _ => spread i j
    _ = -∑ j, ∑ c ∈ Finset.range width, ∑ i, term i j c := by
        simp only [Finset.sum_neg_distrib]
        exact congrArg _ (Finset.sum_congr rfl fun j _ => Finset.sum_comm)
    _ = -∑ c ∈ Finset.range width, ∑ j, ∑ i, term i j c := congrArg _ Finset.sum_comm
    _ = _ := congrArg _ (Finset.sum_congr rfl fun c _ => column c)

end Solve

end Cotangent
