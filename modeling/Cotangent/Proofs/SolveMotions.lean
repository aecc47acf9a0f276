import Cotangent.Proofs.ExactSolves
import Cotangent.Proofs.Motions

/-! Solutions in motion. Where the matrix of a linear system is invertible, the entries of the solution
are quotients of determinants, so the solution moves when matrix and right-hand side do. Its velocity
is found by differentiating both sides of the system, which is what the forward rule of a solve
operation does. -/
namespace Cotangent

open Matrix Filter Topology

/-! ### Quotients of determinants -/

section Cramer

variable {n : Nat}

/-- The solution of a system by determinants. -/
noncomputable def cramerSolution (a : Matrix (Fin n) (Fin n) ℝ) (b : Fin n → ℝ) : Fin n → ℝ :=
  a.det⁻¹ • a.cramer b

theorem mulVec_cramerSolution {a : Matrix (Fin n) (Fin n) ℝ} (invertible : a.det ≠ 0)
    (b : Fin n → ℝ) : a *ᵥ cramerSolution a b = b := by
  rw [cramerSolution, Matrix.mulVec_smul, Matrix.mulVec_cramer, smul_smul,
    inv_mul_cancel₀ invertible, one_smul]

theorem eq_of_mulVec_eq {a : Matrix (Fin n) (Fin n) ℝ} (invertible : a.det ≠ 0) {x y : Fin n → ℝ}
    (same : a *ᵥ x = a *ᵥ y) : x = y := by
  have difference : a *ᵥ (x - y) = 0 := by rw [Matrix.mulVec_sub, same, sub_self]
  exact sub_eq_zero.mp (Matrix.eq_zero_of_mulVec_eq_zero invertible difference)

variable {a : ℝ → Matrix (Fin n) (Fin n) ℝ} {a' : Matrix (Fin n) (Fin n) ℝ} {b : ℝ → Fin n → ℝ}
  {b' : Fin n → ℝ} {t : ℝ}

/-- A determinant is a polynomial of the entries. -/
theorem differentiableAt_det (entries : ∀ i j, DifferentiableAt ℝ (fun t => a t i j) t) :
    DifferentiableAt ℝ (fun t => (a t).det) t := by
  simp only [Matrix.det_apply]
  refine DifferentiableAt.fun_sum fun σ _ => ?_
  refine DifferentiableAt.const_smul ?_ _
  exact DifferentiableAt.fun_finsetProd fun i _ => entries (σ i) i

theorem differentiableAt_cramerSolution
    (matrix : ∀ i j, DifferentiableAt ℝ (fun t => a t i j) t)
    (vector : ∀ i, DifferentiableAt ℝ (fun t => b t i) t) (invertible : (a t).det ≠ 0) (i : Fin n) :
    DifferentiableAt ℝ (fun t => cramerSolution (a t) (b t) i) t := by
  have column : DifferentiableAt ℝ (fun t => ((a t).updateCol i (b t)).det) t := by
    refine differentiableAt_det fun j k => ?_
    by_cases here : k = i
    · simpa [Matrix.updateCol_apply, here] using vector j
    · simpa [Matrix.updateCol_apply, here] using matrix j k
  have quotient := ((differentiableAt_det matrix).inv invertible).mul column
  exact quotient

/-- Near a time at which a matrix in motion is invertible, it is invertible. -/
theorem eventually_det_ne_zero (matrix : ∀ i j, DifferentiableAt ℝ (fun t => a t i j) t)
    (invertible : (a t).det ≠ 0) : ∀ᶠ s in 𝓝 t, (a s).det ≠ 0 :=
  (differentiableAt_det matrix).continuousAt.eventually_ne invertible

/-- Both sides of the system have the same derivative, which leaves a system for the velocity of the
solution. -/
theorem hasDerivAt_cramerSolution (matrix : ∀ i j, HasDerivAt (fun t => a t i j) (a' i j) t)
    (vector : ∀ i, HasDerivAt (fun t => b t i) (b' i) t) (invertible : (a t).det ≠ 0)
    {x' : Fin n → ℝ} (solves : a t *ᵥ x' = b' - a' *ᵥ cramerSolution (a t) (b t)) (i : Fin n) :
    HasDerivAt (fun t => cramerSolution (a t) (b t) i) (x' i) t := by
  have moves (j : Fin n) := (differentiableAt_cramerSolution (fun i j => (matrix i j).differentiableAt)
    (fun i => (vector i).differentiableAt) invertible j).hasDerivAt
  let v : Fin n → ℝ := fun j => deriv (fun t => cramerSolution (a t) (b t) j) t
  suffices same : x' = v from same ▸ moves i
  refine eq_of_mulVec_eq invertible (funext fun k => ?_)
  have left : HasDerivAt (fun s => (a s *ᵥ cramerSolution (a s) (b s)) k)
      ((a' *ᵥ cramerSolution (a t) (b t)) k + (a t *ᵥ v) k) t := by
    simp only [Matrix.mulVec, dotProduct, ← Finset.sum_add_distrib]
    exact HasDerivAt.fun_sum fun j _ => (matrix k j).mul (moves j)
  have both : (fun s => (a s *ᵥ cramerSolution (a s) (b s)) k) =ᶠ[𝓝 t] fun s => b s k := by
    filter_upwards [eventually_det_ne_zero (fun i j => (matrix i j).differentiableAt) invertible]
      with s here
    rw [mulVec_cramerSolution here]
  have balance := (left.congr_of_eventuallyEq both.symm).unique (vector k)
  rw [solves, Pi.sub_apply, ← balance]
  exact add_sub_cancel_left _ _

end Cramer

/-! ### Solve operations -/

namespace Solve

variable {op : Solve} {a b x y : DenseMatrix ℝ}

/-- The only solution of the system for every right-hand side. -/
def Exact (op : Solve) (a b x : DenseMatrix ℝ) : Prop :=
  op.Solution a b x ∧ ∀ x', op.Solution a b x' → x' = x

/-- Where the system is invertible, or there is nothing to solve for, a solution is the only one. -/
theorem Solution.exact (solution : op.Solution a b x)
    (invertible : 0 < b.ncols → (op.system a).det ≠ 0) : op.Exact a b x := by
  refine ⟨solution, fun x' other => ?_⟩
  obtain ⟨rows, columns⟩ := Prod.mk.inj solution.shape
  obtain ⟨rows', columns'⟩ := Prod.mk.inj other.shape
  have height := solution.rows
  refine DenseMatrix.ext_entry (by omega) (by omega) fun i c hi hc => ?_
  have inside : c < b.ncols := by omega
  have same := eq_of_mulVec_eq (invertible (by omega))
    ((other.solves c inside).trans (solution.solves c inside).symm)
  exact congrFun same ⟨i, by omega⟩

/-- The solution column by column. -/
noncomputable def cramer (op : Solve) (a b : DenseMatrix ℝ) : DenseMatrix ℝ :=
  .ofFn op.pattern.nrows b.ncols fun i c => if h : i < op.pattern.nrows then
    cramerSolution (op.system a) (b.columnVec _ c) ⟨i, h⟩ else 0

theorem columnVec_cramer {c : Nat} (inside : c < b.ncols) :
    (op.cramer a b).columnVec _ c = cramerSolution (op.system a) (b.columnVec _ c) := by
  funext i
  exact (DenseMatrix.entry_ofFn i.isLt inside _).trans (dif_pos i.isLt)

theorem exact_cramer (matrix : a.shape = (op.pattern.nrows, op.pattern.nrows))
    (rows : b.nrows = op.pattern.nrows) (invertible : 0 < b.ncols → (op.system a).det ≠ 0) :
    op.Exact a b (op.cramer a b) := by
  refine Solution.exact ⟨matrix, rows, Prod.ext rows.symm rfl, fun c inside => ?_⟩ invertible
  rw [columnVec_cramer inside]
  exact mulVec_cramerSolution (invertible (by omega)) _

/-- An entry of the system moves as an entry of the operand or stands still. -/
theorem hasDerivAt_system (m : Motion)
    (shape : m.velocity.shape = (op.pattern.nrows, op.pattern.nrows))
    (i j : Fin op.pattern.nrows) :
    HasDerivAt (fun t => op.system (m.path t) i j) (op.system m.velocity i j) 0 := by
  obtain ⟨rows, columns⟩ := Prod.mk.inj shape
  have restricted (i j : Fin op.pattern.nrows) : HasDerivAt
      (fun t => if (i : Nat) ∈ op.pattern.col j then (m.path t).entry i j else 0)
      (if (i : Nat) ∈ op.pattern.col j then m.velocity.entry i j else 0) 0 := by
    split
    · exact m.hasDerivAt i (i.isLt.trans_eq rows.symm) j (j.isLt.trans_eq columns.symm)
    · exact hasDerivAt_const 0 0
  unfold system
  cases op.transposed with
  | false => exact restricted i j
  | true => exact restricted j i

/-- The solution of a system in motion is in motion, with the velocity that solves the linearized
system. -/
theorem exists_motion (ma mb : Motion) {dy : DenseMatrix ℝ} (exact : op.Exact ma.value mb.value y)
    (invertible : 0 < mb.value.ncols → (op.system ma.value).det ≠ 0)
    (linearized : op.Linearized ma.value y ma.velocity mb.velocity dy) :
    ∃ m : Motion, m.velocity = dy ∧ ∀ᶠ t in 𝓝 0, op.Exact (ma.path t) (mb.path t) (m.path t) := by
  obtain ⟨solution, -⟩ := exact
  have matrix : ma.velocity.shape = (op.pattern.nrows, op.pattern.nrows) :=
    ma.shape_value.symm.trans solution.matrix
  have rows (t : ℝ) : (mb.path t).nrows = op.pattern.nrows :=
    ((mb.nrows_path t).trans (mb.nrows_path 0).symm).trans solution.rows
  have columns (t : ℝ) : (mb.path t).ncols = y.ncols :=
    ((mb.ncols_path t).trans (mb.ncols_path 0).symm).trans (congrArg Prod.snd solution.shape).symm
  have width : dy.ncols = y.ncols := congrArg Prod.snd linearized.shape
  have height : dy.nrows = op.pattern.nrows :=
    (congrArg Prod.fst (linearized.shape.trans solution.shape)).trans solution.rows
  have system := hasDerivAt_system ma matrix
  refine ⟨⟨fun t => op.cramer (ma.path t) (mb.path t), dy, fun t => ?_, fun i hi c hc => ?_⟩, rfl, ?_⟩
  · exact Prod.ext height.symm ((columns t).trans width.symm)
  · have inside (t : ℝ) : c < (mb.path t).ncols := (columns t).symm ▸ width ▸ hc
    have regular := invertible (Nat.zero_lt_of_lt (inside 0))
    have entries (t : ℝ) : (op.cramer (ma.path t) (mb.path t)).entry i c =
        cramerSolution (op.system (ma.path t)) ((mb.path t).columnVec _ c) ⟨i, height ▸ hi⟩ :=
      congrFun (columnVec_cramer (inside t)) ⟨i, height ▸ hi⟩
    simp only [entries]
    have moves (k : Fin op.pattern.nrows) : HasDerivAt (fun t => (mb.path t).columnVec _ c k)
        (mb.velocity.columnVec _ c k) 0 :=
      mb.hasDerivAt k (k.isLt.trans_eq ((rows 0).symm.trans (mb.nrows_path 0))) c
        (mb.ncols_path 0 ▸ inside 0)
    have solves : op.system ma.value *ᵥ dy.columnVec _ c = mb.velocity.columnVec _ c -
        op.system ma.velocity *ᵥ cramerSolution (op.system ma.value) (mb.value.columnVec _ c) := by
      have here : y.columnVec op.pattern.nrows c =
          cramerSolution (op.system ma.value) (mb.value.columnVec _ c) :=
        eq_of_mulVec_eq regular ((solution.solves c (inside 0)).trans
          (mulVec_cramerSolution regular _).symm)
      exact here ▸ linearized.solves c (width ▸ hc)
    exact hasDerivAt_cramerSolution system moves regular solves ⟨i, height ▸ hi⟩
  · have near : ∀ᶠ t in 𝓝 (0 : ℝ), 0 < mb.value.ncols → (op.system (ma.path t)).det ≠ 0 := by
      by_cases some : 0 < mb.value.ncols
      · have moves (i j) := (system i j).differentiableAt
        exact (eventually_det_ne_zero moves (invertible some)).mono fun t here _ => here
      · exact .of_forall fun t h => absurd h some
    filter_upwards [near] with t here
    refine exact_cramer ((ma.shape_path t).trans matrix) (rows t) fun some => here ?_
    exact (columns t).trans (columns 0).symm ▸ some

end Solve

end Cotangent
