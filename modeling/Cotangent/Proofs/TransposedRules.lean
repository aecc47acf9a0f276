import Mathlib
import Cotangent.Proofs.DrivenBackends
import Cotangent.Proofs.Reflections
import Cotangent.Proofs.SolveColumns
import Cotangent.Proofs.SolveRules
import Cotangent.Proofs.SparseFactors
import Cotangent.Proofs.SymmetricExact

/-! The two solves of a backend are transposes of each other. Substitution in a triangular system is the
transpose of substitution in the transposed one, a permutation that of its inverse, and a reflection is
its own transpose; a solve goes through these, and the solve of the transposed system through their
transposes in reverse. Nothing is asked of comparisons or roots: neither need the factors belong to the
matrix, nor the pivots be different from zero. -/
namespace Cotangent

open Matrix

variable {α : Type} [FieldScalar α] {n : Nat}

/-! ### Parts of solves -/

namespace Triangular

variable {d b c : Nat → α} {a : Nat → Nat → α} {x z : Array α}

/-- Substitution in a system and in the transposed system. On both sides stands what is left of one
right-hand side times what is left of the other, divided, and a product with the matrix. -/
theorem Resolves.dotProduct (resolves : Resolves n d a b x)
    (transposed : Resolves n d (fun i j => a j i) c z) :
    (entriesOf n x ⬝ᵥ fun i : Fin n => c i) = (fun i : Fin n => b i) ⬝ᵥ entriesOf n z := by
  let p (i : Nat) : α := ∑ j ∈ Finset.range n, a i j * x.getD j 0
  let q (i : Nat) : α := ∑ j ∈ Finset.range n, a j i * z.getD j 0
  have first (i : Nat) (inside : i ∈ Finset.range n) :
      x.getD i 0 * c i = (b i - p i) * (c i - q i) / d i + x.getD i 0 * q i := by
    rw [resolves i (Finset.mem_range.mp inside)]
    ring
  have second (i : Nat) (inside : i ∈ Finset.range n) :
      b i * z.getD i 0 = (b i - p i) * (c i - q i) / d i + p i * z.getD i 0 := by
    rw [transposed i (Finset.mem_range.mp inside)]
    ring
  have products : ∑ i ∈ Finset.range n, x.getD i 0 * q i =
      ∑ i ∈ Finset.range n, p i * z.getD i 0 := by
    simp only [p, q, Finset.mul_sum, Finset.sum_mul]
    rw [Finset.sum_comm]
    exact Finset.sum_congr rfl fun i _ => Finset.sum_congr rfl fun j _ => by ring
  calc (entriesOf n x ⬝ᵥ fun i : Fin n => c i)
      = ∑ i ∈ Finset.range n, x.getD i 0 * c i :=
        (Finset.sum_range fun i => x.getD i 0 * c i).symm
    _ = ∑ i ∈ Finset.range n, b i * z.getD i 0 := by
      rw [Finset.sum_congr rfl first, Finset.sum_congr rfl second, Finset.sum_add_distrib,
        Finset.sum_add_distrib, products]
    _ = _ := Finset.sum_range fun i => b i * z.getD i 0

end Triangular

/-- The entries of a vector moved, and those of the other moved back. -/
theorem Factor.Lists.dotProduct_permute {perm : Array Nat} {π : Equiv.Perm (Fin n)}
    (lists : Factor.Lists perm π) (w c : Array α) :
    entriesOf n (Factor.permute perm w) ⬝ᵥ entriesOf n c =
      entriesOf n w ⬝ᵥ fun i => c.getD (perm.getD i 0) 0 := by
  refine (Equiv.sum_comp π fun i =>
    entriesOf n (Factor.permute perm w) i * entriesOf n c i).symm.trans ?_
  refine Finset.sum_congr rfl fun i _ => ?_
  dsimp only [entriesOf]
  rw [lists.value, lists.permute]

/-! ### Solves -/

/-- Two rules for columns of one length are transposes of each other. -/
def Factor.Transposes (n : Nat) (f g : Array α → Array α) : Prop :=
  ∀ b c : Array α, b.size = n → c.size = n →
    entriesOf n (f b) ⬝ᵥ entriesOf n c = entriesOf n b ⬝ᵥ entriesOf n (g c)

theorem Factor.Transposes.symm {f g : Array α → Array α} (transposes : Transposes n f g) :
    Transposes n g f := by
  intro b c size size'
  rw [dotProduct_comm, ← transposes c b size' size, dotProduct_comm]

theorem DenseLU.transposes_solveColumn {f : DenseLU α} {π : Equiv.Perm (Fin n)} (order : f.order = n)
    (lists : Factor.Lists f.perm π) :
    Factor.Transposes n f.solveColumn f.solveColumnTransposed := by
  intro b c _ _
  simp only [solveColumn, solveColumnTransposed, order]
  set y := Triangular.solveUnitLower n f.packed.entry fun i => b.getD (f.perm.getD i 0) 0
  set z := Triangular.solveUpperTransposed n f.packed.entry (c.getD · 0)
  set w := Triangular.solveUnitLowerTransposed n f.packed.entry (z.getD · 0)
  have lower : Triangular.unitLower n f.packed.entry *ᵥ entriesOf n y =
      fun i : Fin n => b.getD (f.perm.getD i 0) 0 :=
    funext (Triangular.mulVec_solveUnitLower n f.packed.entry _)
  have transposed : (Triangular.unitLower n f.packed.entry)ᵀ *ᵥ entriesOf n w = entriesOf n z :=
    funext (Triangular.mulVec_solveUnitLowerTransposed n f.packed.entry _)
  calc entriesOf n (Triangular.solveUpper n f.packed.entry (y.getD · 0)) ⬝ᵥ entriesOf n c
      = entriesOf n y ⬝ᵥ entriesOf n z :=
        (Triangular.resolves_solveUpper n f.packed.entry (y.getD · 0)).dotProduct
          (Triangular.resolves_solveUpperTransposed n f.packed.entry (c.getD · 0))
    _ = (fun i : Fin n => b.getD (f.perm.getD i 0) 0) ⬝ᵥ entriesOf n w := by
        rw [← transposed, ← lower, dotProduct_mulVec, vecMul_transpose]
    _ = entriesOf n b ⬝ᵥ entriesOf n (Factor.permute f.perm w) := by
        rw [dotProduct_comm, ← lists.dotProduct_permute, dotProduct_comm]

theorem QR.Arranged.transposes_solveColumn {f : QR α} (arranged : f.Arranged n n) :
    Factor.Transposes n f.solveColumn f.solveColumnTransposed := by
  obtain ⟨order, ⟨π, lists⟩, -, length⟩ := arranged
  intro b c size _
  simp only [solveColumn, solveColumnTransposed, order]
  set z := Triangular.solveUpperTransposed n f.r.entry fun i => c.getD (f.perm.getD i 0) 0
  have size' : z.size = n := Triangular.size_ascending _ n
  obtain ⟨-, rotated⟩ := foldl_reflect size le_rfl length
  have rotated' := foldl_reflect_reverse size' le_rfl length
  set r := (List.range n).foldl f.reflect b
  calc entriesOf n (Factor.permute f.perm (Triangular.solveUpper n f.r.entry (r.getD · 0))) ⬝ᵥ
        entriesOf n c
      = entriesOf n (Triangular.solveUpper n f.r.entry (r.getD · 0)) ⬝ᵥ
          fun i => c.getD (f.perm.getD i 0) 0 := lists.dotProduct_permute _ c
    _ = entriesOf n r ⬝ᵥ entriesOf n z :=
        (Triangular.resolves_solveUpper n f.r.entry (r.getD · 0)).dotProduct
          (Triangular.resolves_solveUpperTransposed n f.r.entry fun i => c.getD (f.perm.getD i 0) 0)
    _ = entriesOf n b ⬝ᵥ entriesOf n ((List.range n).reverse.foldl f.reflect z) := by
        rw [rotated, rotated', dotProduct_mulVec, vecMul_transpose]

theorem SparseLU.Finished.transposes_solveColumn {f : SparseLU α} {t : SparseLU.Partial α}
    (finished : Finished t f n) : Factor.Transposes n f.solveColumn f.solveColumnTransposed := by
  intro b c _ _
  rw [solveColumn_eq, solveColumnTransposed_eq, finished.order]
  have size : (Factor.permute f.step b).size = n :=
    Factor.size_scatter.trans (Array.size_replicate.trans finished.size)
  obtain ⟨size', lower⟩ := finished.resolves_takeLower size
  set y := (List.range n).foldl f.takeLower (Factor.permute f.step b)
  set z := Triangular.ascending n (f.upperRule c)
  set v := Triangular.descending n (f.lowerRule z)
  have read : entriesOf n (f.step.map (v.getD · 0)) =
      fun i : Fin n => v.getD (f.step.getD i 0) 0 := by
    funext i
    have inside : (i : Nat) < f.step.size := finished.size.symm ▸ i.isLt
    simp [entriesOf, inside]
  calc entriesOf n ((List.range n).reverse.foldl f.takeUpper y) ⬝ᵥ entriesOf n c
      = entriesOf n y ⬝ᵥ entriesOf n z :=
        (finished.resolves_takeUpper size').dotProduct (finished.resolves_upperRule c)
    _ = entriesOf n (Factor.permute f.step b) ⬝ᵥ entriesOf n v :=
        lower.dotProduct (finished.resolves_lowerRule z)
    _ = entriesOf n b ⬝ᵥ entriesOf n (f.step.map (v.getD · 0)) := by
        rw [finished.lists.dotProduct_permute, read]

/-- A Cholesky solve is its own transpose. -/
theorem Cholesky.transposes_solve {p : Pattern} {a : Analysis} {l : SparseMatrix α} (fills : a.Fills p)
    (pattern : l.pattern = a.lower) : Factor.Transposes p.nrows (fun b => solveUpper l (solveLower l b))
      fun b => solveUpper l (solveLower l b) := by
  intro b c size size'
  obtain ⟨-, first⟩ := resolves_solveLower fills pattern size
  obtain ⟨-, second⟩ := resolves_solveLower fills pattern size'
  calc entriesOf p.nrows (solveUpper l (solveLower l b)) ⬝ᵥ entriesOf p.nrows c
      = entriesOf p.nrows (solveLower l b) ⬝ᵥ entriesOf p.nrows (solveLower l c) :=
        (resolves_solveUpper fills pattern _).dotProduct second
    _ = entriesOf p.nrows b ⬝ᵥ entriesOf p.nrows (solveUpper l (solveLower l c)) :=
        first.dotProduct (resolves_solveUpper fills pattern _)

namespace BuiltIn

variable {b : BuiltIn α}

/-- However a backend came to its factors, its two rules are transposes of each other. -/
theorem Arranged.transposes (arranged : b.Arranged n) (transposed : Bool) :
    Factor.Transposes n (b.rule transposed) (b.rule !transposed) := by
  have given : Factor.Transposes n (b.rule false) (b.rule true) := by
    cases arranged with
    | denseLU held order lists =>
      simp only [rule, held]
      exact DenseLU.transposes_solveColumn order lists
    | sparseLU held finished =>
      simp only [rule, held]
      exact finished.transposes_solveColumn
    | qr held arranged =>
      simp only [rule, held]
      exact arranged.transposes_solveColumn
    | cholesky held fills pattern order =>
      subst order
      simp only [rule, held]
      exact Cholesky.transposes_solve fills pattern
  cases transposed with
  | false => exact given
  | true => exact given.symm

end BuiltIn

namespace DenseMatrix

variable {m : DenseMatrix α} {c : Nat}

theorem columnVec_eq_entriesOf (rows : m.nrows = n) (inside : c < m.ncols) :
    m.columnVec n c = entriesOf n (m.columnData c) := by
  funext i
  rw [entriesOf, Array.getD_eq_getD_getElem?, getElem?_columnData inside,
    if_pos (i.isLt.trans_eq rows.symm)]
  rfl

theorem columnVec_mapColumns {rule : Array α → Array α} (rows : m.nrows = n) (inside : c < m.ncols) :
    (m.mapColumns rule).columnVec n c = entriesOf n (rule (m.columnData c)) :=
  funext fun i => entry_mapColumns (i.isLt.trans_eq rows.symm) inside

/-- Rules that are transposes of each other move across the inner product of matrices. -/
theorem inner_mapColumns {f g : Array α → Array α} {a b : DenseMatrix α} {k : Nat}
    (transposes : Factor.Transposes n f g) (left : a.shape = (n, k)) (right : b.shape = (n, k)) :
    (a.mapColumns f).inner b = a.inner (b.mapColumns g) := by
  rw [inner_eq_columns (a := a.mapColumns f) left right,
    inner_eq_columns (b := b.mapColumns g) left right]
  obtain ⟨rows, columns⟩ := Prod.mk.inj left
  obtain ⟨rows', columns'⟩ := Prod.mk.inj right
  refine Finset.sum_congr rfl fun c inside => ?_
  have first : c < a.ncols := (Finset.mem_range.mp inside).trans_eq columns.symm
  have second : c < b.ncols := (Finset.mem_range.mp inside).trans_eq columns'.symm
  rw [columnVec_mapColumns rows first, columnVec_mapColumns rows' second,
    columnVec_eq_entriesOf rows first, columnVec_eq_entriesOf rows' second]
  exact transposes _ _ ((size_columnData first).trans rows) ((size_columnData second).trans rows')

end DenseMatrix

end Cotangent
