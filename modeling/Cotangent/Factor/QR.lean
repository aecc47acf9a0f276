import Cotangent.Factor.Basic
import Cotangent.Factor.Triangular

/-!
Dense QR factorization with column pivoting: `A P = Q R`, where `Q` is a product of reflections.
Step `k` moves the column with the largest rest to position `k` and reflects the rest onto its first
entry. The diagonal of `R` then decreases in magnitude and shows the numerical rank, so a singular
matrix has factors too; only solving asks for full rank.
-/

namespace Cotangent

/-- The reflection `x - beta (v · x) v` of the entries from some index on. -/
structure Reflector (α : Type) where
  /-- The direction `v`. -/
  direction : List α
  /-- The factor `beta`, zero for no reflection at all. -/
  beta : α
  deriving DecidableEq

/-- The factors of a dense matrix (`DenseQr`). -/
structure QR (α : Type) where
  /-- `R` on and above the diagonal. -/
  r : DenseMatrix α
  /-- The reflection of every step; number `k` acts on the entries from `k` on. -/
  reflectors : Array (Reflector α)
  /-- The column of the matrix that stands in every column of the factors. -/
  perm : Array Nat
  deriving DecidableEq

namespace QR

variable {α : Type} [Scalar α]

def order (f : QR α) : Nat := f.r.nrows

/-- The sum of the products of two lists. -/
def inner (v w : List α) : α := Scalar.sum (v.zipWith (· * ·) w)

/-- The entries of column `j` from row `k` on. -/
def rest (a : DenseMatrix α) (k j : Nat) : List α :=
  (List.range' k (a.nrows - k)).map fun i => a.entry i j

/-- Step `k` of the factorization. -/
def reduce (f : QR α) (k : Nat) : QR α :=
  let n := f.order
  let (p, largest) := Factor.firstMax (fun j => let c := rest f.r k j; inner c c) k n
  let a : DenseMatrix α := .ofFn n n fun i j => f.r.entry i (Factor.exchange k p j)
  let perm := f.perm.swapIfInBounds k p
  let norm := Scalar.sqrt largest
  let column := rest a k k
  if Scalar.isZero norm then ⟨a, f.reflectors.push ⟨column, 0⟩, perm⟩
  else
    let head := column.headD 0
    let alpha := if Scalar.le 0 head then -norm else norm
    let direction := (head - alpha) :: column.tail
    let square := inner direction direction
    let beta := if Scalar.lt 0 square then (1 + 1) / square else 0
    let scales := Array.ofFn fun j : Fin n =>
      if j < k then 0 else beta * inner direction (rest a k j)
    let v := direction.toArray
    let r : DenseMatrix α := .ofFn n n fun i j =>
      if i < k ∨ j < k then a.entry i j
      else if j = k then if i = k then alpha else 0
      else a.entry i j - scales.getD j 0 * v.getD (i - k) 0
    ⟨r, f.reflectors.push ⟨direction, beta⟩, perm⟩

/-- The factors, if there is room for the dense matrix (`QrBackend.numeric`). -/
def factorize (_ : Options α) (a : SparseMatrix α) : Except Error (QR α) := do
  let dense ← a.toDense?
  return (List.range a.nrows).foldl reduce ⟨dense, #[], Array.range a.nrows⟩

theorem factorize_of_roomy {options : Options α} {a : SparseMatrix α} (roomy : a.pattern.Roomy) :
    factorize options a =
      .ok ((List.range a.nrows).foldl reduce ⟨a.toDense, #[], Array.range a.nrows⟩) := by
  rw [factorize, SparseMatrix.toDense?_of_roomy roomy]
  rfl

theorem factorize_of_crowded {options : Options α} {a : SparseMatrix α}
    (crowded : ¬ a.pattern.Roomy) : factorize options a = .error .sizeOverflow := by
  rw [factorize, SparseMatrix.toDense?_of_crowded crowded]
  rfl

/-- What is found is found by the steps. -/
theorem eq_of_factorize {options : Options α} {a : SparseMatrix α} {f : QR α}
    (done : factorize options a = .ok f) : a.pattern.Roomy ∧
      f = (List.range a.nrows).foldl reduce ⟨a.toDense, #[], Array.range a.nrows⟩ := by
  by_cases roomy : a.pattern.Roomy
  · exact ⟨roomy, (Except.ok.inj ((factorize_of_roomy roomy).symm.trans done)).symm⟩
  · cases (factorize_of_crowded roomy).symm.trans done

/-- Reflection number `k` of a column (`DenseQr.reflect`). -/
def reflect (f : QR α) (x : Array α) (k : Nat) : Array α :=
  let r := f.reflectors.getD k ⟨[], 0⟩
  if Scalar.isZero r.beta then x
  else
    let s := r.beta * inner r.direction (x.toList.drop k)
    let v := r.direction.toArray
    x.mapIdx fun i t => if i < k then t else t - s * v.getD (i - k) 0

/-- The solution of `A x = b` (`DenseQr.solve_in_place`). -/
def solveColumn (f : QR α) (b : Array α) : Array α :=
  let c := (List.range f.order).foldl f.reflect b
  let y := Triangular.solveUpper f.order f.r.entry (c.getD · 0)
  Factor.permute f.perm y

/-- The solution of `Aᵀ x = b` (`DenseQr.solve_transposed_in_place`). -/
def solveColumnTransposed (f : QR α) (b : Array α) : Array α :=
  let z := Triangular.solveUpperTransposed f.order f.r.entry fun i => b.getD (f.perm.getD i 0) 0
  (List.range f.order).reverse.foldl f.reflect z

/-- The numerical rank, from the diagonal of `R` (`QrBackend.rank`). -/
def rank (options : Options α) (f : QR α) : Nat :=
  Factor.numericalRank options.rankTolerance ((List.range f.order).map fun k => f.r.entry k k)

/-- The solutions for all columns of a right-hand side of the right size, if the rank is full
(`QrBackend.solve`). -/
def solve {m : Nat} (options : Options α) (f : QR α) (nrhs : Nat) (transposed : Bool)
    (rhs : Vector α m) : Except Error (Vector α m) := do
  let solved ← Factor.eachColumn f.order nrhs
    (if transposed then f.solveColumnTransposed else f.solveColumn) rhs
  let rank := f.rank options
  if rank < f.order then .error (.factorization .solve (.rankDeficient rank f.order))
  else .ok solved

end QR

end Cotangent
