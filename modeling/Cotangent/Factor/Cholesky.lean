import Cotangent.Factor.Basic
import Cotangent.Factor.EliminationTree
import Cotangent.Factor.Triangular

/-!
Sparse Cholesky factorization `A = L Lᵀ` of a symmetric matrix, of which only the lower triangle is
read. The analysis finds the elimination tree and the pattern of `L`; the values of `L` then follow
row by row, and a cursor in every column tells where its next entry goes.
-/

namespace Cotangent

namespace Cholesky

/-- What the pattern alone decides (`CholSymbolic`). -/
structure Analysis where
  /-- The upper triangle: column `k` lists row `k` of the lower triangle. -/
  upper : Pattern
  /-- For every position of the upper triangle, the number of its value in the matrix. -/
  source : Array Nat
  parent : Array (Option Nat)
  /-- The pattern of `L`. -/
  lower : Pattern
  deriving DecidableEq

/-- The columns of `L`: row `k` joins the columns of its reach, and its own. -/
def factorColumns (upper : Pattern) (parent : Array (Option Nat)) : Array (List Nat) :=
  let n := upper.ncols
  let row (acc : Array (List Nat) × Array Nat) (k : Nat) : Array (List Nat) × Array Nat :=
    let (reach, mark) := EliminationTree.rowReach upper parent k acc.2
    ((k :: reach).foldl (fun columns j => columns.modify j (· ++ [k])) acc.1, mark)
  ((List.range n).foldl row (Array.replicate n [], Array.replicate n 0)).1

/-- The analysis of a square pattern with a full diagonal (`analyse`). -/
def analyse (p : Pattern) : Except Error Analysis := do
  let n ← p.order
  if !p.hasFullDiagonal then .error (.factorization .symbolic .diagonalMissing)
  else
    let upper := p.lower.transpose
    let source ← upper.cells.mapM fun (i, k) =>
      match p.position? k i with
      | some number => .ok number
      | none => .error (.internal s!"cholesky: entry ({k}, {i}) vanished")
    let parent := EliminationTree.parents upper
    let lower ← Pattern.ofColumns n (factorColumns upper parent).toList
    return ⟨upper, source.toArray, parent, lower⟩

variable {α : Type} [Scalar α]

/-- The state between two rows. -/
structure Partial (α : Type) where
  values : Array α
  /-- The number of the next position to fill in every column. -/
  next : Array Nat
  /-- The dense row that is worked on, zero between rows. -/
  work : Array α
  /-- The marks of the searches. -/
  mark : Array Nat
  deriving DecidableEq

/-- No row yet. -/
def Partial.start (p : Analysis) : Partial α :=
  let n := p.lower.ncols
  ⟨Array.replicate p.lower.nnz 0, (p.lower.colPtrs.take n).toArray, Array.replicate n 0,
    Array.replicate n 0⟩

/-- The entries of row `k` of the lower triangle put into the dense row. -/
def load (p : Analysis) (values : Array α) (k : Nat) (work : Array α) :
    Except Error (Array α) :=
  ((p.upper.col k).zipIdx (p.upper.offset k)).foldlM
    (fun work (i, number) =>
      match values[p.source.getD number values.size]? with
      | some x => .ok (work.setIfInBounds i x)
      | none => .error .outOfRange)
    work

/-- Column `i` eliminated from the row: its entry of `L` is fixed and stored, and taken off the
later columns and off the diagonal entry `d`. -/
def eliminate (starts rows : Array Nat) (acc : Partial α × α) (i : Nat) : Partial α × α :=
  let (s, d) := acc
  let first := starts.getD i 0
  let cursor := s.next.getD i 0
  let x := s.work.getD i 0 / s.values.getD first 0
  let work := (List.range' (first + 1) (cursor - (first + 1))).foldl
    (fun work q => work.modify (rows.getD q 0) (· - s.values.getD q 0 * x))
    (s.work.setIfInBounds i 0)
  ({ s with
      values := s.values.setIfInBounds cursor x
      next := s.next.modify i (· + 1)
      work := work },
    d - x * x)

/-- Row `k`. The dense row is cleared whether or not the diagonal entry is large enough. -/
def factorRow (p : Analysis) (values : Array α) (tolerance : α) (k : Nat) :
    Run (Partial α) Unit := fun s =>
  let (reach, mark) := EliminationTree.rowReach p.upper p.parent k s.mark
  match load p values k s.work with
  | .error e => (.error e, s)
  | .ok work =>
    let loaded := { s with work := work.setIfInBounds k 0, mark := mark }
    let (s, d) := reach.foldl
      (eliminate p.lower.colPtrs.toArray p.lower.rowIndices.toArray) (loaded, work.getD k 0)
    if Scalar.le d tolerance then
      (.error (.factorization .numeric (.notPositiveDefinite k (Scalar.scientific d))),
        { s with work := reach.foldl (fun work i => work.setIfInBounds i 0) s.work })
    else
      (.ok (),
        { s with
          values := s.values.setIfInBounds (s.next.getD k 0) (Scalar.sqrt d)
          next := s.next.modify k (· + 1) })

/-- The factor of values on an analysed pattern (`CholeskyBackend.numeric`). -/
def factorize (options : Options α) (p : Analysis) (values : Array α) :
    Except Error (SparseMatrix α) :=
  let tolerance := Factor.pivotTolerance options.pivotThreshold values
  match (List.range p.lower.ncols).forM (factorRow p values tolerance) (Partial.start p) with
  | (.error e, _) => .error e
  | (.ok (), s) => SparseMatrix.ofValues p.lower s.values

/-- The solution of `L x = b` (`lower_solve`). -/
def solveLower (l : SparseMatrix α) (b : Array α) : Array α :=
  (List.range l.ncols).foldl
    (fun x j =>
      match l.col j with
      | [] => x
      | (_, d) :: below =>
        let xj := x.getD j 0 / d
        below.foldl (fun x (i, v) => x.modify i (· - v * xj)) (x.setIfInBounds j xj))
    b

/-- The solution of `Lᵀ x = b` (`upper_solve`). -/
def solveUpper (l : SparseMatrix α) (b : Array α) : Array α :=
  Triangular.descending l.ncols fun j x =>
    match l.col j with
    | [] => b.getD j 0
    | (_, d) :: below => below.foldl (fun s (i, v) => s - v * x i) (b.getD j 0) / d

end Cholesky

/-- A Cholesky factorization through analysis and values (`CholeskyBackend`). -/
structure Cholesky (α : Type) where
  options : Options α
  /-- The analysis of the last pattern. -/
  analysis : Option Cholesky.Analysis
  /-- The factor of the last values. -/
  factor : Option (SparseMatrix α)

namespace Cholesky

variable {α : Type} [Scalar α]

/-- Nothing analysed yet (`CholeskyBackend.new`). -/
def new (options : Options α) : Cholesky α := ⟨options, none, none⟩

/-- Analysis of a pattern: an earlier analysis and its factor are forgotten first
(`CholeskyBackend.symbolic`). -/
def symbolic (p : Pattern) : Run (Cholesky α) Unit := fun s =>
  match analyse p with
  | .ok analysis => (.ok (), ⟨s.options, some analysis, none⟩)
  | .error e => (.error e, ⟨s.options, none, none⟩)

/-- The factor of values on a pattern of the analysed order: an earlier factor is forgotten
first (`CholeskyBackend.numeric`). -/
def numeric (p : Pattern) (values : Array α) : Run (Cholesky α) Unit := fun s =>
  let outcome := do
    let a ← Factor.accept (s.analysis.map fun (q : Analysis) => q.lower.ncols) p values
    match s.analysis with
    | some analysis => factorize s.options analysis a.values
    | none => Except.error (.factorization .numeric .notAnalysed)
  match outcome with
  | .ok l => (.ok (), { s with factor := some l })
  | .error e => (.error e, { s with factor := none })

/-- The factor, if there is one (`CholeskyBackend.factor`). -/
def current (s : Cholesky α) : Except Error (SparseMatrix α) :=
  match s.factor with
  | some l => .ok l
  | none => .error (.internal "cholesky: no numeric factor")

/-- The factor or its transpose (`CholeskyBackend.cholesky`). -/
def triangle (s : Cholesky α) (transposed : Bool) : Except Error (SparseMatrix α) :=
  s.current.map fun l => if transposed then l.transpose else l

/-- The pattern of the factor or of its transpose (`CholeskyBackend.cholesky_sparsity`). -/
def trianglePattern (s : Cholesky α) (transposed : Bool) : Except Error Pattern :=
  match s.analysis with
  | some p => .ok (if transposed then p.lower.transpose else p.lower)
  | none => .error (.internal "cholesky: no symbolic factorization")

/-- The solutions of `A x = b`; the matrix is symmetric (`CholeskyBackend.solve`). -/
def solve {m : Nat} (s : Cholesky α) (nrhs : Nat) (rhs : Vector α m) :
    Except Error (Vector α m) := do
  let l ← s.current
  Factor.eachColumn l.nrows nrhs (fun b => solveUpper l (solveLower l b)) rhs

/-- The solutions of `L x = b`, or of `Lᵀ x = b` (`CholeskyBackend.solve_cholesky`). -/
def solveTriangle {m : Nat} (s : Cholesky α) (nrhs : Nat) (transposed : Bool)
    (rhs : Vector α m) : Except Error (Vector α m) := do
  let l ← s.current
  Factor.eachColumn l.nrows nrhs (if transposed then solveUpper l else solveLower l) rhs

/-- The numerical rank, from the squares of the diagonal (`CholeskyBackend.rank`). -/
def rank (s : Cholesky α) : Except Error Nat := do
  let l ← s.current
  return Factor.numericalRank s.options.rankTolerance
    ((List.range l.ncols).map fun j => let d := ((l.col j).head?.map (·.2)).getD 0; d * d)

/-- A factor proves that there is no negative eigenvalue (`CholeskyBackend.neig`). -/
def negativeEigenvalues (s : Cholesky α) : Except Error Nat := s.current.map fun _ => 0

end Cholesky

end Cotangent
