import Cotangent.Pattern.Matching
import Cotangent.SparseMatrix

/-!
What all factorizations share: the options, the checks of patterns, values and right-hand sides,
the choice of a pivot, the numerical rank, and `Staged`, the life of a factorization that keeps the
order of the analysed pattern and the factors of the last values.
-/

namespace Cotangent

/-- Thresholds of a factorization, both relative (`LinsolOptions`). -/
structure Options (α : Type) where
  /-- A pivot has to exceed this multiple of the largest entry. -/
  pivotThreshold : α
  /-- A diagonal entry counts towards the rank above this multiple of the largest one. -/
  rankTolerance : α
  deriving DecidableEq

/-- One in `10 ^ 12` for pivots, one in `10 ^ 10` for the rank. -/
def Options.default {α : Type} [Scalar α] : Options α where
  pivotThreshold := 1 / (1000000000000 : Nat)
  rankTolerance := 1 / (10000000000 : Nat)

/-- The order of a square pattern (`validate_square`). -/
def Pattern.order (p : Pattern) : Except Error Nat :=
  if p.isSquare then .ok p.nrows
  else .error (.factorization .symbolic (.notSquare p.nrows p.ncols))

/-- The order of a square pattern that some invertible matrix has, if there is room for a
matching (`validate_structurally_nonsingular`). -/
def Pattern.invertibleOrder (p : Pattern) : Except Error Nat := do
  let n ← p.order
  let rank ← p.structuralRank?
  if rank < n then .error (.factorization .symbolic (.structurallySingular rank n)) else .ok n

namespace Factor

variable {α : Type}

/-- The matrix of a pattern and values, if the pattern has the analysed order (`validate_values`). -/
def accept (order : Option Nat) (p : Pattern) (values : Array α) :
    Except Error (SparseMatrix α) :=
  match order with
  | none => .error (.factorization .numeric .notAnalysed)
  | some n =>
    if p.nrows ≠ n ∨ p.ncols ≠ n then .error (.shapeMismatch [n, n] [p.nrows, p.ncols])
    else SparseMatrix.ofValues p values

variable [Scalar α]

/-- The magnitude that a pivot has to exceed (`pivot_tolerance`). -/
def pivotTolerance (threshold : α) (values : Array α) : α := threshold * Scalar.maxAbs values.toList

/-- The first index from `start` to below `stop` with the largest weight, and that weight. -/
def firstMax (weight : Nat → α) (start stop : Nat) : Nat × α :=
  (List.range' (start + 1) (stop - (start + 1))).foldl
    (fun best i =>
      let w := weight i
      if Scalar.lt best.2 w then (i, w) else best)
    (start, weight start)

/-- The number of entries above the tolerance relative to the largest (`numerical_rank`). -/
def numericalRank (tolerance : α) (diagonal : List α) : Nat :=
  let largest := Scalar.maxAbs diagonal
  if Scalar.isZero largest then 0
  else diagonal.countP fun d => Scalar.lt (tolerance * largest) (Scalar.abs d)

/-- A rule for single columns applied to each of the `nrhs` columns of length `n`. Columns of length
zero have nothing to change. -/
def eachColumn {m : Nat} (n nrhs : Nat) (rule : Array α → Array α) (rhs : Vector α m) :
    Except Error (Vector α m) :=
  if m = n * nrhs then
    let columns := Array.ofFn fun c : Fin (m / n) =>
      rule (rhs.toArray.extract (c.val * n) ((c.val + 1) * n))
    .ok (Vector.ofFn fun k => (columns.getD (k.val / n) #[]).getD (k.val % n) 0)
  else .error (sizeFault (n * nrhs) (.shapeMismatch [n, nrhs] [m]))

/-- Two indices exchanged. -/
def exchange (k p i : Nat) : Nat := if i = k then p else if i = p then k else i

/-- The entries of `w`, each at the place that `perm` names. -/
def permute (perm : Array Nat) (w : Array α) : Array α :=
  perm.toList.zipIdx.foldl (fun x (place, k) => x.setIfInBounds place (w.getD k 0))
    (Array.replicate perm.size 0)

end Factor

/-- A factorization with factors of type `φ`, through analysis and values. -/
structure Staged (α φ : Type) where
  options : Options α
  /-- The order of the analysed pattern. -/
  order : Option Nat
  /-- The factors of the last values. -/
  factors : Option φ

namespace Staged

variable {α φ : Type}

def new (options : Options α) : Staged α φ := ⟨options, none, none⟩

/-- Analysis of a pattern: an earlier analysis and its factors are forgotten first. -/
def symbolic (p : Pattern) : Run (Staged α φ) Unit := fun s =>
  match p.invertibleOrder with
  | .ok n => (.ok (), ⟨s.options, some n, none⟩)
  | .error e => (.error e, ⟨s.options, none, none⟩)

/-- Factors of values on a pattern of the analysed order: earlier factors are forgotten first. -/
def numeric (factorize : Options α → SparseMatrix α → Except Error φ) (p : Pattern)
    (values : Array α) : Run (Staged α φ) Unit := fun s =>
  match Factor.accept s.order p values >>= factorize s.options with
  | .ok f => (.ok (), { s with factors := some f })
  | .error e => (.error e, { s with factors := none })

/-- The factors, if there are any. -/
def current (name : String) (s : Staged α φ) : Except Error φ :=
  match s.factors with
  | some f => .ok f
  | none => .error (.internal (name ++ ": no numeric factors"))

end Staged

end Cotangent
