import Cotangent.Factor.Cholesky

/-!
The rows of a Cholesky factorization with a journal of what they store in `L`. Every entry is stored where
the cursor of its column stands at that moment; the journal tells the row that is worked on, the column, and
that place.
-/

namespace Cotangent.Cholesky

variable {α : Type} [Scalar α]

/-- A number stored in `L` while a row is worked on. -/
structure Write where
  row : Nat
  column : Nat
  /-- The number of the position that is filled: where the cursor of the column stands. -/
  place : Nat
  deriving DecidableEq, Repr

/-- Column `i` eliminated from row `k`. -/
def eliminateNoted (starts rows : Array Nat) (k : Nat) (acc : (Partial α × α) × List Write) (i : Nat) :
    (Partial α × α) × List Write :=
  (eliminate starts rows acc.1 i, acc.2 ++ [⟨k, i, acc.1.1.next.getD i 0⟩])

/-- The end of row `k`: its diagonal entry is stored if it is large enough, and if not the dense row is
cleared. -/
def settleNoted (tolerance : α) (k : Nat) (reach : List Nat) (acc : (Partial α × α) × List Write) :
    Except Error Unit × Partial α × List Write :=
  let ((s, d), writes) := acc
  if Scalar.le d tolerance then
    (.error (.factorization .numeric (.notPositiveDefinite k (Scalar.scientific d))),
      { s with work := reach.foldl (fun work i => work.setIfInBounds i 0) s.work }, writes)
  else
    (.ok (),
      { s with
        values := s.values.setIfInBounds (s.next.getD k 0) (Scalar.sqrt d)
        next := s.next.modify k (· + 1) },
      writes ++ [⟨k, k, s.next.getD k 0⟩])

/-- Row `k` (`CholeskyBackend.numeric`). -/
def factorRowNoted (p : Analysis) (values : Array α) (tolerance : α) (k : Nat) :
    Run (Partial α × List Write) Unit := fun (s, writes) =>
  let (reach, mark) := EliminationTree.rowReach p.upper p.parent k s.mark
  match load p values k s.work with
  | .error e => (.error e, s, writes)
  | .ok work =>
    let loaded := { s with work := work.setIfInBounds k 0, mark := mark }
    settleNoted tolerance k reach
      (reach.foldl (eliminateNoted p.lower.colPtrs.toArray p.lower.rowIndices.toArray k)
        ((loaded, work.getD k 0), writes))

end Cotangent.Cholesky
