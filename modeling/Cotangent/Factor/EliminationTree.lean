import Cotangent.Pattern.Basic

/-!
The elimination tree of a symmetric matrix. Eliminating column `j` first changes its parent: the
first column after `j` in which the factor has an entry in the row of `j`. The tree is found row by
row from the upper triangle, with short cuts to the latest ancestor known. `rowReach` follows it:
row `k` of the factor holds the columns on the paths from row `k` of the matrix towards the root.
-/

namespace Cotangent.EliminationTree

/-- Parents, and the latest known ancestor, of every column. -/
structure State where
  /-- The parent of each column, none at a root. -/
  parent : Array (Option Nat)
  /-- The latest ancestor found. -/
  ancestor : Array (Option Nat)
  deriving DecidableEq, Repr

/-- An entry of an array of options. -/
def lookup (xs : Array (Option Nat)) (j : Nat) : Option Nat := (xs[j]?).join

/-- The way from a column towards the root, below `k`: every ancestor on it becomes `k`, and a
column without ancestor gets `k` as its parent. -/
def climb (k : Nat) : Nat → Option Nat → State → State
  | 0, _, s => s
  | _ + 1, none, s => s
  | fuel + 1, some j, s =>
    if k ≤ j then s
    else
      let next := lookup s.ancestor j
      climb k fuel next
        { parent := if next.isNone then s.parent.setIfInBounds j (some k) else s.parent
          ancestor := s.ancestor.setIfInBounds j (some k) }

/-- The parents, from the rows of the upper triangle: column `k` of `upper` lists row `k` of the
lower triangle (`analyse`). -/
def parents (upper : Pattern) : Array (Option Nat) :=
  let n := upper.ncols
  let start : State := ⟨Array.replicate n none, Array.replicate n none⟩
  let row (s : State) (k : Nat) : State :=
    (upper.col k).foldl (fun s i => climb k n (some i) s) s
  ((List.range n).foldl row start).parent

/-- The way from a column towards the root, up to the first column that is marked, and the marks
with that way added. -/
def path (parent : Array (Option Nat)) (stamp : Nat) :
    Nat → Option Nat → Array Nat → List Nat × Array Nat
  | 0, _, mark => ([], mark)
  | _ + 1, none, mark => ([], mark)
  | fuel + 1, some j, mark =>
    if mark.getD j stamp = stamp then ([], mark)
    else
      let (way, mark) := path parent stamp fuel (lookup parent j) (mark.setIfInBounds j stamp)
      (j :: way, mark)

/-- The columns of row `k` of the factor without the diagonal, every column before its ancestors,
and the marks after the search (`ereach`). -/
def rowReach (upper : Pattern) (parent : Array (Option Nat)) (k : Nat) (mark : Array Nat) :
    List Nat × Array Nat :=
  let stamp := k + 1
  let entry (acc : List Nat × Array Nat) (i : Nat) : List Nat × Array Nat :=
    let (way, mark) := path parent stamp parent.size (some i) acc.2
    (way ++ acc.1, mark)
  ((upper.col k).filter (· < k)).foldl entry ([], mark.setIfInBounds k stamp)

end Cotangent.EliminationTree
