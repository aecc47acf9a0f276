/-!
Depth-first reachability over numbered vertices. A vertex is marked with the stamp of the search
when it is first met, and finished when all its successors are; `reach` lists the vertices met from
some starts, the last finished first, so that every vertex stands before its successors when there
is no cycle.
-/

namespace Cotangent.Reach

/-- A vertex whose successors are being visited, with those that are left. -/
structure Frame where
  vertex : Nat
  /-- Successors not looked at yet. -/
  left : List Nat
  deriving DecidableEq, Repr

/-- Marks of all vertices, and the finished ones, the last finished first. -/
structure State where
  /-- The stamp of the last search that met each vertex. -/
  mark : Array Nat
  finished : List Nat
  deriving DecidableEq, Repr

/-- The vertex carries the stamp. -/
def State.met (s : State) (stamp v : Nat) : Bool := s.mark.getD v stamp = stamp

/-- The vertex gets the stamp. -/
def State.meet (s : State) (stamp v : Nat) : State :=
  { s with mark := s.mark.setIfInBounds v stamp }

/-- The search from a stack of frames, `fuel` steps at most. -/
def visit (next : Nat → List Nat) (stamp : Nat) : Nat → List Frame → State → State
  | 0, _, s => s
  | _ + 1, [], s => s
  | fuel + 1, ⟨v, []⟩ :: stack, s =>
    visit next stamp fuel stack { s with finished := v :: s.finished }
  | fuel + 1, ⟨v, w :: left⟩ :: stack, s =>
    if s.met stamp w then visit next stamp fuel (⟨v, left⟩ :: stack) s
    else visit next stamp fuel (⟨w, next w⟩ :: ⟨v, left⟩ :: stack) (s.meet stamp w)

/-- The search from one start, unless it is met already. -/
def fromStart (next : Nat → List Nat) (stamp fuel : Nat) (s : State) (start : Nat) : State :=
  if s.met stamp start then s
  else visit next stamp fuel [⟨start, next start⟩] (s.meet stamp start)

/-- Enough steps to finish every vertex once and look at every successor once. -/
def steps (next : Nat → List Nat) (n : Nat) : Nat :=
  ((List.range n).flatMap next).length + n + 1

/-- The vertices reachable from the starts, and the marks after the search (`reach`). -/
def reach (next : Nat → List Nat) (stamp : Nat) (starts : List Nat) (mark : Array Nat) : State :=
  starts.foldl (fromStart next stamp (steps next mark.size)) ⟨mark, []⟩

end Cotangent.Reach
