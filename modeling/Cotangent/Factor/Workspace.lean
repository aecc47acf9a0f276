import Cotangent.Factor.CheckedLU

/-!
The search of the sparse LU factorization as it goes through its workspace: marks, a stack and a list
of finished rows that all searches share. Only that list is cleared at the beginning, so a search
relies on the stack that the search before it has left. Every index is checked, and a loop that is not
over when its turns are ends the search with `outOfRange`.
-/

namespace Cotangent.SparseLU

/-- What is kept from search to search (`LuWorkspace`). -/
structure Workspace extends Reach.State where
  /-- Rows, each with the number of entries of its column of `L` looked at, the last one first. -/
  stack : List (Nat × Nat)
  deriving DecidableEq, Repr

variable {α : Type}

/-- One turn for the row on top of the stack: a row of its column of `L` that is not marked yet goes on
top, and a row whose column is looked at leaves the stack and is finished. -/
def Partial.turn? (s : Partial α) (stamp row looked : Nat) (below : List (Nat × Nat))
    (found : Reach.State) : Except Error Workspace := do
  match (← s.lowerOf? row)[looked]? with
  | some (child, _) =>
    if (← readAt found.mark child) = stamp then return ⟨found, (row, looked + 1) :: below⟩
    else
      let mark ← writeAt found.mark child stamp
      return ⟨{ found with mark }, (child, 0) :: (row, looked + 1) :: below⟩
  | none => return ⟨{ found with finished := row :: found.finished }, below⟩

/-- Turns until the stack is empty. -/
def Partial.drain? (s : Partial α) (stamp : Nat) : Nat → Workspace → Except Error Workspace
  | _, ⟨found, []⟩ => return ⟨found, []⟩
  | 0, ⟨_, _ :: _⟩ => throw .outOfRange
  | turns + 1, ⟨found, (row, looked) :: below⟩ =>
    s.turn? stamp row looked below found >>= s.drain? stamp turns

/-- A row to start from goes on the stack, unless it is marked already. -/
def Partial.enter? (s : Partial α) (stamp turns : Nat) (ws : Workspace) (start : Nat) :
    Except Error Workspace := do
  if (← readAt ws.mark start) = stamp then return ws
  else
    s.drain? stamp turns { ws with
      mark := ← writeAt ws.mark start stamp
      stack := (start, 0) :: ws.stack }

/-- The rows that take part in a column with entries in the rows `starts`, the last finished first
(`reach`). -/
def Partial.search? (s : Partial α) (stamp turns : Nat) (starts : List Nat) (ws : Workspace) :
    Except Error (List Nat × Workspace) := do
  let ws ← starts.foldlM (s.enter? stamp turns) { ws with finished := [] }
  return (ws.finished, ws)

end Cotangent.SparseLU
