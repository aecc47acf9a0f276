import Cotangent.Factor.SparseLU

/-!
The columns of the sparse LU factorization with every index checked. A column here is read from the
flat form of the matrix; the search keeps rows and counts on its stack and reads the step of a row
and its column of `L` anew at every turn; a row's entry of `L` is taken and its place in the dense
column cleared in one loop. An index outside its array ends the column with `outOfRange`, apart from
the outcome that the column itself has, and so does a search that is not over when its turns are.
-/

namespace Cotangent

/-- The element at an index, which has to be inside. -/
def readAt {β : Type} (xs : Array β) (i : Nat) : Except Error β :=
  match xs[i]? with
  | some x => .ok x
  | none => .error .outOfRange

/-- The array with another element at an index, which has to be inside. -/
def writeAt {β : Type} (xs : Array β) (i : Nat) (x : β) : Except Error (Array β) :=
  if i < xs.size then .ok (xs.setIfInBounds i x) else .error .outOfRange

namespace SparseLU

variable {α : Type}

/-- The column of `L` of a row that became a pivot. -/
def Partial.lowerOf? (s : Partial α) (row : Nat) : Except Error (List (Nat × α)) := do
  match ← readAt s.step row with
  | some j => readAt s.lower j
  | none => return []

/-- The search from a stack of rows, each with the number of successors looked at. It has to be over
after `fuel` turns. -/
def Partial.visit? (s : Partial α) (stamp : Nat) :
    Nat → List (Nat × Nat) → Reach.State → Except Error Reach.State
  | _, [], found => .ok found
  | 0, _ :: _, _ => .error .outOfRange
  | fuel + 1, (row, looked) :: stack, found => do
    match (← s.lowerOf? row)[looked]? with
    | some (child, _) =>
      if (← readAt found.mark child) = stamp then
        s.visit? stamp fuel ((row, looked + 1) :: stack) found
      else
        let mark ← writeAt found.mark child stamp
        s.visit? stamp fuel ((child, 0) :: (row, looked + 1) :: stack) { found with mark }
    | none => s.visit? stamp fuel stack { found with finished := row :: found.finished }

/-- The search from one start, unless it is met already. -/
def Partial.fromStart? (s : Partial α) (stamp fuel : Nat) (found : Reach.State) (start : Nat) :
    Except Error Reach.State := do
  if (← readAt found.mark start) = stamp then return found
  else
    let mark ← writeAt found.mark start stamp
    s.visit? stamp fuel [(start, 0)] { found with mark }

/-- Rows that take part in column `k` (`reach`). -/
def Partial.reach? (s : Partial α) (k : Nat) (starts : List Nat) : Except Error Reach.State :=
  let next := fun row => (s.lowerOf row).map (·.1)
  starts.foldlM (s.fromStart? (k + 1) (Reach.steps next s.mark.size)) ⟨s.mark, []⟩

/-- The rows of a column and their values, from number `start` on, put into the dense column. -/
def Partial.load? (s : Partial α) (values : Array α) (start : Nat) (rows : List Nat) :
    Except Error (Array α) :=
  rows.zipIdx.foldlM (fun work (row, p) => do writeAt work row (← readAt values (start + p))) s.work

variable [Scalar α]

/-- A row that became a pivot gives its entry to `U` and takes its column of `L` off the others. -/
def Partial.substitute? (s : Partial α) (acc : Array α × List (Nat × α)) (row : Nat) :
    Except Error (Array α × List (Nat × α)) := do
  match ← readAt s.step row with
  | none => return acc
  | some j =>
    let x ← readAt acc.1 row
    if Scalar.isZero x then return (acc.1, (j, x) :: acc.2)
    else
      let take (work : Array α) (cell : Nat × α) : Except Error (Array α) := do
        writeAt work cell.1 ((← readAt work cell.1) - cell.2 * x)
      let work ← (← readAt s.lower j).foldlM take acc.1
      return (work, (j, x) :: acc.2)

/-- The first row not pivoted yet with the largest magnitude, and that magnitude. -/
def Partial.pivot? (s : Partial α) (work : Array α) (rows : List Nat) :
    Except Error (Option Nat × α) :=
  let better (best : Option Nat × α) (row : Nat) : Except Error (Option Nat × α) := do
    match ← readAt s.step row with
    | some _ => return best
    | none =>
      let magnitude := Scalar.abs (← readAt work row)
      if best.1.isNone || Scalar.lt best.2 magnitude then return (some row, magnitude)
      else return best
  rows.foldlM better (none, 0)

/-- A row that is not pivoted yet gives its entry to `L`; its place in the dense column is cleared
in any case. -/
def collect? (step : Array (Option Nat)) (pivot : α) (acc : Array α × List (Nat × α)) (row : Nat) :
    Except Error (Array α × List (Nat × α)) := do
  match ← readAt step row with
  | some _ => return (← writeAt acc.1 row 0, acc.2)
  | none =>
    let v ← readAt acc.1 row
    let lower := if Scalar.isZero v then acc.2 else acc.2 ++ [(row, v / pivot)]
    return (← writeAt acc.1 row 0, lower)

/-- Column `k` (`SparseLuBackend.numeric`). The outcome of the column and the state after it are those
of `eliminate`, unless an index is out of range on the way. -/
def eliminate? (a : SparseMatrix α) (tolerance : α) (k : Nat) (s : Partial α) :
    Except Error (Except Error Unit × Partial α) := do
  let rows ← Pattern.stretch a.pattern.colPtrs.toArray a.pattern.rowIndices.toArray k
  let start ← readAt a.pattern.colPtrs.toArray k
  let found ← s.reach? k rows
  let loaded ← s.load? a.values start rows
  let (work, upper) ← found.finished.foldlM s.substitute? (loaded, [])
  let (pivotRow, magnitude) ← s.pivot? work found.finished
  match pivotRow.filter fun _ => Scalar.lt tolerance magnitude with
  | none =>
    let cleared ← found.finished.foldlM (fun work row => writeAt work row 0) work
    return (.error (.factorization .numeric (.zeroPivot k (Scalar.scientific magnitude))),
      { s with work := cleared, mark := found.mark })
  | some row =>
    let pivot ← readAt work row
    let step ← writeAt s.step row (some k)
    let (cleared, lower) ← found.finished.foldlM (collect? step pivot) (work, [])
    return (.ok (),
      { lower := s.lower.push lower
        upper := s.upper.push (upper.mergeSort fun a b => a.1 ≤ b.1)
        diagonal := s.diagonal.push pivot
        step := step
        work := cleared
        mark := found.mark })

end SparseLU

end Cotangent
