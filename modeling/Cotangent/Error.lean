/-!
Why a computation is refused. Each constructor names a cause and carries what the reader needs to
find it; the wording stands in `message` alone. `Run` is a computation that reads and changes a
state and may fail, where a failure keeps the changes made before it.

Here and in the other modules, a name in parentheses in a comment is that of the function or type
which the definition embeds.
-/

namespace Cotangent

/-- Numbers in brackets. -/
def listText (xs : List Nat) : String := "[" ++ ", ".intercalate (xs.map Nat.repr) ++ "]"

/-- A node of an expression graph, by its position in the arena. -/
structure NodeId where
  index : Nat
  deriving DecidableEq, Repr

/-- The three stages of a factorization (`FactorStage`). -/
inductive Stage where
  | symbolic
  | numeric
  | solve
  deriving DecidableEq, Repr

/-- The stage in messages (`FactorStage.name`). -/
def Stage.name : Stage → String
  | symbolic => "sfact"
  | numeric => "nfact"
  | solve => "solve"

/-- Why a factorization or a solve is rejected. -/
inductive Reason where
  | notSquare (nrows ncols : Nat)
  /-- No matrix on the pattern is invertible. -/
  | structurallySingular (rank order : Nat)
  /-- Some diagonal position is not in the pattern. -/
  | diagonalMissing
  /-- Values came before any pattern was analysed. -/
  | notAnalysed
  /-- No row offers a pivot large enough. -/
  | zeroPivot (column : Nat) (magnitude : String)
  /-- A reduced diagonal entry is not large enough. -/
  | notPositiveDefinite (column : Nat) (pivot : String)
  | rankDeficient (rank order : Nat)
  | words (text : String)
  deriving DecidableEq, Repr

def Reason.message : Reason → String
  | notSquare r c => s!"matrix must be square, got {r}x{c}"
  | structurallySingular rank n =>
    s!"pattern is structurally singular (structural rank {rank} < {n})"
  | diagonalMissing => "pattern lacks a full diagonal"
  | notAnalysed => "no symbolic factorization available"
  | zeroPivot column magnitude => s!"zero pivot in column {column} (|pivot| = {magnitude})"
  | notPositiveDefinite column pivot =>
    s!"matrix is not positive definite (pivot {pivot} in column {column})"
  | rankDeficient rank n => s!"matrix is rank deficient (rank {rank} < {n})"
  | words text => text

/-- Faults of a graph or of its declared interface. -/
inductive GraphError where
  /-- The handle is outside the arena. -/
  | unknownNode (node : NodeId)
  | inputNotSymbol (position : Nat) (node : NodeId)
  | duplicateInput (node : NodeId)
  /-- A symbol that an output needs is not declared. -/
  | freeVariable (name : String) (node : NodeId)
  | countMismatch (what : String) (expected got : Nat)
  /-- The number of operands is not the arity. -/
  | arity (operation : String) (expected got : Nat)
  deriving DecidableEq, Repr

/-- The handle in messages, with the name of its type. -/
def NodeId.text (node : NodeId) : String := s!"NodeId({node.index})"

def GraphError.message : GraphError → String
  | unknownNode node => "unknown node " ++ node.text
  | inputNotSymbol position node =>
    s!"input {position} (" ++ node.text ++ ") is not a symbol; inputs must be leaves"
  | duplicateInput node => "node " ++ node.text ++ " declared as input more than once"
  | freeVariable name node => s!"undeclared free variable '{name}' (" ++ node.text ++ ")"
  | countMismatch what expected got => s!"expected {expected} {what}, got {got}"
  | arity operation expected got => s!"operation '{operation}' takes {expected} operands, got {got}"

/-- Faults of a single argument. -/
inductive ArgumentError where
  /-- The data of a matrix do not fill its shape. -/
  | dataLength (length nrows ncols : Nat)
  /-- The column pointers are not one more than the columns. -/
  | pointerCount (length ncols : Nat)
  /-- The column pointers do not run from zero to the number of entries. -/
  | pointerSpan (entries first last : Nat)
  /-- A column ends before it starts. -/
  | pointersDecrease (column : Nat)
  | rowOutOfRange (row nrows : Nat)
  /-- A column is not strictly increasing. -/
  | rowsUnordered (column : Nat)
  | positionOutside (row column nrows ncols : Nat)
  /-- The first slot cannot be released. -/
  | primarySlot
  | noSlot (slot : Nat)
  | inputIndex (index count : Nat)
  | outputIndex (index count : Nat)
  | words (argument text : String)
  deriving DecidableEq, Repr

def ArgumentError.argument : ArgumentError → String
  | dataLength .. => "data"
  | pointerCount .. | pointerSpan .. | pointersDecrease .. => "col_ptrs"
  | rowOutOfRange .. | rowsUnordered .. => "row_indices"
  | positionOutside .. => "triplets"
  | primarySlot | noSlot .. => "mem"
  | inputIndex .. => "input"
  | outputIndex .. => "output"
  | words argument _ => argument

def ArgumentError.message : ArgumentError → String
  | dataLength length r c => s!"length {length} does not match {r}x{c} = {r * c}"
  | pointerCount length c => s!"length {length} does not match ncols + 1 = {c + 1}"
  | pointerSpan entries first last => s!"must span [0, {entries}], got [{first}, {last}]"
  | pointersDecrease column => s!"decreasing at column {column}"
  | rowOutOfRange row r => s!"row {row} out of range for {r} rows"
  | rowsUnordered column => s!"rows not strictly increasing in column {column}"
  | positionOutside row column r c => s!"({row}, {column}) outside {r}x{c}"
  | primarySlot => "slot 0 belongs to the handle and cannot be released"
  | noSlot slot => s!"no memory slot {slot}"
  | inputIndex index count => s!"index {index} out of range for {count} inputs"
  | outputIndex index count => s!"index {index} out of range for {count} outputs"
  | words _ text => text

/-- Why a computation is refused. -/
inductive Error where
  /-- A fault of a graph or of its interface. -/
  | graph (fault : GraphError)
  /-- Two sizes do not fit. -/
  | shapeMismatch (expected got : List Nat)
  /-- A factorization or a solve is rejected. -/
  | factorization (stage : Stage) (reason : Reason)
  /-- A call came in the wrong order. -/
  | precondition (text : String)
  | backendNotFound (name : String)
  /-- The backend lacks an optional capability. -/
  | notSupported (backend capability : String)
  | invalidArgument (fault : ArgumentError)
  /-- A promise between two parts of the library is broken. -/
  | internal (text : String)
  /-- An index is outside the data. -/
  | outOfRange
  /-- A size is below zero or beyond 64 bits, or an array beyond the addresses there are. -/
  | sizeOverflow
  deriving DecidableEq, Repr

namespace Error

/-- The text of an error (`fmt` of `Error`). -/
def message : Error → String
  | graph fault => "Graph error: " ++ fault.message
  | shapeMismatch expected got =>
    "Shape mismatch: expected " ++ listText expected ++ ", got " ++ listText got
  | factorization stage reason => stage.name ++ " failed: " ++ reason.message
  | precondition text => "Precondition violated: " ++ text
  | backendNotFound name => s!"Linear solver backend '{name}' not found"
  | notSupported backend capability => s!"Backend '{backend}' does not support '{capability}'"
  | invalidArgument fault => s!"Invalid argument '" ++ fault.argument ++ "': " ++ fault.message
  | internal text => "Internal error: " ++ text
  | outOfRange => "index out of range"
  | sizeOverflow => "size overflow"

/-- The stage of a rejection (`Error.stage`). -/
def stage? : Error → Option Stage
  | factorization stage _ => some stage
  | _ => none

/-- Faults of structure or size (`Error.is_graph_error`). -/
def isGraph : Error → Bool
  | graph _ | shapeMismatch .. => true
  | _ => false

/-- Faults of the order of calls (`Error.is_precondition`). -/
def isPrecondition : Error → Bool
  | precondition _ => true
  | _ => false

/-- The call has no answer: it asks for an element or for a size that does not exist. -/
def isFatal : Error → Bool
  | outOfRange | sizeOverflow => true
  | _ => false

/-- The error as a rejection at a stage: a rejection keeps its reason, any other error becomes the
reason (`at_stage`). A call without an answer passes unchanged. -/
def atStage (stage : Stage) : Error → Error
  | factorization _ reason => factorization stage reason
  | outOfRange => outOfRange
  | sizeOverflow => sizeOverflow
  | other => factorization stage (.words other.message)

end Error

/-- A computation with a state. A failure keeps the changes made before it. -/
abbrev Run (σ : Type) := ExceptT Error (StateM σ)

namespace Run

variable {σ τ β γ : Type}

/-- An outcome without effect. -/
def ofExcept (outcome : Except Error β) : Run σ β := fun s => (outcome, s)

/-- A computation on the first of two parts. -/
def onFirst (act : Run σ β) : Run (σ × τ) β := fun (s, t) =>
  let (outcome, s) := act s
  (outcome, (s, t))

/-- A computation on the second of two parts. -/
def onSecond (act : Run σ β) : Run (τ × σ) β := fun (t, s) =>
  let (outcome, s) := act s
  (outcome, (t, s))

/-- The failure, if any, changed by a function. -/
def mapError (change : Error → Error) (act : Run σ β) : Run σ β := fun s =>
  let (outcome, s) := act s
  (outcome.mapError change, s)

/-- The second computation starts from the state that the first one leaves, if it succeeds. -/
theorem bind_apply (act : Run σ β) (next : β → Run σ γ) (s : σ) :
    (act >>= next) s = match act s with
      | (.ok x, s) => next x s
      | (.error e, s) => (.error e, s) := by
  change (match act s with | (x, s) => (ExceptT.bindCont next x : StateM σ _) s) = _
  rcases act s with ⟨_ | _, _⟩ <;> rfl

end Run

/-- The element at a position that the caller does not promise to exist. -/
def elementAt {β : Type} (xs : List β) (position : Nat) : Except Error β :=
  match xs[position]? with
  | some x => .ok x
  | none => .error .outOfRange

end Cotangent
