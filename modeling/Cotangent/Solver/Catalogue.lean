import Cotangent.Solver.BuiltIn

/-!
The catalogue of backends: for every name a line of documentation and a way to make a backend. The
later of two registrations under one name counts, also for the names of the library's own backends.
-/

namespace Cotangent

/-- A registered kind of backend (`BackendEntry`). -/
structure CatalogueEntry (α β : Type) where
  doc : String
  /-- A new backend. -/
  make : Options α → β

/-- Kinds of backends by name. -/
structure Catalogue (α β : Type) where
  /-- Names, each at most once, and what they stand for. -/
  entries : List (String × CatalogueEntry α β)

namespace Catalogue

variable {α β : Type}

/-- The entry under a name. -/
def find? (c : Catalogue α β) (name : String) : Option (CatalogueEntry α β) :=
  c.entries.lookup name

/-- There is an entry under the name (`has_backend`). -/
def contains (c : Catalogue α β) (name : String) : Bool := (c.find? name).isSome

/-- The entry under a name that has to exist (`load_backend`, `backend_doc`). -/
def find (c : Catalogue α β) (name : String) : Except Error (CatalogueEntry α β) :=
  match c.find? name with
  | some entry => .ok entry
  | none => .error (.backendNotFound name)

/-- A kind of backend put under a name, in place of one that has it already (`register_backend`). -/
def register (c : Catalogue α β) (name doc : String) (make : Options α → β) : Catalogue α β :=
  ⟨(name, ⟨doc, make⟩) :: c.entries.filter (·.1 ≠ name)⟩

/-- All names in order (`backend_names`). -/
def names (c : Catalogue α β) : List String :=
  (c.entries.map (·.1)).mergeSort fun a b => !(b < a)

/-- A new backend of the kind under a name (`create_backend`). -/
def create (c : Catalogue α β) (name : String) (options : Options α) : Except Error β :=
  (c.find name).map (·.make options)

/-- The four factorizations of the library (`builtin_backends`). -/
def builtIn [Scalar α] (wrap : BuiltIn α → β) : Catalogue α β where
  entries :=
    [("lu", ⟨"Dense LU factorization with partial pivoting", fun o => wrap (.denseLU (.new o))⟩),
      ("sparse_lu", ⟨"Left-looking sparse LU factorization with partial pivoting",
        fun o => wrap (.sparseLU (.new o))⟩),
      ("qr", ⟨"Dense Householder QR with column pivoting; reveals numerical rank",
        fun o => wrap (.qr (.new o))⟩),
      ("cholesky", ⟨"Sparse Cholesky factorization for symmetric positive definite matrices",
        fun o => wrap (.cholesky (.new o))⟩)]

end Catalogue

end Cotangent
