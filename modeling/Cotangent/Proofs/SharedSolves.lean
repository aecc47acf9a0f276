import Mathlib.Logic.Relation
import Cotangent.Proofs.Derivatives

/-! A solve operation may be shared. Whatever it was asked before, by programs of any graphs or
directly, with any matrices, and whether these calls succeeded or not, it answers every request as a
new operation of the same kind, on the same pattern, would. The argument is that a remembered
factorization is the one that a new backend would arrive at: every step of a session keeps this, and so
does every request made outside of programs. -/
namespace Cotangent

variable {α σ ω : Type}

/-! ### Requests -/

/-- What an operation can be asked. -/
inductive Operation.Request (α : Type) where
  | evaluate (operands : List (DenseMatrix α))
  | forward (operands : List (DenseMatrix α)) (output : DenseMatrix α) (seeds : List (DenseMatrix α))
  | adjoint (operands : List (DenseMatrix α)) (output seed : DenseMatrix α)
  | forwardBatch (operands : List (DenseMatrix α)) (output : DenseMatrix α)
      (seeds : List (List (DenseMatrix α)))
  | adjointBatch (operands : List (DenseMatrix α)) (output : DenseMatrix α)
      (seeds : List (DenseMatrix α))

/-- What it can answer. -/
inductive Operation.Reply (α : Type) where
  | result (x : DenseMatrix α)
  | contributions (xs : List (Option (DenseMatrix α)))
  | results (xs : List (DenseMatrix α))
  | contributionLists (xs : List (List (Option (DenseMatrix α))))
  deriving DecidableEq

/-- A request made to an operation. -/
def Operation.ask (op : Operation α σ) : Request α → Run σ (Reply α)
  | .evaluate xs => .result <$> op.evaluate xs
  | .forward xs y seeds => .result <$> op.forward xs y seeds
  | .adjoint xs y seed => .contributions <$> op.adjoint xs y seed
  | .forwardBatch xs y seeds => .results <$> op.forwardBatch xs y seeds
  | .adjointBatch xs y seeds => .contributionLists <$> op.adjointBatch xs y seeds

/-- The store after a computation on a cell that is there. -/
theorem Store.after_onCell {β γ : Type} {s : Store α β ω} {k : Nat} {c : SolveCell α β}
    (held : s.cells[k]? = some c) (act : Run (SolveCell α β × ω) γ) :
    (Store.onCell k act s).2 =
      ⟨s.cells.setIfInBounds k (act (c, s.world)).2.1, (act (c, s.world)).2.2⟩ := by
  simp only [Store.onCell, held]
  rfl

namespace Solve

section Kept

variable {β γ δ : Type} [Scalar α] [Backend α ω β] {op : Solve} {s : Store α β ω}
  {P : Store α β ω → Prop}

omit [Scalar α] [Backend α ω β] in
/-- A check before a step. -/
theorem check_keeps (holds : P s) (x : Except Error γ) {next : γ → Run (Store α β ω) δ}
    (later : ∀ y, P (next y s).2) : P ((Run.ofExcept x >>= next) s).2 := by
  cases x with
  | error e => exact holds
  | ok y => exact later y

variable (solved : ∀ s a rhs opposite, P s → P (op.solveWith a rhs opposite s).2) (holds : P s)

include solved holds

theorem forwardBatch_keeps (xs : List (DenseMatrix α)) (y : DenseMatrix α)
    (seeds : List (List (DenseMatrix α))) : P (op.forwardBatch xs y seeds s).2 := by
  refine check_keeps holds _ fun _ => ?_
  split
  · exact holds
  refine check_keeps holds _ fun _ => check_keeps holds _ fun rhs => check_keeps holds _ fun a => ?_
  rw [Run.after_last]
  exact solved s a rhs false holds

theorem adjointBatch_keeps (xs : List (DenseMatrix α)) (y : DenseMatrix α)
    (seeds : List (DenseMatrix α)) : P (op.adjointBatch xs y seeds s).2 := by
  refine check_keeps holds _ fun _ => ?_
  split
  · exact holds
  refine check_keeps holds _ fun rhs => check_keeps holds _ fun a => ?_
  rw [Run.after_last]
  exact solved s a rhs true holds

/-- What the solution of a system keeps, every request keeps. -/
theorem ask_keeps (r : Operation.Request α) : P (op.operation.ask r s).2 := by
  cases r with
  | evaluate xs =>
    rw [Operation.ask, Run.after_map]
    exact check_keeps holds _ fun _ => check_keeps holds _ fun a => check_keeps holds _ fun b =>
      solved s a b false holds
  | forward xs y seeds =>
    rw [Operation.ask, Run.after_map]
    change P ((op.forwardBatch xs y [seeds] >>= fun ms => Run.ofExcept (last "forward" ms)) s).2
    rw [Run.after_last]
    exact forwardBatch_keeps solved holds xs y [seeds]
  | adjoint xs y seed =>
    rw [Operation.ask, Run.after_map]
    change P ((op.adjointBatch xs y [seed] >>= fun cs => Run.ofExcept (last "adjoint" cs)) s).2
    rw [Run.after_last]
    exact adjointBatch_keeps solved holds xs y [seed]
  | forwardBatch xs y seeds =>
    rw [Operation.ask, Run.after_map]
    exact forwardBatch_keeps solved holds xs y seeds
  | adjointBatch xs y seeds =>
    rw [Operation.ask, Run.after_map]
    exact adjointBatch_keeps solved holds xs y seeds

end Kept

variable [Scalar α] {op : Solve} {b : BuiltIn α} {s t : Store α (BuiltIn α) ω}

/-- Every request is made of oblivious ones. -/
theorem oblivious_ask [ExactEq α] {plugin : String} (made : s.made op.cell = some (op.pattern, plugin))
    (r : Operation.Request α) :
    ((op.operation : Operation α (Store α (BuiltIn α) ω)).ask r).Oblivious s.Extends := by
  have calls := oblivious made
  cases r with
  | evaluate xs => exact (calls.evaluate xs).map _
  | forward xs y seeds => exact .map (.bind (calls.forwardBatch xs y [seeds]) fun _ => .ofExcept _) _
  | adjoint xs y seed => exact .map (.bind (calls.adjointBatch xs y [seed]) fun _ => .ofExcept _) _
  | forwardBatch xs y seeds => exact (calls.forwardBatch xs y seeds).map _
  | adjointBatch xs y seeds => exact (calls.adjointBatch xs y seeds).map _

/-- The operation has a cell, and the cell is what became of a new backend. -/
def Held (op : Solve) (b : BuiltIn α) (s : Store α (BuiltIn α) ω) : Prop :=
  ∃ c, s.cells[op.cell]? = some c ∧ c.Faithful b op.pattern

section Alike

variable [ExactEq α] {k : Nat} (here : op.Held b s) (there : ({ op with cell := k } : Solve).Held b t)

include here there

theorem solveWith_alike (a rhs : DenseMatrix α) (opposite : Bool) :
    Run.Agree (op.solveWith a rhs opposite) (({ op with cell := k } : Solve).solveWith a rhs opposite)
      s t fun _ _ => True := by
  obtain ⟨c, held, faithful⟩ := here
  obtain ⟨c', held', faithful'⟩ := there
  apply Run.Agree.of_outcome
  rw [(solveWith_held held faithful a rhs opposite).1, (solveWith_held held' faithful' a rhs opposite).1]
  rfl

theorem forwardBatch_alike (xs : List (DenseMatrix α)) (y : DenseMatrix α)
    (seeds : List (List (DenseMatrix α))) :
    Run.Agree (op.forwardBatch xs y seeds) (({ op with cell := k } : Solve).forwardBatch xs y seeds)
      s t fun _ _ => True := by
  refine .check _ fun _ _ => ?_
  by_cases nothing : seeds.isEmpty = true
  · rw [if_pos nothing, if_pos nothing]
    exact ⟨rfl, trivial⟩
  · rw [if_neg nothing, if_neg nothing]
    refine .check (seeds.mapM (op.direction y)) fun _ _ => .check _ fun rhs _ => .check _ fun a _ => ?_
    exact (solveWith_alike here there a rhs false).bind fun x _ _ _ => .of_outcome rfl

theorem adjointBatch_alike (xs : List (DenseMatrix α)) (y : DenseMatrix α)
    (seeds : List (DenseMatrix α)) :
    Run.Agree (op.adjointBatch xs y seeds) (({ op with cell := k } : Solve).adjointBatch xs y seeds)
      s t fun _ _ => True := by
  refine .check _ fun _ _ => ?_
  by_cases nothing : seeds.isEmpty = true
  · rw [if_pos nothing, if_pos nothing]
    exact ⟨rfl, trivial⟩
  · rw [if_neg nothing, if_neg nothing]
    refine .check _ fun rhs _ => .check _ fun a _ => ?_
    exact (solveWith_alike here there a rhs true).bind fun x _ _ _ => .of_outcome rfl

/-- Two operations that differ in their cells only answer every request alike. -/
theorem ask_alike (r : Operation.Request α) :
    (op.operation.ask r s).1 = (({ op with cell := k } : Solve).operation.ask r t).1 := by
  cases r with
  | evaluate xs =>
    have alike : Run.Agree (op.evaluate xs) (({ op with cell := k } : Solve).evaluate xs) s t
        fun _ _ => True :=
      .check _ fun _ _ => .check _ fun a _ => .check _ fun rhs _ =>
        solveWith_alike here there a rhs false
    exact (alike.map _).outcome
  | forward xs y seeds =>
    have alike : Run.Agree (op.operation.forward xs y seeds)
        (({ op with cell := k } : Solve).operation.forward xs y seeds) s t fun _ _ => True :=
      (forwardBatch_alike here there xs y [seeds]).bind fun _ _ _ _ => .of_outcome rfl
    exact (alike.map _).outcome
  | adjoint xs y seed =>
    have alike : Run.Agree (op.operation.adjoint xs y seed)
        (({ op with cell := k } : Solve).operation.adjoint xs y seed) s t fun _ _ => True :=
      (adjointBatch_alike here there xs y [seed]).bind fun _ _ _ _ => .of_outcome rfl
    exact (alike.map _).outcome
  | forwardBatch xs y seeds => exact ((forwardBatch_alike here there xs y seeds).map _).outcome
  | adjointBatch xs y seeds => exact ((adjointBatch_alike here there xs y seeds).map _).outcome

end Alike

/-- A new operation has a new cell. -/
theorem create_eq_ok {plugin : String} {pattern : Pattern} {transposed : Bool}
    (created : Solve.create (.builtIn id) plugin pattern transposed s = .ok (op, t)) :
    op = ⟨s.cells.size, pattern, transposed⟩ ∧ pattern.ncols = pattern.nrows ∧
      ∃ b, (Catalogue.builtIn id).create plugin (.default : Options α) = .ok b := by
  obtain ⟨square, rfl, b, found, -⟩ := create_cases created
  exact ⟨rfl, square, b, found⟩

/-- An operation can be made next to any others. -/
theorem exists_create {plugin : String} {pattern : Pattern} (transposed : Bool)
    (square : pattern.ncols = pattern.nrows)
    (found : (Catalogue.builtIn id).create plugin (.default : Options α) = .ok b)
    (s : Store α (BuiltIn α) ω) :
    ∃ t, Solve.create (.builtIn id) plugin pattern transposed s =
        .ok (⟨s.cells.size, pattern, transposed⟩, t) ∧
      (⟨s.cells.size, pattern, transposed⟩ : Solve).Held b t := by
  have square' : pattern.isSquare = true := beq_iff_eq.mpr square.symm
  have built : Solver.create (.builtIn id) "solve" plugin pattern (.default : Options α) = .ok _ :=
    Outcome.map_eq_ok.mpr ⟨b, found, rfl⟩
  refine ⟨_, by rw [Solve.create, if_pos square', built]; rfl, _, Array.getElem?_push_size, ?_⟩
  exact ⟨square, Slot.faithful_new (Store.renewed_create found), rfl, nofun⟩

end Solve

/-! ### Sessions in which operations are shared -/

namespace Session

/-- Something a user does: a step of the session, or a request made directly to a solve operation. -/
inductive Use [Scalar α] (s : Session α ω) : Session α ω → Prop
  | step {s' : Session α ω} (done : s.Step s') : Use s s'
  | ask {op : Solve} (member : op ∈ s.solves) (r : Operation.Request α) :
    Use s { s with store := (op.operation.ask r s.store).2 }

variable [Scalar α] {s t u : Session α ω}

/-- A session after any uses, failures included. -/
def Later (s t : Session α ω) : Prop := Relation.ReflTransGen Use s t

/-- What holds whatever is asked of shared operations. -/
structure Shared (s : Session α ω) : Prop where
  graphs : ∀ g ∈ s.graphs, g.Assembled s.solves
  faithful : s.Faithful

theorem Shared.start (world : ω) : (⟨[], [], [], ⟨#[], world⟩⟩ : Session α ω).Shared :=
  ⟨nofun, nofun, nofun, nofun⟩

variable [ExactEq α]

/-- A step adds cells, and cells stay what they were made for. -/
theorem Faithful.extends (faithful : s.Faithful) (done : s.Step t) : s.store.Extends t.store := by
  cases done with
  | graph | symbol | constant | apply | compile => exact .refl faithful.store
  | solve created => exact (faithful.store.create created).1
  | call member c => exact ((faithful.programs _ member).run faithful.makes c).1

theorem Shared.use (shared : s.Shared) (use : s.Use t) : t.Shared ∧ s.store.Extends t.store := by
  obtain ⟨graphs, faithful⟩ := shared
  cases use with
  | step done =>
    exact ⟨⟨done.assembled graphs, faithful.step graphs done⟩, faithful.extends done⟩
  | ask member r =>
    obtain ⟨plugin, made⟩ := faithful.makes _ member
    have here : s.store.Extends s.store := .refl faithful.store
    have after := (Solve.oblivious_ask made r s.store s.store ⟨here, here⟩).2.1
    exact ⟨⟨graphs, faithful.extend (List.Subset.refl s.solves) after (faithful.makes.later after)⟩,
      after⟩

theorem Shared.later (shared : s.Shared) (later : s.Later t) :
    t.Shared ∧ s.store.Extends t.store := by
  induction later with
  | refl => exact ⟨shared, .refl shared.faithful.store⟩
  | tail _ use ih =>
    obtain ⟨shared', after⟩ := ih.1.use use
    exact ⟨shared', ih.2.trans after⟩

/-- Remembered factorizations are invisible. Take a solve operation and any later session: whatever
was asked of the operation in between, by programs or directly, it answers every request as an
operation made anew with the same backend, pattern and transposition would, next to whatever other
cells. Its cell remembers values only while it holds the factors of these values on the pattern that
such a new backend computes. -/
theorem remembered_factors_invisible {world : ω} {plugin : String} {pattern : Pattern}
    {transposed : Bool} {op : Solve} {store : Store α (BuiltIn α) ω}
    (before : Later ⟨[], [], [], ⟨#[], world⟩⟩ s)
    (created : Solve.create (.builtIn id) plugin pattern transposed s.store = .ok (op, store))
    (later : Later { s with solves := op :: s.solves, store := store } u) :
    (∀ others : Store α (BuiltIn α) ω, ∃ new store',
      Solve.create (.builtIn id) plugin pattern transposed others = .ok (new, store') ∧
        ∀ r : Operation.Request α,
          (op.operation.ask r u.store).1 = (new.operation.ask r store').1) ∧
    ∃ b c, (Catalogue.builtIn id).create plugin (.default : Options α) = .ok b ∧
      u.store.cells[op.cell]? = some c ∧ ∀ v, c.factored = some v →
        c.solver.primary.phase = .factored ∧ c.solver.primary.pattern = pattern ∧
          ∃ a : SparseMatrix α, a.pattern = pattern ∧ a.values = v ∧
            b.factored a = .ok c.solver.primary.backend := by
  obtain ⟨rfl, square, b, found⟩ := Solve.create_eq_ok created
  have shared := ((Shared.start world).later before).1
  have made := (shared.faithful.store.create created).2
  have after := (shared.use (.step (.solve created))).1.later later
  obtain ⟨c, held, same⟩ := Option.map_eq_some_iff.mp (after.2.made _ _ made)
  obtain ⟨rfl, rfl⟩ := Prod.mk.inj same
  obtain ⟨b', found', faithful⟩ :=
    after.1.faithful.store c (Array.mem_of_getElem? held)
  obtain rfl : b' = b := Except.ok.inj (found'.symm.trans found)
  refine ⟨fun others => ?_, b', c, found, held, fun v remembered => ?_⟩
  · obtain ⟨store', created', fresh⟩ := Solve.exists_create transposed square found others
    exact ⟨_, store', created', Solve.ask_alike ⟨c, held, faithful⟩ fresh⟩
  · obtain ⟨a, values, holds⟩ := faithful.factored v remembered
    have on := faithful.pattern
    exact ⟨holds.phase, on, a, holds.pattern.symm.trans on, values, holds.factors⟩

/-- After a matrix that is refused, the next one is solved as if it came first. -/
theorem remembered_factors_invisible_retry :
    ∃ (s u : Session Int Unit) (op : Solve) (store : Store Int (BuiltIn Int) Unit),
      Later ⟨[], [], [], ⟨#[], ()⟩⟩ s ∧
      Solve.create (.builtIn id) "lu" (.dense 1 1) false s.store = .ok (op, store) ∧
      Later { s with solves := op :: s.solves, store := store } u ∧
      (op.operation.ask (.evaluate [.scalar 0, .scalar 1]) store).1 =
        .error (.factorization .numeric (.zeroPivot 0 "0")) ∧
      u.store = (op.operation.ask (.evaluate [.scalar 0, .scalar 1]) store).2 ∧
      (op.operation.ask (.evaluate [.scalar 1, .scalar 7]) u.store).1 = .ok (.result (.scalar 7)) := by
  have created : Solve.create (.builtIn id : Catalogue Int (BuiltIn Int)) "lu" (.dense 1 1) false
      (⟨#[], ()⟩ : Store Int (BuiltIn Int) Unit) = .ok (_, _) := rfl
  refine ⟨_, _, _, _, .refl, created, .tail .refl (.ask List.mem_cons_self _), ?_, rfl, ?_⟩
  · decide +kernel
  · obtain ⟨new, store', made, same⟩ := (remembered_factors_invisible .refl created
      (.tail .refl (.ask List.mem_cons_self (.evaluate [.scalar 0, .scalar 1])))).1 ⟨#[], ()⟩
    rw [same]
    cases created.symm.trans made
    decide +kernel

end Session

end Cotangent
