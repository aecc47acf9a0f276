import Cotangent.Proofs.Blocks
import Cotangent.Proofs.Caches

/-! A solve does not mix columns. Whatever factors a backend has, it has one rule for single columns
and one verdict, which does not look at them. So a right-hand side put together of blocks is answered
block by block, and a batch of directions is refused when a single direction is, unless the blocks
do not fit side by side. No law of arithmetic is asked for. -/
namespace Cotangent

variable {α ω : Type} [Scalar α]

/-! ### Columns -/

namespace DenseMatrix

variable {a b m : DenseMatrix α} {c d i j : Nat}

/-- The data of one column. -/
def columnData (m : DenseMatrix α) (c : Nat) : Array α :=
  m.data.extract (c * m.nrows) ((c + 1) * m.nrows)

/-- A rule for single columns, applied to each of them. -/
def mapColumns (rule : Array α → Array α) (m : DenseMatrix α) : DenseMatrix α :=
  ofColumnFn m.nrows m.ncols fun c => rule (m.columnData c)

omit [Scalar α] in
theorem columnData_within (inside : c < m.ncols) : (c + 1) * m.nrows ≤ m.data.size := by
  rw [m.size_data, Nat.mul_comm m.nrows]
  exact Nat.mul_le_mul_right _ inside

omit [Scalar α] in
theorem size_columnData (inside : c < m.ncols) : (m.columnData c).size = m.nrows := by
  rw [columnData, Array.size_extract, Nat.min_eq_left (columnData_within inside), Nat.succ_mul,
    Nat.add_sub_cancel_left]

theorem getElem?_columnData (inside : c < m.ncols) :
    (m.columnData c)[i]? = if i < m.nrows then some (m.entry i c) else none := by
  have block := columnData_within inside
  have last : (c + 1) * m.nrows = c * m.nrows + m.nrows := Nat.succ_mul c m.nrows
  rw [columnData, Array.getElem?_extract]
  split
  · next short =>
    have row : i < m.nrows := by omega
    rw [if_pos row, getElem?_data m row inside]
  · next long =>
    have row : ¬ i < m.nrows := by omega
    rw [if_neg row]

/-- Columns with the same entries have the same data. -/
theorem columnData_eq (rows : a.nrows = b.nrows) (hc : c < a.ncols) (hd : d < b.ncols)
    (same : ∀ i < a.nrows, a.entry i c = b.entry i d) : a.columnData c = b.columnData d := by
  refine Array.ext_getElem? fun i => ?_
  rw [getElem?_columnData hc, getElem?_columnData hd, ← rows]
  split
  · next row => rw [same i row]
  · rfl

theorem entry_mapColumns {rule : Array α → Array α} (hi : i < m.nrows) (hj : j < m.ncols) :
    (m.mapColumns rule).entry i j = (rule (m.columnData j)).getD i 0 :=
  entry_ofColumnFn hi hj

/-- A block without columns is not changed. -/
theorem mapColumns_of_empty (rule : Array α → Array α) (none : m.ncols = 0) :
    m.mapColumns rule = m :=
  ext_entry rfl rfl fun _ _ _ hj => absurd hj (by simp [mapColumns, ofColumnFn, ofFn, none])

/-- A rule applied to blocks side by side is applied to each of them. -/
theorem colBlock_mapColumns {rule : Array α → Array α} {blocks : List (DenseMatrix α)} {n k : Nat}
    (shapes : ∀ b ∈ blocks, b.shape = (n, k)) (joined : hcat blocks = .ok a)
    (at_d : blocks[d]? = some b) (small : (d + 1) * k < sizeLimit) :
    (a.mapColumns rule).colBlock (d * k) k = .ok (b.mapColumns rule) := by
  obtain ⟨few, same⟩ := List.getElem?_eq_some_iff.mp at_d
  have more : blocks ≠ [] := List.ne_nil_of_length_pos (Nat.zero_lt_of_lt few)
  obtain ⟨whole, entries⟩ := entry_hcat more shapes joined
  obtain ⟨rows, columns⟩ := Prod.mk.inj whole
  obtain ⟨rows', rfl⟩ := Prod.mk.inj (shapes b (List.mem_of_getElem? at_d))
  have inside : d * b.ncols + b.ncols ≤ a.ncols := by
    rw [columns, ← Nat.succ_mul]
    exact Nat.mul_le_mul_right _ few
  have room : (d * b.ncols + b.ncols) * a.nrows ≤ (a.mapColumns rule).data.size := by
    rw [size_data, Nat.mul_comm]
    exact Nat.mul_le_mul_left _ inside
  have cut : ∃ x, (a.mapColumns rule).colBlock (d * b.ncols) b.ncols = .ok x := by
    rw [colBlock, dif_pos ⟨by rwa [← Nat.succ_mul], room⟩]
    exact ⟨_, rfl⟩
  obtain ⟨x, cut⟩ := cut
  obtain ⟨shape, taken⟩ := entry_colBlock cut
  obtain ⟨rows'', columns''⟩ := Prod.mk.inj shape
  have order : a.nrows = b.nrows := rows.trans rows'.symm
  rw [cut]
  refine congrArg Except.ok (ext_entry (rows''.trans order) columns'' fun i j hi hj => ?_)
  replace hi : i < a.nrows := rows'' ▸ hi
  replace hj : j < b.ncols := columns'' ▸ hj
  have place : d * b.ncols + j < a.ncols := by omega
  rw [taken i hi j hj, entry_mapColumns (m := a) hi place, entry_mapColumns (m := b) (order ▸ hi) hj,
    columnData_eq order place hj fun i row => entries d b at_d i (rows ▸ row) j hj]

/-- A block that is all of the matrix. -/
theorem colBlock_all (small : m.ncols < sizeLimit) : m.colBlock 0 m.ncols = .ok m := by
  have within : 0 + m.ncols < sizeLimit ∧ (0 + m.ncols) * m.nrows ≤ m.data.size := by
    rw [Nat.zero_add, m.size_data, Nat.mul_comm]
    exact ⟨small, Nat.le_refl _⟩
  have cut : ∃ x, m.colBlock 0 m.ncols = .ok x := by
    rw [colBlock, dif_pos within]
    exact ⟨_, rfl⟩
  obtain ⟨x, cut⟩ := cut
  obtain ⟨shape, taken⟩ := entry_colBlock cut
  obtain ⟨rows, columns⟩ := Prod.mk.inj shape
  rw [cut]
  refine congrArg Except.ok (ext_entry rows columns fun i j hi hj => ?_)
  rw [taken i (rows ▸ hi) j (columns ▸ hj), Nat.zero_add]

end DenseMatrix

/-! ### Responses -/

/-- How right-hand sides are answered column by column: what is decided about them depends only on
whether there are columns. -/
structure Response (α : Type) where
  verdict : (empty : Bool) → Except Error Unit
  rule : Array α → Array α

namespace Response

/-- The answer for a right-hand side. -/
def answer (r : Response α) (rhs : DenseMatrix α) : Except Error (DenseMatrix α) :=
  (r.verdict (rhs.ncols == 0)).map fun _ => rhs.mapColumns r.rule

/-- The answer cut into blocks of equally many columns, each of them finished. -/
def batch {γ : Type} (r : Response α) (rhs : DenseMatrix α) (width count : Nat)
    (finish : DenseMatrix α → Except Error γ) : Except Error (List γ) := do
  let x ← r.answer rhs
  (List.range count).mapM fun d => x.colBlock (d * width) width >>= finish

variable {r : Response α} {blocks : List (DenseMatrix α)} {rhs b : DenseMatrix α} {n m d : Nat}
  {γ : Type} {finish : DenseMatrix α → Except Error γ}

/-- A batch of blocks is the blocks one after another. -/
theorem batch_eq_mapM (shapes : ∀ b ∈ blocks, b.shape = (n, m)) (more : blocks ≠ [])
    (small : m < sizeLimit) (joined : DenseMatrix.hcat blocks = .ok rhs) :
    r.batch rhs m blocks.length finish = blocks.mapM fun b => r.answer b >>= finish := by
  obtain ⟨whole, -⟩ := DenseMatrix.entry_hcat more shapes joined
  have limit : blocks.length * m < sizeLimit := by
    rcases DenseMatrix.hcat_cases more small shapes with ⟨_, -, -, limit⟩ | ⟨refused, -⟩
    · exact limit
    · cases refused.symm.trans joined
  have width (b) (member : b ∈ blocks) : (b.ncols == 0) = (m == 0) :=
    congrArg (· == 0) (congrArg Prod.snd (shapes b member))
  have alike : (rhs.ncols == 0) = (m == 0) := by
    have columns : rhs.ncols = blocks.length * m := congrArg Prod.snd whole
    rw [columns]
    cases m with
    | zero => rfl
    | succ m =>
      exact beq_false_of_ne (Nat.mul_ne_zero (List.length_pos_of_ne_nil more).ne' (Nat.succ_ne_zero m))
  unfold batch answer
  rw [alike]
  cases verdict : r.verdict (m == 0) with
  | error e =>
    obtain ⟨b, rest, rfl⟩ := List.exists_cons_of_ne_nil more
    rw [List.mapM_cons, width b List.mem_cons_self, verdict]
    rfl
  | ok _ =>
    simp only [Except.map, Outcome.ok_bind]
    refine Outcome.mapM_range fun d b at_d => ?_
    have inside : d + 1 ≤ blocks.length := (List.getElem?_eq_some_iff.mp at_d).1
    rw [DenseMatrix.colBlock_mapColumns shapes joined at_d
      ((Nat.mul_le_mul_right m inside).trans_lt limit), width b (List.mem_of_getElem? at_d), verdict]

/-- A batch of blocks is refused as each block is, and otherwise each block has its answer there. -/
theorem batch_cases (shapes : ∀ b ∈ blocks, b.shape = (n, m))
    (small : m < sizeLimit) (joined : DenseMatrix.hcat blocks = .ok rhs)
    (finishes : ∀ x : DenseMatrix α, x.shape = (n, m) → ∃ z, finish x = .ok z)
    (at_d : blocks[d]? = some b) :
    (∃ found z, r.batch rhs m blocks.length finish = .ok found ∧ found[d]? = some z ∧
      r.batch b m 1 finish = .ok [z]) ∨
    ∃ e, r.batch rhs m blocks.length finish = .error e ∧ r.batch b m 1 finish = .error e := by
  have more : blocks ≠ [] := by
    rintro rfl
    cases at_d
  have single (b) (member : b ∈ blocks) : r.batch b m 1 finish = [b].mapM fun b => r.answer b >>= finish :=
    batch_eq_mapM (by simpa using shapes b member) (List.cons_ne_nil b []) small rfl
  rw [batch_eq_mapM shapes more small joined, single b (List.mem_of_getElem? at_d)]
  have width (b) (member : b ∈ blocks) : (b.ncols == 0) = (m == 0) :=
    congrArg (· == 0) (congrArg Prod.snd (shapes b member))
  cases verdict : r.verdict (m == 0) with
  | error e =>
    have refused (b) (member : b ∈ blocks) : (r.answer b >>= finish) = .error e := by
      rw [answer, width b member, verdict]
      rfl
    obtain ⟨first, rest, rfl⟩ := List.exists_cons_of_ne_nil more
    refine .inr ⟨e, ?_, ?_⟩
    · rw [List.mapM_cons, refused first List.mem_cons_self, Outcome.error_bind]
    · rw [List.mapM_cons, refused b (List.mem_of_getElem? at_d), Outcome.error_bind]
  | ok _ =>
    have answers (b) (member : b ∈ blocks) : ∃ z, (r.answer b >>= finish) = .ok z := by
      rw [answer, width b member, verdict]
      exact finishes _ (shapes b member)
    obtain ⟨found, done⟩ := Outcome.mapM_ok_of_all answers
    obtain ⟨z, at_z, here⟩ := Outcome.exists_at_of_forall₂ (Outcome.mapM_eq_ok.mp done) at_d
    exact .inl ⟨found, z, done, at_z, by rw [List.mapM_cons, here]; rfl⟩

end Response

/-! ### Backends -/

namespace BuiltIn

variable {b : BuiltIn α} {n : Nat}

/-- What the factors of a backend do with one column. -/
def rule (b : BuiltIn α) (transposed : Bool) : Array α → Array α :=
  match b with
  | denseLU s => s.factors.elim id fun f => if transposed then f.solveColumnTransposed else f.solveColumn
  | sparseLU s => s.factors.elim id fun f => if transposed then f.solveColumnTransposed else f.solveColumn
  | qr s => s.factors.elim id fun f => if transposed then f.solveColumnTransposed else f.solveColumn
  | cholesky s => s.factor.elim id fun l b => Cholesky.solveUpper l (Cholesky.solveLower l b)

/-- The factors are good for solves: only QR refuses, if the rank is deficient. -/
def verdict : BuiltIn α → Except Error Unit
  | qr s => s.factors.elim (.ok ()) fun f =>
    if f.rank s.options < f.order then
      .error (.factorization .solve (.rankDeficient (f.rank s.options) f.order))
    else .ok ()
  | _ => .ok ()

/-- A backend with factors has a rule for single columns and a verdict. -/
theorem solve_columnwise (factored : b.Factored n) (transposed : Bool) {m : Nat} (nrhs : Nat)
    (rhs : Vector α m) : b.solve nrhs transposed rhs =
      Factor.eachColumn n nrhs (b.rule transposed) rhs >>= fun x => b.verdict.map fun _ => x := by
  have sure {m : Nat} (x : Except Error (Vector α m)) :
      (x >>= fun x => (Except.ok () : Except Error Unit).map fun _ => x) = x := by
    cases x <;> rfl
  cases factored with
  | denseLU held order =>
    simp only [solve, Staged.current, held, Outcome.ok_bind, DenseLU.solve, order, rule, Option.elim,
      verdict, sure]
  | sparseLU held order =>
    simp only [solve, Staged.current, held, Outcome.ok_bind, SparseLU.solve, order, rule, Option.elim,
      verdict, sure]
  | qr held order =>
    simp only [solve, Staged.current, held, Outcome.ok_bind, QR.solve, order, rule, Option.elim, verdict]
    refine congrArg _ (funext fun x => ?_)
    split <;> rfl
  | cholesky held order =>
    simp only [solve, Cholesky.solve, Cholesky.current, held, Outcome.ok_bind, order, rule, Option.elim,
      verdict, sure]

/-- How a backend with factors answers right-hand sides. -/
def response (b : BuiltIn α) (transposed : Bool) : Response α where
  verdict empty := if empty then .ok () else b.verdict.mapError (·.atStage .solve)
  rule := b.rule transposed

theorem answer_columnwise (factored : b.Factored n) (transposed : Bool) {rhs : DenseMatrix α}
    (rows : rhs.nrows = n) : b.answer n transposed rhs = (b.response transposed).answer rhs := by
  subst rows
  rw [answer, if_pos rfl, Response.answer, response]
  by_cases none : rhs.ncols = 0
  · simp [none, Except.map, DenseMatrix.mapColumns_of_empty]
  · obtain ⟨x, done, columns⟩ := Factor.exists_eachColumn (b.rule transposed)
      (⟨rhs.data, rhs.size_data⟩ : Vector α (rhs.nrows * rhs.ncols)) rfl
    have found : DenseMatrix.ofVector x = rhs.mapColumns (b.rule transposed) :=
      DenseMatrix.ext_entry rfl rfl fun i j hi hj =>
        (columns j hj i hi).trans (DenseMatrix.entry_mapColumns (m := rhs) hi hj).symm
    have some : (rhs.ncols == 0) = false := beq_false_of_ne none
    simp only [if_neg none, some, Bool.false_eq_true, if_false, solve_columnwise factored, done,
      Outcome.ok_bind]
    cases b.verdict with
    | error e => rfl
    | ok _ => exact congrArg Except.ok found

end BuiltIn

/-! ### Factors again -/

section Again

variable {a : SparseMatrix α}

/-- The same values on the same analysis give the same factors. -/
theorem BuiltIn.numeric_again {p : Pattern} {values : Array α} {b b' : BuiltIn α}
    (ran : numeric p values b = (.ok (), b')) : numeric p values b' = (.ok (), b') := by
  have kept := unfactored_numeric p values b
  rw [ran] at kept
  rw [← numeric_unfactored, kept, numeric_unfactored, ran]

/-- A matrix that has its factors is factorized again without a change. -/
theorem Slot.numericFactorize_again {t t' : Slot (BuiltIn α) × ω}
    (done : numericFactorize a t = (.ok (), t')) : numericFactorize a t' = (.ok (), t') := by
  have start (t : Slot (BuiltIn α) × ω) : numericFactorize a t =
      (if t.1.phase = .unfactored ∨ a.pattern ≠ t.1.pattern then
        symbolicFactorize a.pattern >>= fun _ => factorValues a.values
      else factorValues a.values) t := rfl
  have values (s : Slot (BuiltIn α)) (w : ω) (pattern : s.pattern = a.pattern) :
      Run.Post (factorValues a.values) (s, w) (fun _ t => numericFactorize a t = (.ok (), t))
        fun _ _ => True := by
    simp only [Run.Post, factorValues, Backend.numeric, Run.onFirst]
    rcases ran : BuiltIn.numeric s.pattern a.values s.backend with ⟨e | _, b⟩
    · trivial
    · change numericFactorize a (⟨b, s.pattern, .factored⟩, w) = (.ok (), ⟨b, s.pattern, .factored⟩, w)
      rw [start, if_neg (by simp [pattern])]
      simp only [factorValues, Backend.numeric, Run.onFirst, BuiltIn.numeric_again ran]
  have analysed (s : Slot (BuiltIn α)) (w : ω) : Run.Post (symbolicFactorize a.pattern) (s, w)
      (fun _ t => t.1.pattern = a.pattern) fun _ _ => True := by
    simp only [Run.Post, symbolicFactorize, Backend.symbolic, Run.onFirst]
    by_cases square : a.pattern.isSquare = true
    · rw [if_pos square]
      rcases BuiltIn.symbolic a.pattern s.backend with ⟨_ | _, _⟩
      · trivial
      · rfl
    · rw [if_neg square]
      trivial
  have kept : Run.Post (numericFactorize a) t (fun _ t => numericFactorize a t = (.ok (), t))
      fun _ _ => True := by
    obtain ⟨s, w⟩ := t
    unfold Run.Post
    rw [start]
    by_cases first : s.phase = .unfactored ∨ a.pattern ≠ s.pattern
    · rw [if_pos first]
      exact (analysed s w).bind fun _ t pattern => values t.1 t.2 pattern
    · rw [if_neg first]
      exact values s w (not_not.mp (not_or.mp first).2).symm
  exact kept.of_ok done

/-- A cell that has been asked for factors of a matrix has them. -/
theorem SolveCell.factorize_again {t t' : SolveCell α (BuiltIn α) × ω}
    (done : factorize a t = (.ok (), t')) : factorize a t' = (.ok (), t') := by
  obtain ⟨c, w⟩ := t
  by_cases remembered :
      (c.factored.any fun v => Scalar.listEq v.toList a.values.toList) = true
  · have kept := done
    simp only [factorize, if_pos remembered] at kept
    cases kept
    exact done
  · simp only [factorize, if_neg remembered, Solver.onPrimary] at done
    rcases ran : (Slot.numericFactorize a : Run (Slot (BuiltIn α) × ω) Unit) (c.solver.primary, w)
      with ⟨e | _, slot, w'⟩ <;> rw [ran] at done <;> cases done
    have again := Slot.numericFactorize_again ran
    simp only [factorize, Solver.onPrimary, again, ite_self]

end Again

/-! ### Operations -/

/-- A cell with factors answers right-hand sides column by column, and it stays as it is. -/
theorem SolveCell.solution_columnwise {p : Pattern} {c : SolveCell α (BuiltIn α)} {w : ω}
    (ready : Ready p (c, w)) (transposed : Bool) : ∃ r : Response α, ∀ rhs : DenseMatrix α,
      rhs.nrows = p.nrows → solution rhs transposed (c, w) = (r.answer rhs, (c, w)) := by
  have slot : Slot.Ready p (c.solver.primary, w) :=
    ⟨⟨ready.sound.slot, ready.sound.pattern.trans ready.pattern⟩, ready.phase⟩
  have order : c.solver.primary.pattern.nrows = p.nrows := congrArg Pattern.nrows slot.pattern
  have factored := slot.sound.factored ready.phase
  refine ⟨c.solver.primary.backend.response transposed, fun rhs rows => ?_⟩
  have solved := (Slot.post_solve_answer (w := w) ready.phase transposed rhs).and
    (Slot.post_solve slot rows transposed)
  rw [BuiltIn.answer_columnwise factored transposed (rows.trans order.symm)] at solved
  simp only [solution, Run.Post] at solved ⊢
  rcases ran : c.solver.primary.solve transposed (rhs, w) with ⟨e | _, x, w'⟩ <;>
    rw [ran] at solved <;> obtain ⟨answered, -, rfl⟩ := solved <;> rw [answered] <;> rfl

namespace Solve

variable {op : Solve} {solves : List Solve} {s s' : Store α (BuiltIn α) ω} {a b y : DenseMatrix α}

/-- From one store all right-hand sides of the order of an operation are answered column by column, and
they all leave another store. If it has an answer for one of them, they are answered there in the same
way, and it stays. -/
structure Settles (op : Solve) (a : DenseMatrix α) (opposite : Bool) (s s' : Store α (BuiltIn α) ω)
    (r : Response α) : Prop where
  first : ∀ rhs : DenseMatrix α, rhs.nrows = op.pattern.nrows →
    op.solveWith a rhs opposite s = (r.answer rhs, s')
  again : ∀ x y : DenseMatrix α, r.answer x = .ok y → ∀ rhs : DenseMatrix α,
    rhs.nrows = op.pattern.nrows → op.solveWith a rhs opposite s' = (r.answer rhs, s')

/-- The cell of a solve operation settles. -/
theorem exists_settles {c : SolveCell α (BuiltIn α)} (held : s.cells[op.cell]? = some c)
    (on : SolveCell.On op.pattern (c, s.world)) (square : op.pattern.ncols = op.pattern.nrows)
    (fits : a.shape = (op.pattern.nrows, op.pattern.nrows)) (opposite : Bool) :
    ∃ (r : Response α) (c' : SolveCell α (BuiltIn α)) (w' : ω), SolveCell.On op.pattern (c', w') ∧
      op.Settles a opposite s ⟨s.cells.setIfInBounds op.cell c', w'⟩ r := by
  obtain ⟨m, projected, pattern⟩ := exists_project square fits
  have start (rhs : DenseMatrix α) {s : Store α (BuiltIn α) ω} {c : SolveCell α (BuiltIn α)}
      (held : s.cells[op.cell]? = some c) : op.solveWith a rhs opposite s = Store.onCell op.cell
        (SolveCell.factorize m >>= fun _ => SolveCell.solution rhs (op.transposed != opposite)) s := by
    rw [solveWith, projected]
    rfl
  have factorized := SolveCell.post_factorize (a := m) (c := c) (w := s.world) (pattern.symm ▸ on)
  rw [pattern] at factorized
  rcases ran : (SolveCell.factorize m : Run (SolveCell α (BuiltIn α) × ω) Unit) (c, s.world) with
    ⟨e | _, c', w'⟩
  · refine ⟨⟨fun _ => .error e, id⟩, c', w', (factorized.of_error ran).2, fun rhs _ => ?_, fun x y h => ?_⟩
    · rw [start rhs held]
      simp only [Store.onCell, held, Run.bind_apply, ran]
      rfl
    · cases h
  · have ready := factorized.of_ok ran
    have again := SolveCell.factorize_again ran
    obtain ⟨r, answers⟩ := SolveCell.solution_columnwise ready (op.transposed != opposite)
    have inside := (Array.getElem?_eq_some_iff.mp held).1
    have held' : (s.cells.setIfInBounds op.cell c')[op.cell]? = some c' := by simp [inside]
    refine ⟨r, c', w', ready.toOn, fun rhs rows => ?_, fun _ _ _ rhs rows => ?_⟩
    · rw [start rhs held]
      simp only [Store.onCell, held, Run.bind_apply, ran, answers rhs rows]
    · rw [start rhs held']
      simp only [Store.onCell, held', Run.bind_apply, again, answers rhs rows,
        Array.setIfInBounds_setIfInBounds]

/-- A solve operation answers all right-hand sides of its order column by column, and they all leave
the same store. -/
theorem solveWith_columnwise (member : op ∈ solves) (serves : s.Serves solves)
    (square : op.pattern.ncols = op.pattern.nrows)
    (fits : a.shape = (op.pattern.nrows, op.pattern.nrows)) (opposite : Bool) :
    ∃ (r : Response α) (s' : Store α (BuiltIn α) ω), s'.Serves solves ∧
      ∀ rhs : DenseMatrix α, rhs.nrows = op.pattern.nrows →
        op.solveWith a rhs opposite s = (r.answer rhs, s') := by
  obtain ⟨c, held, pattern⟩ := serves.held op member
  have sound := serves.sound c (Array.mem_of_getElem? held)
  obtain ⟨r, c', w', on, settles⟩ := exists_settles held ⟨sound, pattern⟩ square fits opposite
  exact ⟨r, _, serves.set held on.sound (on.pattern.trans pattern.symm) w', settles.first⟩

end Solve

end Cotangent
