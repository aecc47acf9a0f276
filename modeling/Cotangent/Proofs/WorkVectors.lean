import Cotangent.Proofs.Blocks
import Cotangent.Proofs.Cursors
import Cotangent.Proofs.PivotRows

/-! Columns solved in place. A backend may solve the columns of a block one after another, each in its
place, with one work vector that is not cleared in between. Every solve writes a place of the vector
before it reads it: it starts from the permuted right-hand side, or gives each entry from those it has
given before, and the permutation at the end covers the column. So it makes no difference what stands in
the vector, and the block ends as if every column had been solved by itself. No law of arithmetic is
asked for, since the operations on an entry are the same and in the same order. -/
namespace Cotangent

variable {α : Type} [Scalar α] {n : Nat}

/-! ### Triangular solves in place -/

namespace Triangular

variable {l u : Nat → Nat → α} {b : Nat → α} {w : Array α}

/-- `L y = b` in place, column by column, with ones on the diagonal. -/
def substituteLower (n : Nat) (l : Nat → Nat → α) (w : Array α) : Array α :=
  (List.range n).foldl
    (fun w j =>
      let y := w.getD j 0
      if Scalar.isZero y then w
      else (after n j).foldl (fun w i => w.modify i (· - l i j * y)) w)
    w

/-- `U x = b` in place, column by column. -/
def substituteUpper (n : Nat) (u : Nat → Nat → α) (w : Array α) : Array α :=
  (List.range n).reverse.foldl
    (fun w j =>
      let x := w.getD j 0 / u j j
      (List.range j).foldl (fun w i => w.modify i (· - u i j * x)) (w.setIfInBounds j x))
    w

/-- Entries changed once each. -/
theorem getD_foldl_modify_each {rows : List Nat} {f : Nat → α → α} {i : Nat} (nodup : rows.Nodup)
    (inside : i < w.size) : (rows.foldl (fun w i => w.modify i (f i)) w).getD i 0 =
      if i ∈ rows then f i (w.getD i 0) else w.getD i 0 := by
  change (rows.foldl (fun w i => w.modify (id i) (f i)) w).getD i 0 = _
  by_cases member : i ∈ rows
  · rw [if_pos member]
    exact getD_foldl_modify_of_unique nodup member rfl (fun _ _ same => same) inside
  · rw [if_neg member]
    refine getD_foldl_modify_of_forall_ne fun k listed same => member ?_
    obtain rfl : k = i := same
    exact listed

theorem substituteLower_eq (size : w.size = n) (given : ∀ i < n, w.getD i 0 = b i) :
    substituteLower n l w = solveUnitLower n l b := by
  have turns (j : Nat) (below : j < n) : Turns n (fun _ s => s)
      (fun i j y s => if Scalar.isZero y then s else s - l i j * y)
      (fun w j =>
        let y := w.getD j 0
        if Scalar.isZero y then w
        else (after n j).foldl (fun w i => w.modify i (· - l i j * y)) w)
      (List.range j) j (after n j) := by
    have nodup : (after n j).Nodup := List.nodup_range'
    refine ⟨fun w size => ?_, fun w size => ?_, fun w size i before => ?_, fun w size i later => ?_⟩
    all_goals dsimp only
    · split
      · exact size
      · exact (size_foldl fun _ _ => Array.size_modify).trans size
    · split
      · rfl
      · rw [getD_foldl_modify_each nodup (size.symm ▸ below),
          if_neg fun here => absurd (mem_after.mp here).1 (lt_irrefl j)]
    · have less := List.mem_range.mp before
      split
      · rfl
      · rw [getD_foldl_modify_each nodup (size.symm ▸ less.trans below),
          if_neg fun here => absurd (mem_after.mp here).1 less.not_gt]
    · obtain ⟨less, inside⟩ := mem_after.mp later
      split
      · rfl
      · next some =>
        rw [getD_foldl_modify_each nodup (size.symm ▸ inside), if_pos later,
          getD_foldl_modify_each nodup (size.symm ▸ below),
          if_neg fun here => absurd (mem_after.mp here).1 (lt_irrefl j), if_neg some]
  exact foldl_turns_range size turns fun i inside z => by rw [given i inside]

theorem substituteUpper_eq (size : w.size = n) (given : ∀ i < n, w.getD i 0 = b i) :
    substituteUpper n u w = solveUpper n u b := by
  have turns (j : Nat) (below : j < n) : Turns n (fun j s => s / u j j)
      (fun i j x s => s - u i j * x)
      (fun w j =>
        let x := w.getD j 0 / u j j
        (List.range j).foldl (fun w i => w.modify i (· - u i j * x)) (w.setIfInBounds j x))
      (after n j).reverse j (List.range j).reverse := by
    have value (w : Array α) (size : w.size = n) (x : α) (i : Nat) (inside : i < n) :
        ((List.range j).foldl (fun w i => w.modify i (· - u i j * x)) (w.setIfInBounds j x)).getD i 0 =
          if i < j then w.getD i 0 - u i j * x else if i = j then x else w.getD i 0 := by
      rw [getD_foldl_modify_each List.nodup_range (by simpa [size] using inside),
        getD_setIfInBounds (size.symm ▸ inside)]
      by_cases less : i < j
      · rw [if_pos (List.mem_range.mpr less), if_pos less, if_neg less.ne]
      · rw [if_neg (mt List.mem_range.mp less), if_neg less]
    refine ⟨fun w size => ?_, fun w size => ?_, fun w size i before => ?_, fun w size i later => ?_⟩
    all_goals dsimp only
    · exact (size_foldl fun _ _ => Array.size_modify).trans (Array.size_setIfInBounds.trans size)
    · rw [value w size _ j below, if_neg (lt_irrefl j), if_pos rfl]
    · obtain ⟨less, inside⟩ := mem_after.mp (List.mem_reverse.mp before)
      rw [value w size _ i inside, if_neg less.not_gt, if_neg less.ne']
    · have less := List.mem_range.mp (List.mem_reverse.mp later)
      rw [value w size _ i (less.trans below), value w size _ j below, if_pos less,
        if_neg (lt_irrefl j), if_pos rfl]
  exact foldl_turns_reverse_range size turns fun i inside z => by rw [given i inside]

end Triangular

/-! ### Blocks in place -/

namespace Factor

open Triangular

/-- A column and the work vector before a solve in place give both after it. -/
abbrev InPlace (α : Type) : Type := Array α → Array α → Array α × Array α

/-- The columns of a block, each solved in its place with the work vector that the last one left. -/
def blockInPlace (n nrhs : Nat) (solve : InPlace α) (rhs work : Array α) : Array α × Array α :=
  (List.range nrhs).foldl
    (fun (rhs, work) c =>
      let (x, work) := solve (rhs.extract (c * n) ((c + 1) * n)) work
      (overwrite (List.range' (c * n) n) (fun k _ => x.getD (k - c * n) 0) rhs, work))
    (rhs, work)

/-- A solve in place finds what a rule finds, whatever stands in the work vector. -/
structure InPlace.Finds (solve : InPlace α) (n : Nat) (rule : Array α → Array α) : Prop where
  column : ∀ b work, b.size = n → work.size = n → (solve b work).1 = rule b
  size : ∀ b work, b.size = n → work.size = n → (solve b work).2.size = n

variable {solve : InPlace α} {rule : Array α → Array α} {m nrhs c k i : Nat} {work : Array α}

/-- The place of an entry tells its column. -/
theorem mem_place_iff (inside : i < n) : c * n + i ∈ List.range' (k * n) n ↔ c = k := by
  rw [List.mem_range'_1]
  constructor
  · rintro ⟨from_start, below⟩
    by_contra other
    rcases Nat.lt_or_gt_of_ne other with less | more
    · have next : (c + 1) * n ≤ k * n := Nat.mul_le_mul_right n less
      rw [Nat.succ_mul] at next
      omega
    · have next : (k + 1) * n ≤ c * n := Nat.mul_le_mul_right n more
      rw [Nat.succ_mul] at next
      omega
  · rintro rfl
    omega

/-- The columns before a number are solved, and those after it are as they were. -/
structure SolvedBefore (n nrhs : Nat) (rule : Array α → Array α) (given : Array α) (k : Nat)
    (t : Array α × Array α) : Prop where
  size : t.1.size = n * nrhs
  work : t.2.size = n
  entry : ∀ c < nrhs, ∀ i < n, t.1.getD (c * n + i) 0 =
    if c < k then (rule (given.extract (c * n) ((c + 1) * n))).getD i 0
    else given.getD (c * n + i) 0

theorem SolvedBefore.extract {given : Array α} {t : Array α × Array α} (size : given.size = n * nrhs)
    (before : SolvedBefore n nrhs rule given k t) (more : k < nrhs) :
    t.1.extract (k * n) ((k + 1) * n) = given.extract (k * n) ((k + 1) * n) ∧
      (given.extract (k * n) ((k + 1) * n)).size = n := by
  have last : (k + 1) * n = k * n + n := Nat.succ_mul k n
  have block : (k + 1) * n ≤ n * nrhs := by
    rw [Nat.mul_comm n nrhs]
    exact Nat.mul_le_mul_right n more
  have short {x : Array α} (size : x.size = n * nrhs) :
      (x.extract (k * n) ((k + 1) * n)).size = n := by
    rw [Array.size_extract, size]
    omega
  refine ⟨eq_of_getD (short before.size) (short size) fun i inside => ?_, short size⟩
  have here := before.entry k more i inside
  rw [if_neg (lt_irrefl k)] at here
  have read {x : Array α} (size : x.size = n * nrhs) :
      (x.extract (k * n) ((k + 1) * n)).getD i 0 = x.getD (k * n + i) 0 := by
    rw [Array.getD_eq_getD_getElem?, Array.getD_eq_getD_getElem?, Array.getElem?_extract, if_pos]
    rw [size]
    omega
  rw [read before.size, read size, here]

/-- One more column. -/
theorem SolvedBefore.step {given : Array α} {t : Array α × Array α} (finds : solve.Finds n rule)
    (size : given.size = n * nrhs) (before : SolvedBefore n nrhs rule given k t) (more : k < nrhs) :
    SolvedBefore n nrhs rule given (k + 1)
      (overwrite (List.range' (k * n) n) (fun q _ =>
          (solve (t.1.extract (k * n) ((k + 1) * n)) t.2).1.getD (q - k * n) 0) t.1,
        (solve (t.1.extract (k * n) ((k + 1) * n)) t.2).2) := by
  obtain ⟨same, length⟩ := before.extract size more
  rw [same, finds.column _ _ length before.work]
  refine ⟨size_overwrite.trans before.size, finds.size _ _ length before.work,
    fun c inside i row => ?_⟩
  by_cases here : c = k
  · have member := (mem_place_iff row).mpr here
    rw [getD_overwrite_of_mem List.nodup_range' (fun q listed => ?_) member, if_pos (by omega), here,
      Nat.add_sub_cancel_left]
    rw [before.size]
    have block : (k + 1) * n ≤ n * nrhs := by
      rw [Nat.mul_comm n nrhs]
      exact Nat.mul_le_mul_right n more
    rw [Nat.succ_mul] at block
    have place := List.mem_range'_1.mp listed
    omega
  · rw [getD_overwrite_of_notMem (mt (mem_place_iff row).mp here), before.entry c inside i row]
    by_cases less : c < k
    · rw [if_pos less, if_pos (by omega)]
    · rw [if_neg less, if_neg (by omega)]

/-- A block solved in place is solved column by column, whatever stands in the work vector. -/
theorem blockInPlace_eq (finds : solve.Finds n rule) (rhs : Vector α m) (full : m = n * nrhs)
    (size : work.size = n) : ∃ x, eachColumn n nrhs rule rhs = .ok x ∧
      x.toArray = (blockInPlace n nrhs solve rhs.toArray work).1 := by
  obtain ⟨x, solved, columns⟩ := exists_eachColumn rule rhs full
  have given : rhs.toArray.size = n * nrhs := rhs.size_toArray.trans full
  have ended : SolvedBefore n nrhs rule rhs.toArray nrhs
      (blockInPlace n nrhs solve rhs.toArray work) := by
    have kept : SolvedBefore n nrhs rule rhs.toArray (List.range nrhs).length
        (blockInPlace n nrhs solve rhs.toArray work) :=
      foldl_keeps (P := fun done t => SolvedBefore n nrhs rule rhs.toArray done.length t)
        ⟨given, size, fun _ _ _ _ => rfl⟩ fun done c rest t split before => by
          obtain ⟨more, rfl, -⟩ := range_eq_append split
          rw [List.length_range] at before
          simpa using before.step finds given more
    rwa [List.length_range] at kept
  refine ⟨x, solved, eq_of_getD (x.size_toArray.trans full) ended.size fun k inside => ?_⟩
  obtain ⟨place, row, column⟩ := DenseMatrix.place_eq inside
  have here := columns (k / n) column (k % n) row
  have there := ended.entry (k / n) column (k % n) row
  rw [if_pos column, ← here, place] at there
  exact there.symm

end Factor

/-! ### Dense LU -/

namespace DenseLU

open Triangular

variable {f : DenseLU α} {π : Equiv.Perm (Fin f.order)}

/-- `A x = b`: the right-hand side is permuted into the work vector. -/
def solveInPlace (f : DenseLU α) : Factor.InPlace α := fun b work =>
  let work := overwrite (List.range f.order) (fun k _ => b.getD (f.perm.getD k 0) 0) work
  let work := substituteUpper f.order f.packed.entry (substituteLower f.order f.packed.entry work)
  (work, work)

/-- `Aᵀ x = b`: the entries of the work vector are written one after another. -/
def solveTransposedInPlace (f : DenseLU α) : Factor.InPlace α := fun b work =>
  let work := overwrite (List.range f.order) (fun i z =>
    (List.range i).foldl (fun s k => s - f.packed.entry k i * z k) (b.getD i 0)
      / f.packed.entry i i) work
  let work := overwrite (List.range f.order).reverse (fun i w =>
    (after f.order i).foldl (fun s k => s - f.packed.entry k i * w k) (w i)) work
  (Factor.scatter f.perm work b, work)

theorem finds_solveColumn (f : DenseLU α) : f.solveInPlace.Finds f.order f.solveColumn := by
  have both (b work : Array α) (size : work.size = f.order) :
      f.solveInPlace b work = (f.solveColumn b, f.solveColumn b) := by
    have lower : substituteLower f.order f.packed.entry
        (overwrite (List.range f.order) (fun k _ => b.getD (f.perm.getD k 0) 0) work) = _ :=
      substituteLower_eq (size_overwrite.trans size) fun i inside => getD_overwrite_range size inside
    have upper (y : Array α) (size : y.size = f.order) :
        substituteUpper f.order f.packed.entry y = _ := substituteUpper_eq size fun i _ => rfl
    have size' : (solveUnitLower f.order f.packed.entry fun i =>
        b.getD (f.perm.getD i 0) 0).size = f.order := size_ascending _ _
    simp only [solveInPlace, solveColumn, lower, upper _ size']
  refine ⟨fun b work _ size => by rw [both b work size], fun b work _ size => ?_⟩
  rw [both b work size]
  exact size_descending _ _

theorem finds_solveColumnTransposed (lists : Factor.Lists f.perm π) :
    f.solveTransposedInPlace.Finds f.order f.solveColumnTransposed := by
  have first (b work : Array α) (size : work.size = f.order) :
      overwrite (List.range f.order) (fun i z =>
        (List.range i).foldl (fun s k => s - f.packed.entry k i * z k) (b.getD i 0)
          / f.packed.entry i i) work =
        solveUpperTransposed f.order f.packed.entry (b.getD · 0) :=
    overwrite_range size (fun _ _ _ _ => rfl) fun i _ z z' known => by
      rw [List.foldl_ext _ _ _ fun s k member => by rw [known k (List.mem_range.mp member)]]
  have second (z : Array α) (size : z.size = f.order) :
      overwrite (List.range f.order).reverse (fun i w =>
        (after f.order i).foldl (fun s k => s - f.packed.entry k i * w k) (w i)) z =
        solveUnitLowerTransposed f.order f.packed.entry (z.getD · 0) := by
    refine overwrite_reverse_range size (fun i _ w own => by rw [own]) fun i _ w w' known => ?_
    rw [List.foldl_ext _ _ _ fun s k member => by
      rw [known k (mem_after.mp member).2 (mem_after.mp member).1]]
  refine ⟨fun b work length size => ?_, fun b work _ size => ?_⟩
  · have size' : (solveUpperTransposed f.order f.packed.entry fun i => b.getD i 0).size = f.order :=
      size_ascending _ _
    simp only [solveTransposedInPlace, solveColumnTransposed, first b work size, second _ size',
      lists.scatter_eq length]
  · exact size_overwrite.trans (size_overwrite.trans size)

end DenseLU

/-! ### QR -/

namespace QR

open Triangular

variable {f : QR α} {π : Equiv.Perm (Fin f.order)}

/-- `A x = b`: the right-hand side is copied into the work vector. -/
def solveInPlace (f : QR α) : Factor.InPlace α := fun b work =>
  let work := overwrite (List.range f.order) (fun k _ => b.getD k 0) work
  let work := (List.range f.order).foldl f.reflect work
  let work := substituteUpper f.order f.r.entry work
  (Factor.scatter f.perm work b, work)

/-- `Aᵀ x = b`: the right-hand side is permuted into the work vector. -/
def solveTransposedInPlace (f : QR α) : Factor.InPlace α := fun b work =>
  let work := overwrite (List.range f.order) (fun k _ => b.getD (f.perm.getD k 0) 0) work
  let work := overwrite (List.range f.order) (fun i z =>
    (List.range i).foldl (fun s k => s - f.r.entry k i * z k) (z i) / f.r.entry i i) work
  let work := (List.range f.order).reverse.foldl f.reflect work
  (work, work)

theorem size_reflect (x : Array α) (k : Nat) : (f.reflect x k).size = x.size := by
  unfold reflect
  dsimp only
  split
  · rfl
  · exact Array.size_mapIdx

theorem finds_solveColumn (lists : Factor.Lists f.perm π) :
    f.solveInPlace.Finds f.order f.solveColumn := by
  have copied (b work : Array α) (length : b.size = f.order) (size : work.size = f.order) :
      overwrite (List.range f.order) (fun k _ => b.getD k 0) work = b :=
    eq_of_getD (size_overwrite.trans size) length fun i inside => getD_overwrite_range size inside
  have reflected (b : Array α) (length : b.size = f.order) :
      ((List.range f.order).foldl f.reflect b).size = f.order :=
    (size_foldl size_reflect).trans length
  have upper (y : Array α) (size : y.size = f.order) :
      substituteUpper f.order f.r.entry y = _ := substituteUpper_eq size fun i _ => rfl
  refine ⟨fun b work length size => ?_, fun b work length size => ?_⟩
  · simp only [solveInPlace, solveColumn, copied b work length size]
    rw [upper _ (reflected b length), lists.scatter_eq length]
  · simp only [solveInPlace, copied b work length size]
    rw [upper _ (reflected b length)]
    exact size_descending _ _

theorem finds_solveColumnTransposed (f : QR α) :
    f.solveTransposedInPlace.Finds f.order f.solveColumnTransposed := by
  have lower (b work : Array α) (size : work.size = f.order) :
      overwrite (List.range f.order) (fun i z =>
        (List.range i).foldl (fun s k => s - f.r.entry k i * z k) (z i) / f.r.entry i i)
        (overwrite (List.range f.order) (fun k _ => b.getD (f.perm.getD k 0) 0) work) =
        solveUpperTransposed f.order f.r.entry fun i => b.getD (f.perm.getD i 0) 0 := by
    refine overwrite_range (size_overwrite.trans size) (fun i inside z own => ?_)
      fun i _ z z' known => ?_
    · rw [own, getD_overwrite_range size inside]
    · rw [List.foldl_ext _ _ _ fun s k member => by rw [known k (List.mem_range.mp member)]]
  have both (b work : Array α) (size : work.size = f.order) : f.solveTransposedInPlace b work =
      (f.solveColumnTransposed b, f.solveColumnTransposed b) := by
    simp only [solveTransposedInPlace, solveColumnTransposed, lower b work size]
  refine ⟨fun b work _ size => by rw [both b work size], fun b work _ size => ?_⟩
  rw [both b work size]
  exact (size_foldl size_reflect).trans (size_ascending _ _)

end QR

/-! ### Sparse LU -/

namespace SparseLU

open Triangular

variable {f : SparseLU α} {s : Partial α}

/-- `A x = b`: the right-hand side is permuted into the work vector. -/
def solveInPlace (f : SparseLU α) : Factor.InPlace α := fun b work =>
  let work := Factor.scatter f.step b work
  let work := (List.range f.order).foldl f.takeLower work
  let work := (List.range f.order).reverse.foldl f.takeUpper work
  (work, work)

/-- `Aᵀ x = b`: the entries of the work vector are written one after another. -/
def solveTransposedInPlace (f : SparseLU α) : Factor.InPlace α := fun b work =>
  let work := overwrite (List.range f.order) (fun k z => f.upperRule b k z) work
  let work := overwrite (List.range f.order).reverse (fun j v =>
    (f.lowerSteps j).foldl (fun s (i, l) => s - l * v i) (v j)) work
  (overwrite (List.range f.order) (fun row _ => work.getD (f.step.getD row 0) 0) b, work)

theorem size_takeLower (c : Array α) (j : Nat) : (f.takeLower c j).size = c.size := by
  unfold takeLower
  dsimp only
  split
  · rfl
  · exact size_foldl fun _ _ => Array.size_modify

theorem size_takeUpper (c : Array α) (k : Nat) : (f.takeUpper c k).size = c.size :=
  (size_foldl fun _ _ => Array.size_modify).trans Array.size_setIfInBounds

theorem Finished.finds_solveColumn (finished : Finished s f n) :
    f.solveInPlace.Finds n f.solveColumn := by
  have both (b work : Array α) (size : work.size = n) :
      f.solveInPlace b work = (f.solveColumn b, f.solveColumn b) := by
    simp only [solveInPlace, solveColumn_eq, finished.lists.scatter_eq size]
  refine ⟨fun b work _ size => by rw [both b work size], fun b work _ size => ?_⟩
  rw [both b work size, solveColumn_eq]
  refine (size_foldl size_takeUpper).trans ((size_foldl size_takeLower).trans ?_)
  exact Factor.size_scatter.trans (Array.size_replicate.trans finished.size)

theorem Finished.finds_solveColumnTransposed (finished : Finished s f n) :
    f.solveTransposedInPlace.Finds n f.solveColumnTransposed := by
  have first (b work : Array α) (size : work.size = n) :
      overwrite (List.range n) (fun k z => f.upperRule b k z) work =
        ascending n (f.upperRule b) :=
    overwrite_range size (fun _ _ _ _ => rfl) fun k _ z z' known =>
      congrArg (· / _) (List.foldl_ext _ _ _ fun s (j, u) held =>
        congrArg (s - u * ·) (known j (finished.upper_lt k (j, u) held)))
  have second (z : Array α) (size : z.size = n) :
      overwrite (List.range n).reverse (fun j v =>
        (f.lowerSteps j).foldl (fun s (i, l) => s - l * v i) (v j)) z =
        descending n (f.lowerRule z) := by
    refine overwrite_reverse_range size (fun j _ v own => by rw [own, lowerRule])
      fun j _ v v' known => ?_
    refine List.foldl_ext _ _ _ fun s (i, l) held => ?_
    have later := finished.lowerSteps_lt j (i, l) held
    exact congrArg (s - l * ·) (known i later.2 later.1)
  refine ⟨fun b work length size => ?_, fun b work _ size => ?_⟩
  · simp only [solveTransposedInPlace, solveColumnTransposed_eq, finished.order, first b work size]
    rw [second _ (size_ascending _ _)]
    refine eq_of_getD (size_overwrite.trans length) (Array.size_map.trans finished.size)
      fun i inside => ?_
    have within : i < f.step.size := finished.size.symm ▸ inside
    rw [getD_overwrite_range length inside]
    simp [within]
  · simp only [solveTransposedInPlace, finished.order]
    exact size_overwrite.trans (size_overwrite.trans size)

end SparseLU

/-! ### Cholesky -/

namespace Cholesky

open Triangular

variable {p : Pattern} {a : Analysis} {l : SparseMatrix α}

/-- `L Lᵀ x = b`: both triangles are solved in the column itself. -/
def solveInPlace (l : SparseMatrix α) : Factor.InPlace α := fun b work =>
  (overwrite (List.range l.ncols).reverse (fun j x => columnRule l x j x) (solveLower l b), work)

theorem size_solveLower (b : Array α) : (solveLower l b).size = b.size := by
  refine size_foldl fun x j => ?_
  dsimp only
  split
  · rfl
  · exact (size_foldl fun _ _ => Array.size_modify).trans Array.size_setIfInBounds

theorem finds_solve (fills : a.Fills p) (pattern : l.pattern = a.lower) :
    (solveInPlace l).Finds p.nrows fun b => solveUpper l (solveLower l b) := by
  have columns : l.ncols = p.nrows := (congrArg Pattern.ncols pattern).trans fills.columns
  refine ⟨fun b work length _ => ?_, fun _ _ _ size => size⟩
  rw [solveUpper_eq, solveInPlace, columns]
  dsimp only
  refine overwrite_reverse_range ((size_solveLower b).trans length) (fun j _ x own => ?_)
    fun j inside x x' known => ?_
  · rw [columnRule, columnRule, own]
  · obtain ⟨d, below, column, after⟩ := exists_col_cons fills pattern inside
    simp only [columnRule, column]
    refine congrArg (· / d) (List.foldl_ext _ _ _ fun s (i, v) held => ?_)
    exact congrArg (s - v * ·) (known i (after (i, v) held).2 (after (i, v) held).1)

end Cholesky

end Cotangent
