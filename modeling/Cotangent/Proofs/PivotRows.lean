import Cotangent.Proofs.Elimination
import Cotangent.Proofs.Permutations

/-! What a finished sparse factorization leaves, for scalars without laws. Every row became a pivot
row at a step of its own; the columns of `L` hold rows of later steps, and those of `U` earlier steps.
The solves read the factors column by column. -/
namespace Cotangent

/-- An array of values that are all there. -/
theorem mapM_id_of_all (xs : Array (Option Nat))
    (all : ∀ i < xs.size, ∃ y, (xs[i]?).join = some y) :
    ∃ ys : Array Nat, xs.mapM id = some ys ∧ ys.size = xs.size ∧
      ∀ i < xs.size, (xs[i]?).join = some (ys.getD i 0) := by
  have split : xs = (xs.map (·.getD 0)).map some := by
    refine Array.ext (by simp) fun i inside _ => ?_
    obtain ⟨y, here⟩ := all i inside
    rw [Array.getElem?_eq_getElem inside] at here
    have value : xs[i] = some y := here
    simp [value]
  refine ⟨xs.map (·.getD 0), ?_, by simp, fun i inside => ?_⟩
  · have collected : (Array.map some (xs.map (·.getD 0))).mapM id = some (xs.map (·.getD 0)) := by
      rw [Array.mapM_map]
      exact Array.mapM_pure.trans (by simp)
    rwa [← split] at collected
  · obtain ⟨y, here⟩ := all i inside
    rw [Array.getElem?_eq_getElem inside] at here
    have value : xs[i] = some y := here
    simp [Array.getD, inside, value]

namespace SparseLU

variable {α : Type} [Scalar α] {a : SparseMatrix α} {s : Partial α} {f : SparseLU α} {n k : Nat}

/-! ### Finished factors -/

/-- The final state of the columns and the factors made of it. -/
structure Finished (s : Partial α) (f : SparseLU α) (n : Nat) : Prop where
  sound : s.Sound n n
  size : f.step.size = n
  step : ∀ i < n, s.step? i = some (f.step.getD i 0)
  lower : f.lower = s.lower
  upper : f.upper = s.upper
  diagonal : f.diagonal = s.diagonal

theorem Finished.lt (finished : Finished s f n) {i : Nat} (inside : i < n) : f.step.getD i 0 < n :=
  finished.sound.step_lt i _ (finished.step i inside)

/-- The steps of the rows as a permutation. -/
noncomputable def Finished.perm (finished : Finished s f n) : Equiv.Perm (Fin n) :=
  Equiv.ofBijective (fun i => ⟨f.step.getD i 0, finished.lt i.isLt⟩) <| by
    refine Finite.injective_iff_bijective.mp fun i i' same => Fin.ext ?_
    have equal : f.step.getD i 0 = f.step.getD i' 0 := congrArg Fin.val same
    exact finished.sound.step_injective i i' _ (finished.step i i.isLt)
      (equal ▸ finished.step i' i'.isLt)

theorem Finished.perm_val (finished : Finished s f n) (i : Fin n) :
    (finished.perm i : Nat) = f.step.getD i 0 := rfl

theorem Finished.lists (finished : Finished s f n) : Factor.Lists f.step finished.perm :=
  ⟨finished.size, fun _ => rfl⟩

theorem Finished.lowerSteps_lt (finished : Finished s f n) (j : Nat) :
    ∀ cell ∈ f.lowerSteps j, j < cell.1 ∧ cell.1 < n := by
  intro cell member
  rw [lowerSteps, finished.lower] at member
  obtain ⟨⟨row, l⟩, held, rfl⟩ := List.mem_map.mp member
  have within := finished.sound.lower_lt j _ held
  exact ⟨finished.sound.lower_later j _ held _ (finished.step row within), finished.lt within⟩

theorem Finished.order (finished : Finished s f n) : f.order = n := finished.size

theorem Finished.upper_lt (finished : Finished s f n) (j : Nat) :
    ∀ cell ∈ f.upper.getD j [], cell.1 < j :=
  finished.upper ▸ finished.sound.upper_lt j

/-- When there are as many steps as rows, every row is a pivot row. -/
theorem Partial.Sound.exists_step (sound : s.Sound n n) {i : Nat} (inside : i < n) :
    ∃ j, s.step? i = some j := by
  choose rowOf pivoted using sound.step_surjective
  have below (j : Fin n) : rowOf j j.isLt < n :=
    (lt_of_step? (pivoted j j.isLt)).trans_eq sound.size_step
  have injective : Function.Injective fun j : Fin n => (⟨rowOf j j.isLt, below j⟩ : Fin n) := by
    intro j j' same
    have equal : rowOf j j.isLt = rowOf j' j'.isLt := congrArg Fin.val same
    have both := (pivoted j j.isLt).symm.trans (equal ▸ pivoted j' j'.isLt)
    exact Fin.ext (Option.some.inj both)
  obtain ⟨j, found⟩ := Finite.surjective_of_injective injective ⟨i, inside⟩
  have equal : rowOf j j.isLt = i := congrArg Fin.val found
  exact ⟨j, equal ▸ pivoted j j.isLt⟩

/-- A finished run has factors. -/
theorem Partial.Sound.finished (sound : s.Sound n n) :
    ∃ step, s.step.mapM id = some step ∧ Finished s ⟨s.lower, s.upper, s.diagonal, step⟩ n := by
  obtain ⟨step, collected, size, steps⟩ := mapM_id_of_all s.step fun i inside =>
    sound.exists_step (inside.trans_eq sound.size_step)
  refine ⟨step, collected, sound, size.trans sound.size_step, fun i inside => ?_, rfl, rfl, rfl⟩
  exact steps i (inside.trans_eq sound.size_step.symm)

/-! ### The factorization -/

/-- One more column. -/
theorem Partial.Sound.eliminate (sound : s.Sound n k) (square : a.nrows = n) (tolerance : α) :
    Run.Post (SparseLU.eliminate a tolerance k) s (fun _ t => t.Sound n (k + 1)) fun _ _ => True := by
  rcases eliminate_cases a tolerance k s with ⟨row, chosen, -, ran⟩ | ⟨-, ran⟩ <;> rw [Run.Post, ran]
  · obtain ⟨member, free, -⟩ := Partial.mem_rows_of_chosen chosen
    exact sound.extend square member free
  · trivial

/-- A factorization of a square matrix is finished. -/
theorem finished_of_factorize {options : Options α} (rows : a.nrows = n) (columns : a.ncols = n)
    (done : factorize options a = .ok f) : ∃ s, Finished s f n := by
  have swept : Run.Post (SparseLU.columns options a) (Partial.start a.nrows)
      (fun _ t => t.Sound n n) fun _ _ => True := by
    refine Run.Post.forM (fun k t => t.Sound n k) (rows ▸ Partial.sound_start _) ?_ ?_
    · rintro k k' s at_k sound
      obtain ⟨inside, rfl⟩ := List.getElem?_eq_some_iff.mp at_k
      rw [List.getElem_range]
      exact sound.eliminate rows _
    · intro t sound
      rwa [List.length_range, columns] at sound
  unfold factorize at done
  rcases ran : SparseLU.columns options a (Partial.start a.nrows) with ⟨e | _, s⟩ <;>
    simp only [ran, reduceCtorEq] at done
  obtain ⟨step, collected, finished⟩ := (swept.of_ok ran).finished
  simp only [collected, Except.ok.injEq] at done
  exact ⟨s, done ▸ finished⟩

/-! ### The loops of the solves -/

/-- The turn of the first loop of a solve: column `j` of `L` is taken off, unless its factor is zero. -/
def takeLower (f : SparseLU α) (c : Array α) (j : Nat) : Array α :=
  let cj := c.getD j 0
  if Scalar.isZero cj then c
  else (f.lowerSteps j).foldl (fun c (i, l) => c.modify i (· - l * cj)) c

/-- The turn of the second loop: the entry is divided, then column `k` of `U` is taken off. -/
def takeUpper (f : SparseLU α) (c : Array α) (k : Nat) : Array α :=
  let xk := c.getD k 0 / f.diagonal.getD k 0
  (f.upper.getD k []).foldl (fun c (j, u) => c.modify j (· - u * xk)) (c.setIfInBounds k xk)

theorem solveColumn_eq (f : SparseLU α) (b : Array α) : f.solveColumn b =
    (List.range f.order).reverse.foldl f.takeUpper
      ((List.range f.order).foldl f.takeLower (Factor.permute f.step b)) :=
  rfl

/-- An entry of the solution of the system of `Uᵀ`. -/
def upperRule (f : SparseLU α) (b : Array α) (k : Nat) (z : Nat → α) : α :=
  (f.upper.getD k []).foldl (fun s (j, u) => s - u * z j) (b.getD k 0) / f.diagonal.getD k 0

/-- An entry of the solution of the system of `Lᵀ`. -/
def lowerRule (f : SparseLU α) (z : Array α) (j : Nat) (v : Nat → α) : α :=
  (f.lowerSteps j).foldl (fun s (i, l) => s - l * v i) (z.getD j 0)

theorem solveColumnTransposed_eq (f : SparseLU α) (b : Array α) : f.solveColumnTransposed b =
    f.step.map ((Triangular.descending f.order
      (f.lowerRule (Triangular.ascending f.order (f.upperRule b)))).getD · 0) :=
  rfl

end SparseLU

end Cotangent
