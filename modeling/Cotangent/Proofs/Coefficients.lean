import Mathlib
import Cotangent.SparseMatrix
import Cotangent.Proofs.Computation
import Cotangent.Proofs.ExactScalar

/-! Columns as lists of rows and values. The coefficient of a row is the sum of what the list holds
there, so no order and no repetition matters. A loop that takes a multiple of a column off an array
takes the multiple of the coefficients off its entries, and the column of a sparse matrix has the
entries of the matrix for coefficients. -/
namespace Cotangent

/-- A loop of changes that keep the size of an array keeps it. -/
theorem size_foldl {α γ : Type} {change : Array α → γ → Array α} {xs : List γ} {c : Array α}
    (frame : ∀ c x, (change c x).size = c.size) : (xs.foldl change c).size = c.size := by
  induction xs generalizing c with
  | nil => rfl
  | cons x xs ih => rw [List.foldl_cons, ih, frame]

section Fold

variable {α β : Type} [Zero α] {c : Array α} {cells : List (Nat × β)} {i : Nat}

/-- Array elements that a loop of changes does not name stay. -/
theorem getD_foldl_of_not_mem {change : Array α → Nat × β → Array α}
    (frame : ∀ c cell, cell.1 ≠ i → (change c cell).getD i 0 = c.getD i 0)
    (other : i ∉ cells.map (·.1)) : (cells.foldl change c).getD i 0 = c.getD i 0 := by
  induction cells generalizing c with
  | nil => rfl
  | cons cell cells ih =>
    obtain ⟨different, others⟩ := List.ne_and_not_mem_of_not_mem_cons other
    rw [List.foldl_cons, ih others, frame c cell different.symm]

theorem getD_setIfInBounds {j : Nat} {x : α} (inside : i < c.size) :
    (c.setIfInBounds j x).getD i 0 = if i = j then x else c.getD i 0 := by
  simp only [Array.getD_eq_getD_getElem?, Array.getElem?_setIfInBounds]
  by_cases same : j = i
  · subst same
    simp [inside]
  · simp [same, Ne.symm same]

theorem getD_setIfInBounds_of_ne {j : Nat} {x : α} (different : j ≠ i) :
    (c.setIfInBounds j x).getD i 0 = c.getD i 0 := by
  simp [Array.getD_eq_getD_getElem?, different]

theorem getD_modify {j : Nat} {f : α → α} (inside : i < c.size) :
    (c.modify j f).getD i 0 = if i = j then f (c.getD i 0) else c.getD i 0 := by
  simp only [Array.getD_eq_getD_getElem?, Array.getElem?_modify]
  by_cases same : j = i
  · subst same
    simp [inside]
  · simp [same, Ne.symm same]

theorem getD_modify_of_ne {j : Nat} {f : α → α} (different : j ≠ i) :
    (c.modify j f).getD i 0 = c.getD i 0 := by
  simp [Array.getD_eq_getD_getElem?, Array.getElem?_modify, different]

/-- A place that is written once has what is written there. -/
theorem getD_foldl_of_mem {cells : List (Nat × α)} (nodup : (cells.map (·.1)).Nodup) {x : α}
    (member : (i, x) ∈ cells) (inside : i < c.size) :
    (cells.foldl (fun c (r, v) => c.setIfInBounds r v) c).getD i 0 = x := by
  induction cells generalizing c with
  | nil => simp at member
  | cons cell cells ih =>
    obtain ⟨others, nodup⟩ := List.nodup_cons.mp nodup
    rw [List.foldl_cons]
    rcases List.mem_cons.mp member with rfl | later
    · rw [getD_foldl_of_not_mem (fun _ _ different => getD_setIfInBounds_of_ne different) others,
        getD_setIfInBounds inside, if_pos rfl]
    · exact ih nodup later (by simpa using inside)

/-- Entries that no listed position belongs to stay. -/
theorem getD_foldl_modify_of_forall_ne {positions : List Nat} {row : Nat → Nat} {f : Nat → α → α}
    (other : ∀ q ∈ positions, row q ≠ i) :
    (positions.foldl (fun c q => c.modify (row q) (f q)) c).getD i 0 = c.getD i 0 := by
  induction positions generalizing c with
  | nil => rfl
  | cons q positions ih =>
    obtain ⟨here, later⟩ := List.forall_mem_cons.mp other
    rw [List.foldl_cons, ih later, getD_modify_of_ne here]

/-- An entry that one listed position belongs to is changed by it. -/
theorem getD_foldl_modify_of_unique {positions : List Nat} {row : Nat → Nat} {f : Nat → α → α}
    {q : Nat} (nodup : positions.Nodup) (member : q ∈ positions) (found : row q = i)
    (unique : ∀ q' ∈ positions, row q' = i → q' = q) (inside : i < c.size) :
    (positions.foldl (fun c q => c.modify (row q) (f q)) c).getD i 0 = f q (c.getD i 0) := by
  induction positions generalizing c with
  | nil => cases member
  | cons q' positions ih =>
    obtain ⟨others, nodup⟩ := List.nodup_cons.mp nodup
    obtain ⟨here, later⟩ := List.forall_mem_cons.mp unique
    rw [List.foldl_cons]
    by_cases same : q' = q
    · subst same
      rw [getD_foldl_modify_of_forall_ne fun q'' listed hit => others (later q'' listed hit ▸ listed),
        getD_modify inside, if_pos found.symm]
    · have listed := (List.mem_cons.mp member).resolve_left (Ne.symm same)
      rw [ih nodup listed later (by simpa using inside), getD_modify_of_ne (mt here same)]

end Fold

theorem SparseMatrix.map_fst_col {α : Type} [Scalar α] (a : SparseMatrix α) (j : Nat) :
    (a.col j).map (·.1) = a.pattern.col j := by
  simp [col, List.map_map, Function.comp_def]

variable {α : Type} [RingScalar α] {cells : List (Nat × α)} {c : Array α} {i : Nat} {x : α}

/-- The sum of what a list of cells holds at a key. -/
def coefficient (cells : List (Nat × α)) (i : Nat) : α :=
  (cells.map fun cell => if cell.1 = i then cell.2 else 0).sum

theorem coefficient_cons (cell : Nat × α) (cells : List (Nat × α)) (i : Nat) :
    coefficient (cell :: cells) i = (if cell.1 = i then cell.2 else 0) + coefficient cells i :=
  List.sum_cons

theorem coefficient_perm {cells' : List (Nat × α)} (same : cells.Perm cells') (i : Nat) :
    coefficient cells i = coefficient cells' i :=
  (same.map _).sum_eq

theorem coefficient_eq_zero (other : i ∉ cells.map (·.1)) : coefficient cells i = 0 := by
  refine List.sum_eq_zero fun y member => ?_
  obtain ⟨cell, here, rfl⟩ := List.mem_map.mp member
  exact if_neg fun same => other (List.mem_map.mpr ⟨cell, here, same⟩)

theorem coefficient_of_forall_ne (other : ∀ cell ∈ cells, cell.1 ≠ i) :
    coefficient cells i = 0 := by
  refine coefficient_eq_zero fun listed => ?_
  obtain ⟨cell, held, same⟩ := List.mem_map.mp listed
  exact other cell held same

/-- Keys renamed one to one keep their coefficients. -/
theorem coefficient_map (rename : Nat → Nat)
    (injective : ∀ cell ∈ cells, rename cell.1 = rename i → cell.1 = i) :
    coefficient (cells.map fun (r, l) => (rename r, l)) (rename i) = coefficient cells i := by
  rw [coefficient, coefficient, List.map_map]
  refine congrArg List.sum (List.map_congr_left fun cell member => ?_)
  by_cases same : cell.1 = i
  · simp [same]
  · simpa [same] using fun named => absurd (injective cell member named) same

/-- A sum along a list of cells is the sum of the coefficients along the keys. -/
theorem sum_cells {k : Nat} (below : ∀ cell ∈ cells, cell.1 < k) (g : Nat → α) :
    (cells.map fun cell => g cell.1 * cell.2).sum =
      ∑ j ∈ Finset.range k, g j * coefficient cells j := by
  induction cells with
  | nil => simp [coefficient]
  | cons cell cells ih =>
    obtain ⟨here, later⟩ := List.forall_mem_cons.mp below
    have one : ∑ j ∈ Finset.range k, g j * (if cell.1 = j then cell.2 else 0) =
        g cell.1 * cell.2 := by
      rw [Finset.sum_eq_single cell.1] <;> simp +contextual [here, eq_comm]
    simp only [List.map_cons, List.sum_cons, coefficient_cons, mul_add, Finset.sum_add_distrib, one,
      ih later]

/-- A multiple of a column taken off an array. -/
theorem getD_foldl_modify (cells : List (Nat × α)) (x : α) (inside : i < c.size) :
    (cells.foldl (fun c (r, l) => c.modify r (· - l * x)) c).getD i 0 =
      c.getD i 0 - coefficient cells i * x := by
  induction cells generalizing c with
  | nil => simp [coefficient]
  | cons cell cells ih =>
    rw [List.foldl_cons, ih (by simpa using inside), getD_modify inside, coefficient_cons]
    by_cases same : cell.1 = i
    · subst same
      simp only [↓reduceIte, add_mul, sub_sub]
    · simp [same, Ne.symm same]

/-- A column written into an array of zeros. -/
theorem getD_foldl_set (nodup : (cells.map (·.1)).Nodup) (inside : i < c.size)
    (clear : c.getD i 0 = 0) :
    (cells.foldl (fun c (r, v) => c.setIfInBounds r v) c).getD i 0 = coefficient cells i := by
  induction cells generalizing c with
  | nil => exact clear
  | cons cell cells ih =>
    obtain ⟨others, nodup⟩ := List.nodup_cons.mp nodup
    rw [List.foldl_cons, coefficient_cons]
    by_cases same : cell.1 = i
    · subst same
      have frame : ∀ (c : Array α) (cell' : Nat × α), cell'.1 ≠ cell.1 →
          (c.setIfInBounds cell'.1 cell'.2).getD cell.1 0 = c.getD cell.1 0 :=
        fun c cell' different => getD_setIfInBounds_of_ne different
      rw [getD_foldl_of_not_mem frame others, getD_setIfInBounds inside, coefficient_eq_zero others]
      simp
    · rw [ih nodup (by simpa using inside) (by rw [getD_setIfInBounds_of_ne same, clear]), if_neg same,
        zero_add]

/-- Values listed for some rows have them as coefficients. -/
theorem coefficient_filterMap {rows : List Nat} (nodup : rows.Nodup) (keep : Nat → Prop)
    [DecidablePred keep] (f : Nat → α) (i : Nat) :
    coefficient (rows.filterMap fun r => if keep r then some (r, f r) else none) i =
      if i ∈ rows ∧ keep i then f i else 0 := by
  induction rows with
  | nil => simp [coefficient]
  | cons r rows ih =>
    obtain ⟨others, nodup⟩ := List.nodup_cons.mp nodup
    rw [List.filterMap_cons]
    by_cases kept : keep r
    · rw [if_pos kept, coefficient_cons, ih nodup]
      by_cases same : r = i
      · subst same
        simp [others, kept]
      · simp [same, Ne.symm same]
    · rw [if_neg kept, ih nodup]
      by_cases same : i = r
      · subst same
        simp [kept]
      · simp [same]

/-- Values listed by position have them as coefficients. -/
theorem coefficient_zipIdx {rows : List Nat} (nodup : rows.Nodup) (f : Nat → α) (start i : Nat) :
    coefficient ((rows.zipIdx start).map fun (r, k) => (r, f k)) i =
      match (rows.idxOf? i).map (start + ·) with
      | some k => f k
      | none => 0 := by
  induction rows generalizing start with
  | nil => simp [coefficient]
  | cons r rows ih =>
    obtain ⟨others, nodup⟩ := List.nodup_cons.mp nodup
    rw [List.zipIdx_cons, List.map_cons, coefficient_cons, ih nodup, List.idxOf?_cons]
    by_cases same : r = i
    · subst same
      have absent : rows.idxOf? r = none := List.idxOf?_eq_none_iff.mpr others
      simp [absent]
    · cases found : rows.idxOf? i with
      | none => simp [same]
      | some t => simp [same, Nat.add_comm t 1, Nat.add_assoc]

namespace SparseMatrix

/-- A column has the entries of the matrix for coefficients. -/
theorem coefficient_col (a : SparseMatrix α) (i j : Nat) :
    coefficient (a.col j) i = a.entry i j := by
  have nodup : (a.pattern.col j).Nodup := (a.pattern.isColumn_col j).1.imp Nat.ne_of_lt
  exact coefficient_zipIdx nodup (a.values.getD · 0) (a.pattern.offset j) i

end SparseMatrix

end Cotangent
