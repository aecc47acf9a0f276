import Cotangent.Assembly
import Cotangent.Proofs.TransposedPatterns

/-! Reading the flat form of a pattern. A number belongs to a position of the pattern exactly if the form
stores its row there, between the pointers of its column. The search halves a window that holds the row as
long as the column does, so it agrees with the pattern on every position, present, absent or outside. -/
namespace Cotangent.Flat

variable {f : Flat} {p : Pattern} {i j k : Nat}

/-- Number `k` of the row indices is row `i` of column `j`. -/
structure Stores (f : Flat) (i j k : Nat) : Prop where
  inside : j < f.ncols
  start : f.colPtrs.getD j 0 ≤ k
  stop : k < f.colPtrs.getD (j + 1) 0
  row : f.rowIndices[k]? = some i

@[simp] theorem nrows_flat (p : Pattern) : p.flat.nrows = p.nrows := rfl

@[simp] theorem ncols_flat (p : Pattern) : p.flat.ncols = p.ncols := rfl

/-- The form of a pattern is read as the pattern. -/
theorem check_flat (p : Pattern) : p.flat.check = .ok p := p.ofArrays_colPtrs

/-- What is read has this form. -/
theorem flat_of_check (read : f.check = .ok p) : p.flat = f := by
  rcases Pattern.ofArrays_cases f.nrows f.ncols f.colPtrs f.rowIndices
    with ⟨-, q, done, rows, columns, pointers, indices⟩ | ⟨bent, -⟩
  · cases done.symm.trans read
    cases f
    simp only [Pattern.flat, rows, columns, pointers, indices]
  · have decided := (Pattern.ofArrays_decides f.nrows f.ncols f.colPtrs f.rowIndices).1
    exact absurd (decided.mp ⟨p, read⟩) bent

theorem column_flat (inside : j < p.ncols) : p.flat.column j = (p.col j).toArray := by
  rw [← Pattern.flatColumn_colPtrs inside]
  rfl

/-- A number and the position that it belongs to. -/
theorem stores_flat_iff : p.flat.Stores i j k ↔ p.position? i j = some k := by
  constructor
  · rintro ⟨inside, start, stop, row⟩
    have inside : j < p.ncols := inside
    have start : p.offset j ≤ k := p.getD_colPtrs inside.le ▸ start
    have stop : k < p.offset (j + 1) := p.getD_colPtrs (Nat.succ_le_of_lt inside) ▸ stop
    rw [Pattern.offset_succ inside] at stop
    have place : k - p.offset j < (p.col j).length := by omega
    have position : p.position? (p.col j)[k - p.offset j] j = some k :=
      Pattern.position?_eq_some_iff.mpr
        ⟨_, List.getElem?_eq_getElem place, Nat.add_sub_cancel' start⟩
    have stored : p.flat.rowIndices[k]? = some (p.col j)[k - p.offset j] := by
      rw [Pattern.flat, List.getElem?_toArray, Pattern.getElem?_rowIndices position]
    rw [← Option.some.inj (stored.symm.trans row)]
    exact position
  · intro position
    have inside := Pattern.lt_ncols_of_mem_col (Pattern.mem_of_position? position)
    have row : p.flat.rowIndices[k]? = some i := by
      rw [Pattern.flat, List.getElem?_toArray, Pattern.getElem?_rowIndices position]
    obtain ⟨t, found, rfl⟩ := Pattern.position?_eq_some_iff.mp position
    have place : t < (p.col j).length := (List.getElem?_eq_some_iff.mp found).1
    have start : p.flat.colPtrs.getD j 0 = p.offset j := p.getD_colPtrs inside.le
    have stop : p.flat.colPtrs.getD (j + 1) 0 = p.offset j + (p.col j).length :=
      (p.getD_colPtrs (Nat.succ_le_of_lt inside)).trans (Pattern.offset_succ inside)
    exact ⟨inside, by omega, by omega, row⟩

/-! ### Halving -/

/-- Every half that is taken keeps the place of a number that is there. -/
theorem bisect_eq {xs : Array Nat} {x t base size : Nat} (increasing : xs.toList.Pairwise (· < ·))
    (found : xs[t]? = some x) (start : base ≤ t) (stop : t < base + size)
    (within : base + size ≤ xs.size) : bisect xs x base size = t := by
  fun_induction bisect xs x base size with
  | case1 base size single => omega
  | case2 base size several middle ih =>
    have half : middle = base + size / 2 := rfl
    have inside : middle < xs.size := by omega
    obtain ⟨here, value⟩ := Array.getElem?_eq_some_iff.mp found
    have read : xs.getD middle 0 = xs[middle] := by simp [Array.getD, inside]
    have ordered {a b : Nat} (less : a < b) (last : b < xs.size) : xs[a] < xs[b] :=
      List.pairwise_iff_getElem.mp increasing a b (less.trans last) last less
    by_cases before : t < middle
    · have less : x < xs.getD middle 0 := by
        rw [read, ← value]
        exact ordered before inside
      rw [dif_pos less] at ih
      rw [if_pos less]
      exact ih start (by omega) (by omega)
    · have behind : ¬ x < xs.getD middle 0 := by
        rw [read, ← value]
        rcases Nat.lt_or_eq_of_le (Nat.not_lt.mp before) with less | same
        · exact Nat.lt_asymm (ordered less here)
        · simp [← same]
      rw [dif_neg behind] at ih
      rw [if_neg behind]
      exact ih (Nat.not_lt.mp before) (by omega) (by omega)

/-- The search finds what the pattern has. -/
theorem position?_flat (p : Pattern) (i j : Nat) : p.flat.position? i j = p.position? i j := by
  rw [position?, ncols_flat]
  by_cases inside : j < p.ncols
  · rw [if_neg (Nat.not_le.mpr inside), column_flat inside]
    have start : p.flat.colPtrs.getD j 0 = p.offset j := p.getD_colPtrs inside.le
    rw [start]
    dsimp only
    by_cases member : i ∈ p.col j
    · obtain ⟨t, found⟩ := List.mem_iff_getElem?.mp member
      have place : t < (p.col j).length := (List.getElem?_eq_some_iff.mp found).1
      have increasing : (p.col j).toArray.toList.Pairwise (· < ·) := (p.isColumn_col j).1
      have halved : bisect (p.col j).toArray i 0 (p.col j).toArray.size = t :=
        bisect_eq increasing (by rw [List.getElem?_toArray, found])
          (Nat.zero_le t) (by simpa using place) (by simp)
      rw [halved, List.getElem?_toArray, if_pos found]
      exact (Pattern.position?_eq_some_iff.mpr ⟨t, found, rfl⟩).symm
    · rw [Pattern.position?_eq_none member, List.getElem?_toArray]
      exact if_neg fun found => member (List.mem_of_getElem? found)
  · have none : i ∉ p.col j := fun member => inside (Pattern.lt_ncols_of_mem_col member)
    rw [if_pos (Nat.not_lt.mp inside), Pattern.position?_eq_none none]

end Cotangent.Flat
