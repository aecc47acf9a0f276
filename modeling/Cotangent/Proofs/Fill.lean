import Mathlib.Data.Nat.Find
import Mathlib.Logic.Relation
import Mathlib.Order.Bounds.Basic
import Cotangent.Pattern.Basic

/-! Fill. Elimination of column `j` joins every two rows that have an entry in it, so a factor has
entries where the matrix has none. The parent of a column is the first row below the diagonal of the
factor. A row of the factor then needs no elimination to be known: it consists of the columns on the
ways from the entries of the matrix through parents. -/
namespace Cotangent.Pattern

/-- The positions of the factor: the lower triangle, closed under elimination. -/
inductive Fill (p : Pattern) : Nat → Nat → Prop
  | entry {i j : Nat} (given : i ∈ p.col j) (below : j ≤ i) : Fill p i j
  /-- Rows `k` and `i` meet in column `j`. -/
  | join {i j k : Nat} (lower : Fill p i j) (upper : Fill p k j) (after : j < k) (before : k ≤ i) :
      Fill p i k

/-- Sets of positions on and below the diagonal that hold the lower triangle and, with two rows of a
column, the position where they meet. -/
structure EliminationClosed (p : Pattern) (s : Set (Nat × Nat)) : Prop where
  triangular : ∀ c ∈ s, c.2 ≤ c.1
  entry : ∀ i j, i ∈ p.col j → j ≤ i → (i, j) ∈ s
  join : ∀ i j k, (i, j) ∈ s → (k, j) ∈ s → j < k → k ≤ i → (i, k) ∈ s

/-- The first row below the diagonal in which the factor has an entry in column `j`. -/
def IsParent (p : Pattern) (j q : Nat) : Prop := IsLeast {i | j < i ∧ p.Fill i j} q

/-- Column `a` is on the way from column `j` through parents. -/
def Above (p : Pattern) : Nat → Nat → Prop := Relation.ReflTransGen p.IsParent

variable {p : Pattern} {i j k a q : Nat}

theorem Fill.le (fill : p.Fill i j) : j ≤ i := by
  cases fill with
  | entry given below => exact below
  | join lower upper after before => exact before

theorem Fill.lt_nrows (fill : p.Fill i j) : i < p.nrows := by
  induction fill with
  | entry given below => exact lt_nrows_of_mem_col given
  | join lower upper after before ih => exact ih

/-- Fill is the least closed set. -/
theorem isLeast_fill (p : Pattern) :
    IsLeast {s | p.EliminationClosed s} {c | p.Fill c.1 c.2} := by
  constructor
  · constructor
    · exact fun c fill => Fill.le fill
    · exact fun i j given below => Fill.entry given below
    · exact fun i j k lower upper after before => Fill.join lower upper after before
  · rintro s closed ⟨i, j⟩ (fill : p.Fill i j)
    induction fill with
    | entry given below => exact closed.entry _ _ given below
    | join lower upper after before ih ih' => exact closed.join _ _ _ ih ih' after before

/-! ### Parents -/

theorem IsParent.lt (parent : p.IsParent j q) : j < q := parent.1.1

theorem IsParent.fill (parent : p.IsParent j q) : p.Fill q j := parent.1.2

theorem IsParent.unique (parent : p.IsParent j q) (parent' : p.IsParent j a) : q = a :=
  IsLeast.unique parent parent'

/-- A row with an entry below the diagonal has one in the column of the parent too. -/
theorem Fill.exists_parent (fill : p.Fill i j) (below : j < i) :
    ∃ q ≤ i, p.IsParent j q ∧ p.Fill i q := by
  classical
  have some : ∃ i, j < i ∧ p.Fill i j := ⟨i, below, fill⟩
  have first : Nat.find some ≤ i := Nat.find_min' some ⟨below, fill⟩
  have found := Nat.find_spec some
  refine ⟨Nat.find some, first, ⟨found, fun _ other => Nat.find_min' some other⟩, ?_⟩
  exact fill.join found.2 found.1 first

/-! ### Ways through parents -/

theorem Above.le (above : p.Above j a) : j ≤ a := by
  induction above with
  | refl => exact le_rfl
  | tail _ parent ih => exact ih.trans parent.lt.le

/-- A way that does not end where it starts begins with the parent. -/
theorem Above.cases_parent (above : p.Above j a) : a = j ∨ ∃ q, p.IsParent j q ∧ p.Above q a := by
  rcases Relation.ReflTransGen.cases_head above with rfl | ⟨q, parent, rest⟩
  · exact .inl rfl
  · exact .inr ⟨q, parent, rest⟩

/-- Of two columns above a third, one is above the other. -/
theorem Above.total (above : p.Above j a) (above' : p.Above j k) : p.Above a k ∨ p.Above k a :=
  Relation.ReflTransGen.total_of_right_unique (fun _ _ _ h h' => h.unique h') above above'

/-- Above a column without a parent before `k`, everything is `k` or later. -/
theorem Above.le_of_parent (above : p.Above j a) (parent : p.IsParent j k) (other : a ≠ j) :
    k ≤ a := by
  rcases above.cases_parent with same | ⟨q, parent', rest⟩
  · exact absurd same other
  · rw [parent.unique parent']
    exact rest.le

/-- A row has entries in all columns above one of its columns, up to the diagonal. -/
theorem Fill.climb (fill : p.Fill i j) (above : p.Above j a) (before : a ≤ i) : p.Fill i a := by
  induction above with
  | refl => exact fill
  | @tail b c way parent ih =>
    have inner := ih (parent.lt.le.trans before)
    exact inner.join parent.fill parent.lt before

/-- The columns of a row meet at its diagonal. -/
theorem Fill.above (fill : p.Fill i j) : p.Above j i := by
  -- the parent of a column lies between it and the diagonal, so the distance shrinks
  induction distance : i - j using Nat.strong_induction_on generalizing j with
  | _ d ih =>
    rcases fill.le.eq_or_lt with rfl | below
    · exact .refl
    · obtain ⟨q, last, parent, fill'⟩ := fill.exists_parent below
      have shorter : i - q < d := by
        have := parent.lt
        omega
      exact .head parent (ih (i - q) shorter fill' rfl)

/-- A row of the factor holds the columns on the ways from the entries of the matrix. -/
theorem fill_iff_exists_entry :
    p.Fill i j ↔ ∃ k ≤ i, i ∈ p.col k ∧ p.Above k j ∧ j ≤ i := by
  constructor
  · intro fill
    induction fill with
    | @entry i j given below => exact ⟨j, below, given, .refl, below⟩
    | @join i j k lower upper after before ih =>
      obtain ⟨c, first, given, above, -⟩ := ih
      exact ⟨c, first, given, above.trans upper.above, before⟩
  · rintro ⟨k, first, given, above, before⟩
    exact (Fill.entry given first).climb above before

/-! ### The upper triangle -/

/-- A column of the upper triangle lists a row of the lower one. -/
theorem mem_col_upper : i ∈ p.lower.transpose.col k ↔ k ∈ p.col i ∧ i ≤ k := by
  rw [mem_col_transpose, mem_col_lower]

theorem ncols_upper (p : Pattern) : p.lower.transpose.ncols = p.nrows := by
  simp [transpose, lower, ncols]

theorem fill_of_upper (given : i ∈ p.lower.transpose.col k) : p.Fill k i := by
  obtain ⟨given, before⟩ := mem_col_upper.mp given
  exact .entry given before

end Cotangent.Pattern
