import Mathlib.Data.Finset.Card
import Mathlib.Data.Finset.Range
import Cotangent.Pattern.Matching

/-! Pairings of columns with rows, and when a pairing cannot be larger. A matching is valid when its
two arrays are inverse to each other and pair along the pattern. If all unmatched columns lie in a
set of columns whose rows are all matched within the set, no set of independent positions has more
members than the matching has pairs: each member can be charged to a matched column of its own. -/
namespace Cotangent

/-- Positions no two of which share a row or a column. -/
structure IsMatching (rows : Nat → List Nat) (pairs : Finset (Nat × Nat)) : Prop where
  mem : ∀ c ∈ pairs, c.1 ∈ rows c.2
  row_injective : Set.InjOn Prod.fst (pairs : Set (Nat × Nat))
  column_injective : Set.InjOn Prod.snd (pairs : Set (Nat × Nat))

namespace Matching

variable {rows : Nat → List Nat} {nrows ncols : Nat} {m : Matching} {i j k : Nat}

/-- The arrays have a place for every column and row, are inverse to each other, and pair along the
pattern. -/
structure Valid (rows : Nat → List Nat) (nrows ncols : Nat) (m : Matching) : Prop where
  size_rowOf : m.rowOf.size = ncols
  size_colOf : m.colOf.size = nrows
  edge : ∀ j i, m.row? j = some i → i ∈ rows j
  inverse : ∀ j i, m.row? j = some i ↔ m.col? i = some j

theorem lt_of_row? (matched : m.row? j = some i) : j < m.rowOf.size := by
  have at_j := Option.join_eq_some_iff.mp matched
  exact (Array.getElem?_eq_some_iff.mp at_j).1

theorem row?_pair (inside : j < m.rowOf.size) :
    (m.pair j i).row? k = if k = j then some i else m.row? k := by
  unfold row? pair
  rw [Array.getElem?_setIfInBounds]
  by_cases same : j = k
  · subst same
    simp [inside]
  · simp [same, Ne.symm same]

theorem col?_pair (inside : i < m.colOf.size) :
    (m.pair j i).col? k = if k = i then some j else m.col? k := by
  unfold col? pair
  rw [Array.getElem?_setIfInBounds]
  by_cases same : i = k
  · subst same
    simp [inside]
  · simp [same, Ne.symm same]

@[simp] theorem size_rowOf_pair : (m.pair j i).rowOf.size = m.rowOf.size := by simp [pair]

@[simp] theorem size_colOf_pair : (m.pair j i).colOf.size = m.colOf.size := by simp [pair]

/-- A new pair along the pattern leaves all pairs along the pattern. -/
theorem edge_pair (inside : j < m.rowOf.size) (edge : i ∈ rows j)
    (edges : ∀ c i, m.row? c = some i → i ∈ rows c) :
    ∀ c i', (m.pair j i).row? c = some i' → i' ∈ rows c := by
  intro c i' paired
  rw [row?_pair inside] at paired
  split at paired
  · next same =>
    cases paired
    exact same ▸ edge
  · exact edges c i' paired

/-- A row that no column has can be paired, and still every row of a column names the column. -/
theorem forth_pair (inside : j < m.rowOf.size) (bound : i < m.colOf.size)
    (unpaired : ∀ c, m.row? c ≠ some i) (forth : ∀ c i, m.row? c = some i → m.col? i = some c) :
    ∀ c i', (m.pair j i).row? c = some i' → (m.pair j i).col? i' = some c := by
  intro c i' paired
  rw [row?_pair inside] at paired
  rw [col?_pair bound]
  split at paired
  · next same =>
    cases paired
    rw [if_pos rfl, same]
  · rw [if_neg]
    · exact forth c i' paired
    · rintro rfl
      exact unpaired c paired

/-- The matched columns. -/
def columns (m : Matching) : Finset Nat :=
  (Finset.range m.rowOf.size).filter fun j => (m.row? j).isSome

theorem mem_columns : j ∈ m.columns ↔ ∃ i, m.row? j = some i := by
  rw [columns, Finset.mem_filter, Finset.mem_range, Option.isSome_iff_exists]
  exact and_iff_right_of_imp fun ⟨_, matched⟩ => lt_of_row? matched

theorem size_eq_card : m.size = m.columns.card := by
  have listed : m.rowOf.toList = (List.range m.rowOf.size).map m.row? := by
    refine List.ext_getElem (by simp) ?_
    intro j inside _
    rw [Array.length_toList] at inside
    simp [row?, inside]
  rw [size, ← Array.countP_toList, listed, List.countP_map, List.countP_eq_length_filter]
  simp [columns, Finset.card_def, Finset.filter_val, Multiset.range, Function.comp_def]

theorem size_le : m.size ≤ m.rowOf.size := by
  rw [size_eq_card]
  exact (Finset.card_filter_le _ _).trans (Finset.card_range _).le

/-- A set of columns with all unmatched ones, whose rows are all matched within the set. -/
structure Closed (rows : Nat → List Nat) (m : Matching) (reached : Nat → Prop) : Prop where
  free : ∀ j, j < m.rowOf.size → m.row? j = none → reached j
  next : ∀ j, reached j → ∀ i ∈ rows j, ∃ c, m.col? i = some c ∧ reached c

/-- Where a position is charged: in a closed set to the column of its row, elsewhere to its own. -/
theorem Closed.charge (valid : m.Valid rows nrows ncols) {reached : Nat → Prop}
    (closed : m.Closed rows reached) (edge : i ∈ rows j) (inside : j < ncols) :
    ∃ c ∈ m.columns, (reached j ∧ reached c ∧ m.col? i = some c) ∨ (¬ reached j ∧ c = j) := by
  by_cases here : reached j
  · obtain ⟨c, matched, there⟩ := closed.next j here i edge
    exact ⟨c, mem_columns.mpr ⟨i, (valid.inverse c i).mpr matched⟩, .inl ⟨here, there, matched⟩⟩
  · cases matched : m.row? j with
    | none => exact absurd (closed.free j (valid.size_rowOf ▸ inside) matched) here
    | some r => exact ⟨j, mem_columns.mpr ⟨r, matched⟩, .inr ⟨here, rfl⟩⟩

/-- With a closed set there is no larger matching. -/
theorem Valid.card_le_size (valid : m.Valid rows nrows ncols) {reached : Nat → Prop}
    (closed : m.Closed rows reached) (beyond : ∀ j, ncols ≤ j → rows j = [])
    {pairs : Finset (Nat × Nat)} (independent : IsMatching rows pairs) :
    pairs.card ≤ m.size := by
  have charged : ∀ c : pairs, ∃ k ∈ m.columns,
      (reached c.1.2 ∧ reached k ∧ m.col? c.1.1 = some k) ∨ (¬ reached c.1.2 ∧ k = c.1.2) := by
    rintro ⟨⟨i, j⟩, member⟩
    have edge := independent.mem _ member
    refine closed.charge valid edge (Nat.lt_of_not_le fun outside => ?_)
    simp [beyond j outside] at edge
  choose column matched cause using charged
  rw [size_eq_card, ← Finset.card_attach]
  refine Finset.card_le_card_of_injOn column (fun c _ => matched c) ?_
  intro c _ d _ same
  have at_c := cause c
  have at_d := cause d
  rw [same] at at_c
  rcases at_c with ⟨-, there, row⟩ | ⟨apart, at_c⟩ <;>
    rcases at_d with ⟨-, there', row'⟩ | ⟨apart', at_d⟩
  · have rows_eq := Option.some.inj
      (((valid.inverse _ _).mpr row).symm.trans ((valid.inverse _ _).mpr row'))
    exact Subtype.ext (independent.row_injective c.2 d.2 rows_eq)
  · exact absurd (at_d ▸ there) apart'
  · exact absurd (at_c ▸ there') apart
  · exact Subtype.ext (independent.column_injective c.2 d.2 (at_c.symm.trans at_d))

end Matching

end Cotangent
