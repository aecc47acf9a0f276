import Cotangent.Factor.EliminationTree
import Cotangent.Proofs.Computation
import Cotangent.Proofs.Fill

/-! The elimination tree is found row by row. Between two rows the array of parents holds the parents
that are rows already seen, and the array of ancestors has short cuts that skip part of a way. An
entry of the new row climbs the short cuts to the root of its tree, and the root gets the row for its
parent. After the last row every column has the parent that fill gives it. -/
namespace Cotangent.EliminationTree

open Pattern

theorem lookup_setIfInBounds {xs : Array (Option Nat)} {i j : Nat} {x : Option Nat}
    (inside : j < xs.size) : lookup (xs.setIfInBounds j x) i = if i = j then x else lookup xs i := by
  simp only [lookup, Array.getElem?_setIfInBounds]
  by_cases same : j = i
  · subst same
    simp [inside]
  · simp [same, Ne.symm same]

theorem lookup_replicate {n j : Nat} : lookup (Array.replicate n none) j = none := by
  simp only [lookup, Array.getElem?_replicate]
  split <;> rfl

variable {p : Pattern} {s t : State} {n k c j : Nat}

/-- What the arrays say while row `k` is worked on. -/
structure Grown (p : Pattern) (n k : Nat) (s : State) : Prop where
  size_parent : s.parent.size = n
  size_ancestor : s.ancestor.size = n
  parent : ∀ j q, lookup s.parent j = some q → p.IsParent j q ∧ q ≤ k
  /-- A short cut leads up a way. -/
  ancestor : ∀ j a, lookup s.ancestor j = some a → p.Above j a ∧ j < a ∧ a ≤ k
  /-- A column without a short cut is a root. -/
  root : ∀ j, lookup s.ancestor j = none → lookup s.parent j = none
  known : ∀ j q, p.IsParent j q → q < k → lookup s.parent j = some q

/-- What the arrays say between two rows, when `k` rows are done. -/
structure Settled (p : Pattern) (n k : Nat) (s : State) : Prop extends Grown p n k s where
  before : ∀ j a, lookup s.ancestor j = some a → a < k

/-- Every column above `j` with parent `k` has it. -/
def Linked (p : Pattern) (k : Nat) (s : State) (j : Nat) : Prop :=
  ∀ r, p.IsParent r k → p.Above j r → lookup s.parent r = some k

theorem Linked.mono (linked : Linked p k s j)
    (kept : ∀ j q, lookup s.parent j = some q → lookup t.parent j = some q) : Linked p k t j :=
  fun r parent above => kept r k (linked r parent above)

namespace Grown

/-- A root with an entry in row `k` has parent `k`. -/
theorem isParent (grown : Grown p n k s) (fill : p.Fill k c) (below : c < k)
    (root : lookup s.ancestor c = none) : p.IsParent c k := by
  obtain ⟨q, last, parent, -⟩ := fill.exists_parent below
  rcases last.eq_or_lt with rfl | earlier
  · exact parent
  · have known := grown.known c q parent earlier
    rw [grown.root c root] at known
    cases known

/-- One column on the way: its short cut becomes `k`, and a root gets its parent. -/
def visit (k c : Nat) (s : State) : State :=
  { parent := if (lookup s.ancestor c).isNone then s.parent.setIfInBounds c (some k) else s.parent
    ancestor := s.ancestor.setIfInBounds c (some k) }

theorem lookup_ancestor_visit (grown : Grown p n k s) (inside : c < n) :
    lookup (visit k c s).ancestor j = if j = c then some k else lookup s.ancestor j :=
  lookup_setIfInBounds (grown.size_ancestor.symm ▸ inside)

theorem lookup_parent_visit (grown : Grown p n k s) (inside : c < n) :
    lookup (visit k c s).parent j =
      if j = c ∧ lookup s.ancestor c = none then some k else lookup s.parent j := by
  simp only [visit, Option.isNone_iff_eq_none]
  by_cases root : lookup s.ancestor c = none
  · rw [if_pos root, lookup_setIfInBounds (grown.size_parent.symm ▸ inside)]
    simp [root]
  · simp [root]

/-- A parent that is known stays, since only roots get one. -/
theorem kept_visit (grown : Grown p n k s) (inside : c < n) (j q : Nat)
    (known : lookup s.parent j = some q) : lookup (visit k c s).parent j = some q := by
  rw [grown.lookup_parent_visit inside, if_neg, known]
  rintro ⟨rfl, root⟩
  rw [grown.root j root] at known
  cases known

theorem visit_grown (grown : Grown p n k s) (fill : p.Fill k c) (below : c < k) (inside : c < n) :
    Grown p n k (visit k c s) := by
  constructor
  case size_parent =>
    unfold visit
    split <;> simp [grown.size_parent]
  case size_ancestor => simp [visit, grown.size_ancestor]
  case parent =>
    intro j q known
    rw [grown.lookup_parent_visit inside] at known
    split at known
    next here =>
      obtain ⟨rfl, root⟩ := here
      cases known
      exact ⟨grown.isParent fill below root, le_rfl⟩
    next => exact grown.parent j q known
  case ancestor =>
    intro j a known
    rw [grown.lookup_ancestor_visit inside] at known
    split at known
    next here =>
      subst here
      cases known
      exact ⟨fill.above, below, le_rfl⟩
    next => exact grown.ancestor j a known
  case root =>
    intro j root
    rw [grown.lookup_ancestor_visit inside] at root
    split at root
    next => cases root
    next other =>
      rw [grown.lookup_parent_visit inside, if_neg fun here => other here.1]
      exact grown.root j root
  case known =>
    intro j q parent earlier
    exact grown.kept_visit inside j q (grown.known j q parent earlier)

/-- What a climb from column `c` achieves. -/
structure Climbed (p : Pattern) (n k c : Nat) (s t : State) : Prop where
  grown : Grown p n k t
  kept : ∀ j q, lookup s.parent j = some q → lookup t.parent j = some q
  linked : Linked p k t c
  marked : ∀ j, lookup t.ancestor j = some k → lookup s.ancestor j = some k ∨ Linked p k t j

/-- A climb that has come to row `k` is over. -/
theorem Climbed.top (grown : Grown p n k s) (last : k ≤ c) : Climbed p n k c s s :=
  ⟨grown, fun _ _ => id,
    fun _ parent above => absurd (parent.lt.trans_le last) (Nat.not_lt.mpr above.le), fun _ => .inl⟩

theorem marked_visit (grown : Grown p n k s) (inside : c < n) :
    lookup (visit k c s).ancestor j = some k ↔ j = c ∨ lookup s.ancestor j = some k := by
  rw [grown.lookup_ancestor_visit inside]
  split <;> simp [*]

/-- A climb ends at a root, which gets its parent. -/
theorem Climbed.root (grown : Grown p n k s) (inside : c < n) (fill : p.Fill k c) (below : c < k)
    (stops : lookup s.ancestor c = none) : Climbed p n k c s (visit k c s) := by
  have linked : Linked p k (visit k c s) c := by
    intro r parent above
    have same : r = c := by
      by_contra other
      have := above.le_of_parent (grown.isParent fill below stops) other
      exact absurd parent.lt (Nat.not_lt.mpr this)
    rw [grown.lookup_parent_visit inside, if_pos ⟨same, stops⟩]
  refine ⟨grown.visit_grown fill below inside, grown.kept_visit inside, linked, fun j known => ?_⟩
  rcases (grown.marked_visit inside).mp known with rfl | before
  · exact .inr linked
  · exact .inl before

/-- A climb goes on at the end of a short cut. If the short cut leads to `k`, an earlier climb of the
row has linked the column. -/
theorem Climbed.jump (grown : Grown p n k s) (inside : c < n) {a : Nat}
    (next : lookup s.ancestor c = some a)
    (marked : ∀ j, lookup s.ancestor j = some k → j < c ∨ Linked p k s j)
    (rest : Climbed p n k a (visit k c s) t) : Climbed p n k c s t := by
  obtain ⟨above, later, last⟩ := grown.ancestor c a next
  have kept := grown.kept_visit (k := k) inside
  have linked : Linked p k t c := by
    intro r parent above'
    rcases above.total above' with beyond | before
    · exact rest.linked r parent beyond
    · rcases before.cases_parent with rfl | ⟨q, parent', way⟩
      · exact rest.linked a parent .refl
      · -- the short cut leads past a column with parent `k`, so it leads to `k` itself
        have same : a = k := by
          rw [← parent.unique parent'] at way
          exact le_antisymm last way.le
        subst same
        rcases marked c next with before | linked
        · exact absurd before (Nat.lt_irrefl c)
        · exact rest.kept r a (kept r a (linked r parent above'))
  refine ⟨rest.grown, fun j q known => rest.kept j q (kept j q known), linked, fun j known => ?_⟩
  rcases rest.marked j known with before | linked'
  · rcases (grown.marked_visit inside).mp before with rfl | before
    · exact .inr linked
    · exact .inl before
  · exact .inr linked'

/-- The climb from a column of row `k`. Short cuts to `k` met on the way belong to earlier climbs of
the row, which linked their columns. -/
theorem climbed {fuel : Nat} (grown : Grown p n k s) (inside : k < n) (fill : p.Fill k c)
    (enough : k ≤ c + fuel)
    (marked : ∀ j, lookup s.ancestor j = some k → j < c ∨ Linked p k s j) :
    Climbed p n k c s (climb k fuel (some c) s) := by
  induction fuel generalizing c s with
  | zero => exact .top grown enough
  | succ fuel ih =>
    rw [climb]
    split
    · next last => exact .top grown last
    next below =>
    have below : c < k := Nat.lt_of_not_le below
    have within : c < n := below.trans inside
    change Climbed p n k c s (climb k fuel (lookup s.ancestor c) (visit k c s))
    cases next : lookup s.ancestor c with
    | none =>
      have stops : climb k fuel none (visit k c s) = visit k c s := by
        cases fuel <;> rfl
      rw [stops]
      exact .root grown within fill below next
    | some a =>
      obtain ⟨above, later, last⟩ := grown.ancestor c a next
      refine .jump grown within next marked (ih (grown.visit_grown fill below within)
        (fill.climb above last) (by omega) fun j known => ?_)
      rcases (grown.marked_visit within).mp known with rfl | known
      · exact .inl later
      · exact (marked j known).imp (fun before => before.trans later)
          fun linked => linked.mono (grown.kept_visit within)

end Grown

/-- Row `k`: every column with parent `k` gets it, since some entry of the row is below it. -/
theorem Settled.row (settled : Settled p n k s) (inside : k < n) : Settled p n (k + 1)
    ((p.lower.transpose.col k).foldl (fun s i => climb k n (some i) s) s) := by
  have start : Grown p n k s ∧ (∀ j, lookup s.ancestor j = some k → Linked p k s j) ∧
      ∀ i ∈ ([] : List Nat), Linked p k s i :=
    ⟨settled.toGrown, fun j known => absurd (settled.before j k known) (Nat.lt_irrefl k), by simp⟩
  obtain ⟨grown, -, linked⟩ := foldl_keeps (f := fun s i => climb k n (some i) s)
    (P := fun done t => Grown p n k t ∧ (∀ j, lookup t.ancestor j = some k → Linked p k t j) ∧
      ∀ i ∈ done, Linked p k t i) start
      fun done i rest t (split : p.lower.transpose.col k = done ++ i :: rest) reached => by
    obtain ⟨grown, marked, linked⟩ := reached
    have fill : p.Fill k i := fill_of_upper (by simp [split])
    have step : Grown.Climbed p n k i t (climb k n (some i) t) :=
      grown.climbed inside fill (by omega) fun j known => .inr (marked j known)
    refine ⟨step.grown, fun j known => ?_, fun j member => ?_⟩
    · rcases step.marked j known with before | linked
      · exact (marked j before).mono step.kept
      · exact linked
    · rcases List.mem_append.mp member with earlier | here
      · exact (linked j earlier).mono step.kept
      · rw [List.mem_singleton.mp here]
        exact step.linked
  constructor
  case before =>
    intro j a known
    exact Nat.lt_succ_of_le (grown.ancestor j a known).2.2
  constructor
  case size_parent => exact grown.size_parent
  case size_ancestor => exact grown.size_ancestor
  case parent =>
    intro j q known
    obtain ⟨parent, last⟩ := grown.parent j q known
    exact ⟨parent, by omega⟩
  case ancestor =>
    intro j a known
    obtain ⟨above, later, last⟩ := grown.ancestor j a known
    exact ⟨above, later, by omega⟩
  case root => exact grown.root
  case known =>
    intro j q parent before
    rcases Nat.lt_succ_iff_lt_or_eq.mp before with earlier | rfl
    · exact grown.known j q parent earlier
    · obtain ⟨i, first, given, above, -⟩ := fill_iff_exists_entry.mp parent.fill
      exact linked i (mem_col_upper.mpr ⟨given, first⟩) j parent above

theorem settled_start (p : Pattern) (n : Nat) :
    Settled p n 0 ⟨Array.replicate n none, Array.replicate n none⟩ := by
  constructor
  case before => simp [lookup_replicate]
  constructor <;> simp [lookup_replicate]

theorem settled_rows (p : Pattern) : ∀ m ≤ p.nrows, Settled p p.nrows m ((List.range m).foldl
    (fun s k => (p.lower.transpose.col k).foldl (fun s i => climb k p.nrows (some i) s) s)
    ⟨Array.replicate p.nrows none, Array.replicate p.nrows none⟩) := by
  intro m inside
  induction m with
  | zero => exact settled_start p p.nrows
  | succ m ih =>
    rw [List.range_succ, List.foldl_append]
    exact (ih (by omega)).row (by omega)

theorem settled_parents (p : Pattern) : ∃ s, parents p.lower.transpose = s.parent ∧
    Settled p p.nrows p.nrows s := by
  refine ⟨_, ?_, settled_rows p p.nrows le_rfl⟩
  rw [parents, ncols_upper]

/-- The parents found are those of fill. -/
theorem lookup_parents_eq_some {p : Pattern} {j q : Nat} :
    lookup (parents p.lower.transpose) j = some q ↔ p.IsParent j q := by
  obtain ⟨s, found, settled⟩ := settled_parents p
  rw [found]
  constructor
  · exact fun known => (settled.parent j q known).1
  · exact fun parent => settled.known j q parent parent.fill.lt_nrows

theorem size_parents (p : Pattern) : (parents p.lower.transpose).size = p.nrows := by
  obtain ⟨s, found, settled⟩ := settled_parents p
  rw [found, settled.size_parent]

end Cotangent.EliminationTree
