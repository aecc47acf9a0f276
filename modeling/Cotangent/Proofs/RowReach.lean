import Cotangent.Proofs.Parents

/-! Rows of the factor from the elimination tree. The way from an entry of row `k` runs up to the
first column met before, so that every column of the row is met once, and ways are put in front of
each other, so that every column stands before the columns above it. -/
namespace Cotangent.EliminationTree

open Pattern

variable {p : Pattern} {parent : Array (Option Nat)} {mark mark' : Array Nat}
  {k stamp fuel j : Nat} {way : List Nat}

/-- A column outside the array counts as marked, so a mark needs no bound. -/
theorem getD_setIfInBounds_mark (v : Nat) : (mark.setIfInBounds j stamp).getD v stamp =
    if v = j then stamp else mark.getD v stamp := by
  simp only [Array.getD_eq_getD_getElem?, Array.getElem?_setIfInBounds]
  by_cases same : j = v
  · subst same
    by_cases inside : j < mark.size <;> simp [inside]
  · simp [same, Ne.symm same]

/-- What the way from column `j` adds to the marks. -/
structure Way (p : Pattern) (k stamp j : Nat) (mark : Array Nat) (way : List Nat)
    (mark' : Array Nat) : Prop where
  size : mark'.size = mark.size
  marks : ∀ v, mark'.getD v stamp = if v ∈ way then stamp else mark.getD v stamp
  above : ∀ v ∈ way, p.Above j v ∧ p.Fill k v
  fresh : ∀ v ∈ way, mark.getD v stamp ≠ stamp
  increasing : way.Pairwise (· < ·)
  /-- The way goes on until a marked column. -/
  closed : ∀ v ∈ way, ∀ q, p.IsParent v q → q ∈ way ∨ mark.getD q stamp = stamp
  start : j ∈ way ∨ mark.getD j stamp = stamp

theorem Way.nil (met : mark.getD j stamp = stamp) : Way p k stamp j mark [] mark := by
  constructor <;> simp [met]

/-- A column of row `k` that is not marked lies on the way, and its parent leads on. -/
theorem Way.cons {q : Nat} (unmet : mark.getD j stamp ≠ stamp) (fill : p.Fill k j)
    (up : p.IsParent j q) (rest : Way p k stamp q (mark.setIfInBounds j stamp) way mark') :
    Way p k stamp j mark (j :: way) mark' := by
  have later : ∀ v ∈ way, j < v := fun v member => up.lt.trans_le (rest.above v member).1.le
  constructor
  case size => simp [rest.size]
  case marks =>
    intro v
    simp only [rest.marks, getD_setIfInBounds_mark, List.mem_cons]
    by_cases same : v = j <;> simp [same]
  case above =>
    intro v member
    rcases List.mem_cons.mp member with rfl | member
    · exact ⟨.refl, fill⟩
    · exact ⟨.head up (rest.above v member).1, (rest.above v member).2⟩
  case fresh =>
    intro v member
    rcases List.mem_cons.mp member with rfl | member
    · exact unmet
    · have new := rest.fresh v member
      rwa [getD_setIfInBounds_mark, if_neg (later v member).ne'] at new
  case increasing => exact List.pairwise_cons.mpr ⟨later, rest.increasing⟩
  case closed =>
    intro v member r above
    -- the mark set at `j` is on the way itself
    have onward : r ∈ way ∨ (mark.setIfInBounds j stamp).getD r stamp = stamp := by
      rcases List.mem_cons.mp member with rfl | member
      · rw [above.unique up]
        exact rest.start
      · exact rest.closed v member r above
    rcases onward with found | met
    · exact .inl (List.mem_cons_of_mem j found)
    · rw [getD_setIfInBounds_mark] at met
      split at met
      next same => exact .inl (same ▸ List.mem_cons_self)
      next => exact .inr met
  case start => exact .inl List.mem_cons_self

variable (tree : ∀ j q, lookup parent j = some q ↔ p.IsParent j q)

include tree in
/-- The way from a column of row `k`. It ends at `k` at the latest, which is marked. -/
theorem way_path (fill : p.Fill k j) (enough : k ≤ j + fuel) (root : mark.getD k stamp = stamp) :
    Way p k stamp j mark (path parent stamp fuel (some j) mark).1
      (path parent stamp fuel (some j) mark).2 := by
  induction fuel generalizing j mark with
  | zero =>
    have same : j = k := le_antisymm fill.le (by omega)
    exact .nil (same ▸ root)
  | succ fuel ih =>
    rw [path]
    split
    · next met => exact .nil met
    · next unmet =>
      have below : j < k := fill.le.lt_of_ne fun same => unmet (same ▸ root)
      obtain ⟨q, last, up, fill'⟩ := fill.exists_parent below
      have next := (tree j q).mpr up
      have root' : (mark.setIfInBounds j stamp).getD k stamp = stamp := by
        rw [getD_setIfInBounds_mark, root, ite_self]
      have up_lt := up.lt
      have rest := ih fill' (by omega) root'
      rw [next]
      exact .cons unmet fill up rest

/-- The columns met in row `k` after some of its entries. -/
structure Met (p : Pattern) (k stamp : Nat) (mark : Array Nat) (done : List Nat)
    (acc : List Nat × Array Nat) : Prop where
  size : acc.2.size = mark.size
  marks : ∀ v < mark.size, acc.2.getD v stamp = stamp ↔ v = k ∨ v ∈ acc.1
  /-- Other marks are as they were. -/
  kept : ∀ v m : Nat, acc.2[v]? = some m → m = stamp ∨ mark[v]? = some m
  fill : ∀ v ∈ acc.1, p.Fill k v ∧ v < k
  closed : ∀ v ∈ acc.1, ∀ q, p.IsParent v q → q = k ∨ q ∈ acc.1
  /-- No column stands after one that is above it. -/
  ordered : acc.1.Pairwise fun v w => ¬ p.Above w v
  done : ∀ i ∈ done, i ∈ acc.1

namespace Met

variable {done : List Nat} {acc : List Nat × Array Nat} {i : Nat}

theorem start (inside : k < mark.size) (unmarked : ∀ v m : Nat, mark[v]? = some m → m ≠ stamp) :
    Met p k stamp mark [] ([], mark.setIfInBounds k stamp) := by
  constructor
  case size => simp
  case marks =>
    intro v within
    have old := unmarked v mark[v] (Array.getElem?_eq_getElem within)
    rw [getD_setIfInBounds_mark, Array.getD_eq_getD_getElem?, Array.getElem?_eq_getElem within]
    by_cases same : v = k <;> simp [same, old]
  case kept =>
    intro v m found
    simp only [Array.getElem?_setIfInBounds] at found
    split at found
    next =>
      cases found
      exact .inl rfl
    next => exact .inr found
  all_goals simp

/-- What is above a column met is met, up to `k`. -/
theorem climb (met : Met p k stamp mark done acc) {v w : Nat} (member : v ∈ acc.1)
    (above : p.Above v w) : k ≤ w ∨ w ∈ acc.1 := by
  induction above with
  | refl => exact .inr member
  | tail way up ih =>
    rcases ih with last | found
    · exact .inl (last.trans up.lt.le)
    · exact (met.closed _ found _ up).imp (fun same => same.ge) id

/-- One more entry of the row. -/
theorem step (met : Met p k stamp mark done acc) (inside : k < mark.size) (fill : p.Fill k i)
    (below : i < k) (found : Way p k stamp i acc.2 way mark') :
    Met p k stamp mark (done ++ [i]) (way ++ acc.1, mark') := by
  have within {v : Nat} (fill : p.Fill k v) : v < mark.size := fill.le.trans_lt inside
  have new : ∀ v ∈ way, v < k ∧ v ∉ acc.1 := by
    intro v member
    have filled := (found.above v member).2
    have unmet := mt (met.marks v (within filled)).mpr (found.fresh v member)
    rw [not_or] at unmet
    exact ⟨filled.le.lt_of_ne unmet.1, unmet.2⟩
  constructor
  case size => exact found.size.trans met.size
  case marks =>
    intro v small
    rw [found.marks, List.mem_append]
    by_cases member : v ∈ way
    · simp [member]
    · rw [if_neg member, met.marks v small]
      simp [member]
  case kept =>
    intro v m stored
    have small : v < mark'.size := (Array.getElem?_eq_some_iff.mp stored).1
    have value := found.marks v
    rw [Array.getD_eq_getD_getElem?, stored, Option.getD_some] at value
    split at value
    · exact .inl value
    · refine met.kept v m ?_
      rw [found.size] at small
      simpa [Array.getD, small] using value.symm
  case fill =>
    intro v member
    rcases List.mem_append.mp member with here | before
    · exact ⟨(found.above v here).2, (new v here).1⟩
    · exact met.fill v before
  case closed =>
    intro v member q up
    rcases List.mem_append.mp member with here | before
    · rcases found.closed v here q up with known | marked
      · exact .inr (List.mem_append_left _ known)
      · have filled : p.Fill k q :=
          (found.above v here).2.climb (.single up) (by
            obtain ⟨q', last, up', -⟩ := (found.above v here).2.exists_parent (new v here).1
            exact up.unique up' ▸ last)
        exact ((met.marks q (within filled)).mp marked).imp id (List.mem_append_right _)
    · exact (met.closed v before q up).imp id (List.mem_append_right _)
  case ordered =>
    refine List.pairwise_append.mpr ⟨?_, met.ordered, fun v here w before above => ?_⟩
    · exact found.increasing.imp fun less above => absurd above.le (Nat.not_le.mpr less)
    · rcases met.climb before above with last | known
      · exact absurd (new v here).1 (Nat.not_lt.mpr last)
      · exact (new v here).2 known
  case done =>
    intro v member
    rw [List.mem_append]
    rcases List.mem_append.mp member with earlier | here
    · exact .inr (met.done v earlier)
    · rw [List.mem_singleton.mp here]
      refine found.start.imp id fun marked => ?_
      exact ((met.marks i (within fill)).mp marked).resolve_left below.ne

end Met

/-- Row `k` of the factor without the diagonal: its columns, each once and before those above it. -/
structure Row (p : Pattern) (k : Nat) (reach : List Nat) : Prop where
  mem_iff : ∀ j, j ∈ reach ↔ j < k ∧ p.Fill k j
  ordered : reach.Pairwise fun v w => ¬ p.Above w v

theorem Row.nodup {reach : List Nat} (row : Row p k reach) : reach.Nodup :=
  row.ordered.imp fun {v w} apart (same : v = w) => apart (same ▸ Relation.ReflTransGen.refl)

include tree in
/-- The search for row `k` finds the row, and leaves marks up to its stamp. -/
theorem row_rowReach (size : parent.size = mark.size) (inside : k < mark.size)
    (marks : ∀ v m : Nat, mark[v]? = some m → m ≤ k) :
    Row p k (rowReach p.lower.transpose parent k mark).1 ∧
      (rowReach p.lower.transpose parent k mark).2.size = mark.size ∧
      ∀ v m : Nat, (rowReach p.lower.transpose parent k mark).2[v]? = some m → m ≤ k + 1 := by
  have start : Met p k (k + 1) mark [] ([], mark.setIfInBounds k (k + 1)) :=
    .start inside fun v m found same => by have := marks v m found; omega
  have met : Met p k (k + 1) mark ((p.lower.transpose.col k).filter (· < k))
      (rowReach p.lower.transpose parent k mark) := by
    refine foldl_keeps (P := Met p k (k + 1) mark) start fun done i rest acc split met => ?_
    have listed : i ∈ (p.lower.transpose.col k).filter (· < k) := by simp [split]
    obtain ⟨given, below⟩ := List.mem_filter.mp listed
    have fill := fill_of_upper given
    have root := (met.marks k inside).mpr (.inl rfl)
    exact met.step inside fill (of_decide_eq_true below)
      (way_path tree fill (by omega) root)
  refine ⟨⟨fun j => ⟨fun member => (met.fill j member).symm, ?_⟩, met.ordered⟩, met.size, ?_⟩
  · rintro ⟨below, fill⟩
    obtain ⟨i, first, given, above, -⟩ := fill_iff_exists_entry.mp fill
    have listed : i ∈ (p.lower.transpose.col k).filter (· < k) :=
      List.mem_filter.mpr ⟨mem_col_upper.mpr ⟨given, first⟩,
        decide_eq_true (above.le.trans_lt below)⟩
    rcases met.climb (met.done i listed) above with last | found
    · exact absurd below (Nat.not_lt.mpr last)
    · exact found
  · intro v m found
    rcases met.kept v m found with same | old
    · exact same.le
    · exact (marks v m old).trans (Nat.le_succ k)

end Cotangent.EliminationTree
