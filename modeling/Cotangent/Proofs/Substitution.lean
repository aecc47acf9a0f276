import Mathlib
import Cotangent.Factor.Basic
import Cotangent.Factor.Triangular
import Cotangent.Proofs.Coefficients

/-! Loops over vectors, for scalars without laws. An array may be built entry by entry; a loop may write
the places of a vector that holds numbers already, or take the columns of a triangular matrix off the
places that are left. Each gives an entry by a rule from the entries before it. What stood in a place
that is written before it is read does not show then, and all of them end with the array that the rule
builds from nothing. -/
namespace Cotangent

namespace Triangular

/-! ### Arrays built in order -/

section Order

variable {α : Type} [Zero α] {n i : Nat} (rule : Nat → (Nat → α) → α)

theorem ascending_succ (n : Nat) : ascending (n + 1) rule =
    (ascending n rule).push (rule n ((ascending n rule).getD · 0)) := by
  simp only [ascending, List.range_succ, List.foldl_append, List.foldl_cons, List.foldl_nil]

theorem size_ascending (n : Nat) : (ascending n rule).size = n := by
  induction n with
  | zero => rfl
  | succ n ih => rw [ascending_succ, Array.size_push, ih]

theorem getD_ascending_succ (inside : i < n) :
    (ascending (n + 1) rule).getD i 0 = (ascending n rule).getD i 0 := by
  rw [ascending_succ, Array.getD_eq_getD_getElem?, Array.getD_eq_getD_getElem?, Array.getElem?_push,
    size_ascending, if_neg (Nat.ne_of_lt inside)]

/-- An entry follows by the rule from the entries before it. -/
theorem getD_ascending (inside : i < n) : ∃ done : Nat → α,
    (ascending n rule).getD i 0 = rule i done ∧ ∀ j < i, done j = (ascending n rule).getD j 0 := by
  induction n with
  | zero => exact absurd inside (Nat.not_lt_zero i)
  | succ n ih =>
    rcases Nat.lt_succ_iff_lt_or_eq.mp inside with earlier | rfl
    · obtain ⟨done, here, before⟩ := ih earlier
      refine ⟨done, (getD_ascending_succ rule earlier).trans here, fun j less => ?_⟩
      rw [before j less, getD_ascending_succ rule (less.trans earlier)]
    · refine ⟨((ascending i rule).getD · 0), ?_, fun j less => (getD_ascending_succ rule less).symm⟩
      rw [ascending_succ, Array.getD_eq_getD_getElem?, Array.getElem?_push, size_ascending, if_pos rfl,
        Option.getD_some]

/-- An entry follows by the rule from the entries after it. -/
theorem getD_descending (inside : i < n) : ∃ done : Nat → α,
    (descending n rule).getD i 0 = rule i done ∧
      ∀ j < n, i < j → done j = (descending n rule).getD j 0 := by
  have turned {j : Nat} (within : j < n) : (descending n rule).getD j 0 =
      (ascending n fun k done => rule (n - 1 - k) fun j => done (n - 1 - j)).getD (n - 1 - j) 0 := by
    rw [descending, Array.getD_eq_getD_getElem?, Array.getD_eq_getD_getElem?,
      Array.getElem?_reverse (by rwa [size_ascending]), size_ascending]
  obtain ⟨done, here, before⟩ :=
    getD_ascending (fun k done => rule (n - 1 - k) fun j => done (n - 1 - j)) (i := n - 1 - i)
      (n := n) (by omega)
  refine ⟨fun j => done (n - 1 - j), ?_, fun j within later => ?_⟩
  · rw [turned inside, here]
    congr 1
    omega
  · rw [turned within]
    exact before (n - 1 - j) (by omega)

theorem size_descending (n : Nat) : (descending n rule).size = n :=
  Array.size_reverse.trans (size_ascending _ n)

end Order

/-- The indices before, at and after an index. -/
theorem range_split (i : Fin n) : List.range n = List.range i ++ (i : Nat) :: after n i := by
  have here : (i : Nat) :: after n i = List.range' i (n - i) := by
    rw [after, ← List.range'_succ]
    congr 1
    omega
  have front : List.range i = List.range' 0 i := List.range_eq_range'
  have joined := List.range'_append_1 (s := 0) (m := i) (n := n - i)
  rw [zero_add, Nat.add_sub_cancel' i.isLt.le] at joined
  rw [here, front, joined, List.range_eq_range']

theorem mem_after {n i j : Nat} : j ∈ after n i ↔ i < j ∧ j < n := by
  rw [after, List.mem_range'_1]
  omega

variable {α : Type} [Zero α] {order done rest : List Nat} {rule : Nat → (Nat → α) → α}
  {w x y : Array α} {n i j : Nat}

/-! ### Entries in an order -/

/-- The indices of an order have entries that follow by a rule from the entries before them. -/
def Obeys (order : List Nat) (rule : Nat → (Nat → α) → α) (x : Array α) : Prop :=
  ∀ done i rest, order = done ++ i :: rest →
    ∃ z : Nat → α, x.getD i 0 = rule i z ∧ ∀ j ∈ done, z j = x.getD j 0

/-- The rule reads only entries before. -/
def LooksBack (order : List Nat) (rule : Nat → (Nat → α) → α) : Prop :=
  ∀ done i rest, order = done ++ i :: rest →
    ∀ z z' : Nat → α, (∀ j ∈ done, z j = z' j) → rule i z = rule i z'

theorem Obeys.unique (looksBack : LooksBack order rule) (first : Obeys order rule x)
    (second : Obeys order rule y) : ∀ i ∈ order, x.getD i 0 = y.getD i 0 := by
  suffices prefixes : ∀ done rest : List Nat, order = done ++ rest →
      ∀ i ∈ done, x.getD i 0 = y.getD i 0 from
    prefixes order [] (List.append_nil order).symm
  intro done
  induction done using List.reverseRecOn with
  | nil => simp
  | append_singleton done j ih =>
    intro rest split i member
    rw [List.append_assoc, List.singleton_append] at split
    have earlier := ih (j :: rest) split
    rcases List.mem_append.mp member with before | here
    · exact earlier i before
    · rw [List.mem_singleton.mp here]
      obtain ⟨z, value, known⟩ := first done j rest split
      obtain ⟨z', value', known'⟩ := second done j rest split
      rw [value, value', looksBack done j rest split z z' fun k before => by
        rw [known k before, known' k before, earlier k before]]

omit [Zero α] in
theorem range_eq_append (split : List.range n = done ++ i :: rest) :
    i < n ∧ done = List.range i ∧ rest = after n i := by
  have found : (List.range n)[done.length]? = some i := by simp [split]
  obtain ⟨inside, here⟩ := List.getElem?_eq_some_iff.mp found
  rw [List.length_range] at inside
  rw [List.getElem_range] at here
  subst here
  have whole := range_split (⟨done.length, inside⟩ : Fin n)
  obtain ⟨front, back⟩ := List.append_inj (split.symm.trans whole) (by simp)
  exact ⟨inside, front, (List.cons.inj back).2⟩

omit [Zero α] in
theorem reverse_range_eq_append (split : (List.range n).reverse = done ++ i :: rest) :
    i < n ∧ done = (after n i).reverse ∧ rest = (List.range i).reverse := by
  have turned : List.range n = rest.reverse ++ i :: done.reverse := by
    rw [← List.reverse_reverse (List.range n), split]
    simp
  obtain ⟨inside, back, front⟩ := range_eq_append turned
  exact ⟨inside, List.reverse_eq_iff.mp front, List.reverse_eq_iff.mp back⟩

omit [Zero α] in
theorem looksBack_range (looks : ∀ i < n, ∀ z z' : Nat → α, (∀ j < i, z j = z' j) →
    rule i z = rule i z') : LooksBack (List.range n) rule := by
  intro done i rest split z z' same
  obtain ⟨inside, rfl, -⟩ := range_eq_append split
  exact looks i inside z z' fun j before => same j (List.mem_range.mpr before)

omit [Zero α] in
theorem looksBack_reverse_range (looks : ∀ i < n, ∀ z z' : Nat → α,
    (∀ j < n, i < j → z j = z' j) → rule i z = rule i z') :
    LooksBack (List.range n).reverse rule := by
  intro done i rest split z z' same
  obtain ⟨inside, rfl, -⟩ := reverse_range_eq_append split
  exact looks i inside z z' fun j within later =>
    same j (List.mem_reverse.mpr (mem_after.mpr ⟨later, within⟩))

theorem eq_of_getD (size : x.size = n) (size' : y.size = n)
    (same : ∀ i < n, x.getD i 0 = y.getD i 0) : x = y := by
  refine Array.ext (size.trans size'.symm) fun i inside inside' => ?_
  simpa [Array.getD, inside, inside'] using same i (size ▸ inside)

theorem Obeys.eq_ascending (looksBack : LooksBack (List.range n) rule) (size : x.size = n)
    (obeys : Obeys (List.range n) rule x) : x = ascending n rule := by
  have built : Obeys (List.range n) rule (ascending n rule) := by
    intro done i rest split
    obtain ⟨inside, rfl, -⟩ := range_eq_append split
    obtain ⟨z, value, known⟩ := getD_ascending rule inside
    exact ⟨z, value, fun j before => known j (List.mem_range.mp before)⟩
  exact eq_of_getD size (size_ascending rule n) fun i inside =>
    obeys.unique looksBack built i (List.mem_range.mpr inside)

theorem Obeys.eq_descending (looksBack : LooksBack (List.range n).reverse rule) (size : x.size = n)
    (obeys : Obeys (List.range n).reverse rule x) : x = descending n rule := by
  have built : Obeys (List.range n).reverse rule (descending n rule) := by
    intro done i rest split
    obtain ⟨inside, rfl, -⟩ := reverse_range_eq_append split
    obtain ⟨z, value, known⟩ := getD_descending rule inside
    refine ⟨z, value, fun j after => ?_⟩
    obtain ⟨later, within⟩ := mem_after.mp (List.mem_reverse.mp after)
    exact known j within later
  exact eq_of_getD size (size_descending rule n) fun i inside =>
    obeys.unique looksBack built i (List.mem_reverse.mpr (List.mem_range.mpr inside))

/-! ### Places written once -/

/-- The places of an order written one after another, by a rule that may read all that is there. -/
def overwrite (order : List Nat) (rule : Nat → (Nat → α) → α) (w : Array α) : Array α :=
  order.foldl (fun w i => w.setIfInBounds i (rule i (w.getD · 0))) w

theorem size_overwrite : (overwrite order rule w).size = w.size :=
  size_foldl fun _ _ => Array.size_setIfInBounds

theorem getD_overwrite_of_notMem (other : i ∉ order) :
    (overwrite order rule w).getD i 0 = w.getD i 0 := by
  induction order generalizing w with
  | nil => rfl
  | cons j order ih =>
    obtain ⟨different, others⟩ := List.ne_and_not_mem_of_not_mem_cons other
    exact (ih others).trans (getD_setIfInBounds_of_ne different.symm)

/-- A rule reads what it was given at its own place, and results at the places before it. -/
theorem obeys_overwrite {rule' : Nat → (Nat → α) → α} (nodup : order.Nodup)
    (inside : ∀ i ∈ order, i < w.size)
    (same : ∀ i ∈ order, ∀ z : Nat → α, z i = w.getD i 0 → rule i z = rule' i z) :
    Obeys order rule' (overwrite order rule w) := by
  rintro done i rest rfl
  obtain ⟨-, tail, apart⟩ := List.nodup_append'.mp nodup
  have last : i ∉ rest := (List.nodup_cons.mp tail).1
  have fresh : i ∉ done := fun member => apart member List.mem_cons_self
  let before := overwrite done rule w
  have ran : overwrite (done ++ i :: rest) rule w =
      overwrite rest rule (before.setIfInBounds i (rule i (before.getD · 0))) := by
    simp only [overwrite, before, List.foldl_append, List.foldl_cons]
  have given : before.getD i 0 = w.getD i 0 := getD_overwrite_of_notMem fresh
  have size : before.size = w.size := size_overwrite
  have within : i < before.size := size.symm ▸ inside i (by simp)
  refine ⟨(before.getD · 0), ?_, fun j member => ?_⟩
  · rw [ran, getD_overwrite_of_notMem last, getD_setIfInBounds within, if_pos rfl]
    exact same i (by simp) _ given
  · have later : j ∉ rest := fun also => apart member (List.mem_cons_of_mem i also)
    have other : i ≠ j := fun same => fresh (same ▸ member)
    rw [ran, getD_overwrite_of_notMem later, getD_setIfInBounds_of_ne other]

theorem overwrite_range {rule' : Nat → (Nat → α) → α} (size : w.size = n)
    (same : ∀ i < n, ∀ z : Nat → α, z i = w.getD i 0 → rule i z = rule' i z)
    (looks : ∀ i < n, ∀ z z' : Nat → α, (∀ j < i, z j = z' j) → rule' i z = rule' i z') :
    overwrite (List.range n) rule w = ascending n rule' := by
  have obeys := obeys_overwrite (w := w) List.nodup_range
    (fun i member => size.symm ▸ List.mem_range.mp member)
    fun i member => same i (List.mem_range.mp member)
  exact obeys.eq_ascending (looksBack_range looks) (size_overwrite.trans size)

theorem overwrite_reverse_range {rule' : Nat → (Nat → α) → α} (size : w.size = n)
    (same : ∀ i < n, ∀ z : Nat → α, z i = w.getD i 0 → rule i z = rule' i z)
    (looks : ∀ i < n, ∀ z z' : Nat → α, (∀ j < n, i < j → z j = z' j) → rule' i z = rule' i z') :
    overwrite (List.range n).reverse rule w = descending n rule' := by
  have listed {i : Nat} (member : i ∈ (List.range n).reverse) : i < n :=
    List.mem_range.mp (List.mem_reverse.mp member)
  have obeys := obeys_overwrite (w := w) (List.nodup_reverse.mpr List.nodup_range)
    (fun i member => size.symm ▸ listed member) fun i member => same i (listed member)
  exact obeys.eq_descending (looksBack_reverse_range looks) (size_overwrite.trans size)

/-- A rule that reads nothing. -/
theorem getD_overwrite_of_mem {entry : Nat → α} (nodup : order.Nodup)
    (inside : ∀ i ∈ order, i < w.size) (member : i ∈ order) :
    (overwrite order (fun i _ => entry i) w).getD i 0 = entry i := by
  have obeys : Obeys order (fun i _ => entry i) (overwrite order (fun i _ => entry i) w) :=
    obeys_overwrite nodup inside fun _ _ _ _ => rfl
  obtain ⟨done, rest, split⟩ := List.append_of_mem member
  obtain ⟨z, value, -⟩ := obeys done i rest split
  exact value

theorem getD_overwrite_range {entry : Nat → α} (size : w.size = n) (inside : i < n) :
    (overwrite (List.range n) (fun i _ => entry i) w).getD i 0 = entry i :=
  getD_overwrite_of_mem List.nodup_range (fun _ member => size.symm ▸ List.mem_range.mp member)
    (List.mem_range.mpr inside)

/-! ### Columns taken off -/

/-- One turn of a loop over columns: the entry of its index is finished and then used on the entries
that are left. -/
structure Turns (n : Nat) (finish : Nat → α → α) (take : Nat → Nat → α → α → α)
    (turn : Array α → Nat → Array α) (done : List Nat) (j : Nat) (rest : List Nat) : Prop where
  size : ∀ w, w.size = n → (turn w j).size = n
  here : ∀ w, w.size = n → (turn w j).getD j 0 = finish j (w.getD j 0)
  before : ∀ w, w.size = n → ∀ i ∈ done, (turn w j).getD i 0 = w.getD i 0
  after : ∀ w, w.size = n → ∀ i ∈ rest,
    (turn w j).getD i 0 = take i j ((turn w j).getD j 0) (w.getD i 0)

/-- While a loop over columns runs: the entries of the indices that are done, and what has been taken
off the others. -/
structure TakenOff (n : Nat) (finish : Nat → α → α) (take : Nat → Nat → α → α → α) (order : List Nat)
    (w : Array α) (done : List Nat) (x : Array α) : Prop where
  size : x.size = n
  finished : ∀ d i r, done = d ++ i :: r →
    x.getD i 0 = finish i (d.foldl (fun s j => take i j (x.getD j 0) s) (w.getD i 0))
  left : ∀ i ∈ order, i ∉ done →
    x.getD i 0 = done.foldl (fun s j => take i j (x.getD j 0) s) (w.getD i 0)

/-- A loop over columns finishes every entry when all entries before it have been used on it. -/
theorem takenOff_foldl {finish : Nat → α → α} {take : Nat → Nat → α → α → α}
    {turn : Array α → Nat → Array α} (nodup : order.Nodup)
    (turns : ∀ done j rest, order = done ++ j :: rest → Turns n finish take turn done j rest)
    (size : w.size = n) : TakenOff n finish take order w order (order.foldl turn w) := by
  refine foldl_keeps (P := fun done x => TakenOff n finish take order w done x)
    ⟨size, by simp, fun _ _ _ => rfl⟩ ?_
  rintro done j rest x split ⟨size, finished, left⟩
  obtain ⟨size', here, before, after⟩ := turns done j rest split
  have fresh : j ∉ done := notMem_of_split nodup split
  have unchanged (d : List Nat) (earlier : ∀ k ∈ d, k ∈ done) (i : Nat) (s : α) :
      d.foldl (fun s k => take i k ((turn x j).getD k 0) s) s =
        d.foldl (fun s k => take i k (x.getD k 0) s) s :=
    List.foldl_ext _ _ s fun s k member => by rw [before x size k (earlier k member)]
  refine ⟨size' x size, fun d i r cut => ?_, fun i member new => ?_⟩
  · rcases List.eq_nil_or_concat' r with rfl | ⟨r, k, rfl⟩
    · obtain ⟨rfl, last⟩ := List.append_inj' cut rfl
      obtain rfl : j = i := (List.cons.inj last).1
      rw [here x size, unchanged done (fun k => id), left j (by simp [split]) fresh]
    · rw [← List.cons_append, ← List.append_assoc] at cut
      obtain ⟨rfl, -⟩ := List.append_inj' cut rfl
      rw [before x size i (by simp), unchanged d (by simp +contextual), finished d i r rfl]
  · simp only [List.mem_append, List.mem_singleton, not_or] at new
    have later : i ∈ rest := by
      simpa [split, new.1, new.2] using member
    rw [List.foldl_append, unchanged done (fun k => id), after x size i later, left i member new.1]
    rfl

theorem foldl_turns_range {finish : Nat → α → α} {take : Nat → Nat → α → α → α}
    {turn : Array α → Nat → Array α} (size : w.size = n)
    (turns : ∀ j < n, Turns n finish take turn (List.range j) j (after n j))
    (same : ∀ i < n, ∀ z : Nat → α,
      rule i z = finish i ((List.range i).foldl (fun s j => take i j (z j) s) (w.getD i 0))) :
    (List.range n).foldl turn w = ascending n rule := by
  obtain ⟨size', entries, -⟩ := takenOff_foldl List.nodup_range (fun done j rest split => by
    obtain ⟨below, rfl, rfl⟩ := range_eq_append split
    exact turns j below) size
  refine Obeys.eq_ascending (looksBack_range fun i inside z z' known => ?_) size'
    fun done i rest split => ?_
  · rw [same i inside, same i inside]
    refine congrArg (finish i) (List.foldl_ext _ _ _ fun s j member => ?_)
    rw [known j (List.mem_range.mp member)]
  · obtain ⟨inside, rfl, -⟩ := range_eq_append split
    exact ⟨_, (entries _ i rest split).trans (same i inside _).symm, fun _ _ => rfl⟩

theorem foldl_turns_reverse_range {finish : Nat → α → α} {take : Nat → Nat → α → α → α}
    {turn : Array α → Nat → Array α} (size : w.size = n)
    (turns : ∀ j < n, Turns n finish take turn (after n j).reverse j (List.range j).reverse)
    (same : ∀ i < n, ∀ z : Nat → α,
      rule i z = finish i ((after n i).reverse.foldl (fun s j => take i j (z j) s) (w.getD i 0))) :
    (List.range n).reverse.foldl turn w = descending n rule := by
  obtain ⟨size', entries, -⟩ := takenOff_foldl (List.nodup_reverse.mpr List.nodup_range)
    (fun done j rest split => by
      obtain ⟨below, rfl, rfl⟩ := reverse_range_eq_append split
      exact turns j below) size
  refine Obeys.eq_descending (looksBack_reverse_range fun i inside z z' known => ?_) size'
    fun done i rest split => ?_
  · rw [same i inside, same i inside]
    refine congrArg (finish i) (List.foldl_ext _ _ _ fun s j member => ?_)
    obtain ⟨later, within⟩ := mem_after.mp (List.mem_reverse.mp member)
    rw [known j within later]
  · obtain ⟨inside, rfl, -⟩ := reverse_range_eq_append split
    exact ⟨_, (entries _ i rest split).trans (same i inside _).symm, fun _ _ => rfl⟩

end Triangular

end Cotangent
