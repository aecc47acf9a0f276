import Mathlib
import Cotangent.Proofs.Blocks
import Cotangent.Proofs.Substitution

/-! Triangular systems in exact arithmetic. An array that is built entry by entry, or column by column
from a right-hand side, satisfies the equations of its system. A solver works on every column of a
right-hand side by itself; where it finds a solution of an invertible system, the solution is the
only one. -/
namespace Cotangent

namespace Triangular

section Field

variable {α : Type} [FieldScalar α] {n : Nat}

theorem foldl_sub {β : Type} (xs : List β) (f : β → α) (b : α) :
    xs.foldl (fun s x => s - f x) b = b - (xs.map f).sum := by
  induction xs generalizing b with
  | nil => simp
  | cons x xs ih => rw [List.foldl_cons, ih, List.map_cons, List.sum_cons, sub_sub]

/-- What a row of a system takes off, with coefficients in a list of cells. -/
theorem foldl_sub_cells {cells : List (Nat × α)} {done x : Nat → α}
    (known : ∀ cell ∈ cells, cell.1 < n ∧ done cell.1 = x cell.1) (b : α) :
    cells.foldl (fun s (j, u) => s - u * done j) b =
      b - ∑ j ∈ Finset.range n, coefficient cells j * x j := by
  have same : (cells.map fun cell => cell.2 * done cell.1) =
      cells.map fun cell => x cell.1 * cell.2 :=
    List.map_congr_left fun cell member => by rw [(known cell member).2, mul_comm]
  rw [foldl_sub cells (fun cell => cell.2 * done cell.1) b, same,
    sum_cells (fun cell member => (known cell member).1) x]
  simp only [mul_comm]

variable {d b c : Nat → α} {a : Nat → Nat → α} {x z : Array α}

/-- Every entry is what multiples of other entries leave of a right-hand side, divided. A division by
zero gives zero. -/
def Resolves (n : Nat) (d : Nat → α) (a : Nat → Nat → α) (b : Nat → α) (x : Array α) : Prop :=
  ∀ i < n, x.getD i 0 = (b i - ∑ j ∈ Finset.range n, a i j * x.getD j 0) / d i

/-- The equations of the system. -/
theorem Resolves.equation (resolves : Resolves n d a b x) {i : Nat} (inside : i < n)
    (nonzero : d i ≠ 0) : b i = d i * x.getD i 0 + ∑ j ∈ Finset.range n, a i j * x.getD j 0 := by
  conv_rhs => enter [1, 2]; rw [resolves i inside]
  rw [mul_div_cancel₀ _ nonzero, sub_add_cancel]

/-- Rows of cells taken off one after another. -/
theorem resolves_of_cells {cells : Nat → List (Nat × α)} (rows : ∀ i < n, ∃ done : Nat → α,
    x.getD i 0 = (cells i).foldl (fun s (j, u) => s - u * done j) (b i) / d i ∧
      ∀ cell ∈ cells i, cell.1 < n ∧ done cell.1 = x.getD cell.1 0) :
    Resolves n d (fun i => coefficient (cells i)) b x := by
  intro i inside
  obtain ⟨done, here, known⟩ := rows i inside
  rw [here, foldl_sub_cells (x := (x.getD · 0)) known]

end Field

end Triangular

/-! ## Loops over columns -/

section Sweep

variable {α : Type} [FieldScalar α] {n : Nat} {d : Nat → α} {cols : Nat → List (Nat × α)}
  {sweep : Array α → Nat → Array α}

/-- What one turn of a loop over the columns of a triangular matrix does: it divides the entry of
its column by the diagonal and takes the multiple of the column off the others. -/
def Sweeps (n : Nat) (d : Nat → α) (cols : Nat → List (Nat × α)) (sweep : Array α → Nat → Array α) :
    Prop :=
  ∀ c j, c.size = n → j < n → (sweep c j).size = n ∧ ∀ i < n, (sweep c j).getD i 0 =
    (if i = j then c.getD j 0 / d j else c.getD i 0) - coefficient (cols j) i * (c.getD j 0 / d j)

variable {order : List Nat} {c : Array α}

/-- A turn finishes its entry and takes the multiple of its column off the entries that are left. -/
theorem Sweeps.turns (sweeps : Sweeps n d cols sweep) (all : order.Perm (List.range n))
    (strict : ∀ j, ∀ cell ∈ cols j, cell.1 ≠ j)
    (ahead : order.Pairwise fun i j => ∀ cell ∈ cols j, cell.1 ≠ i) {done rest : List Nat} {j : Nat}
    (split : order = done ++ j :: rest) : Triangular.Turns n (fun j v => v / d j)
      (fun i j y s => s - coefficient (cols j) i * y) sweep done j rest := by
  have nodup : order.Nodup := all.nodup_iff.mpr List.nodup_range
  have within {i : Nat} (member : i ∈ order) : i < n := List.mem_range.mp (all.mem_iff.mp member)
  have here : j < n := within (by simp [split])
  have own (x : Array α) (size : x.size = n) : (sweep x j).getD j 0 = x.getD j 0 / d j := by
    rw [(sweeps x j size here).2 j here, if_pos rfl, coefficient_of_forall_ne (strict j), zero_mul,
      sub_zero]
  have fresh : j ∉ done := notMem_of_split nodup split
  have last : j ∉ rest := (List.nodup_cons.mp (List.nodup_append'.mp (split ▸ nodup)).2.1).1
  refine ⟨fun x size => (sweeps x j size here).1, own, fun x size i member => ?_,
    fun x size i member => ?_⟩
  · have other : i ≠ j := fun same => fresh (same ▸ member)
    have apart := (List.pairwise_append.mp (split ▸ ahead)).2.2 i member j List.mem_cons_self
    rw [(sweeps x j size here).2 i (within (by simp [split, member])), if_neg other,
      coefficient_of_forall_ne apart, zero_mul, sub_zero]
  · have other : i ≠ j := fun same => last (same ▸ member)
    rw [(sweeps x j size here).2 i (within (by simp [split, member])), if_neg other, own x size]

/-- A loop over columns, none of which reaches back to the columns done, resolves the system. -/
theorem Sweeps.resolves (sweeps : Sweeps n d cols sweep) (all : order.Perm (List.range n))
    (strict : ∀ j, ∀ cell ∈ cols j, cell.1 ≠ j)
    (ahead : order.Pairwise fun i j => ∀ cell ∈ cols j, cell.1 ≠ i) (size : c.size = n) :
    (order.foldl sweep c).size = n ∧
      Triangular.Resolves n d (fun i j => coefficient (cols j) i) (c.getD · 0)
        (order.foldl sweep c) := by
  obtain ⟨size', entries, -⟩ := Triangular.takenOff_foldl (all.nodup_iff.mpr List.nodup_range)
    (fun _ _ _ split => sweeps.turns all strict ahead split) size
  refine ⟨size', fun i inside => ?_⟩
  obtain ⟨done, rest, split⟩ := List.append_of_mem (all.mem_iff.mpr (List.mem_range.mpr inside))
  have here := entries done i rest split
  generalize order.foldl sweep c = x at here ⊢
  have later : ∀ j ∈ i :: rest, coefficient (cols j) i * x.getD j 0 = 0 := by
    intro j member
    have clear : ∀ cell ∈ cols j, cell.1 ≠ i := by
      rcases List.mem_cons.mp member with rfl | after
      · exact strict j
      · exact (List.pairwise_cons.mp (List.pairwise_append.mp (split ▸ ahead)).2.1).1 j after
    rw [coefficient_of_forall_ne clear, zero_mul]
  have total : ∑ j ∈ Finset.range n, coefficient (cols j) i * x.getD j 0 =
      (done.map fun j => coefficient (cols j) i * x.getD j 0).sum := by
    calc ∑ j ∈ Finset.range n, coefficient (cols j) i * x.getD j 0
        = (order.map fun j => coefficient (cols j) i * x.getD j 0).sum := (all.map _).sum_eq.symm
      _ = _ := by
        rw [split, List.map_append, List.sum_append, add_eq_left]
        exact List.sum_eq_zero (List.forall_mem_map.mpr later)
  rw [here, Triangular.foldl_sub, total]

end Sweep

/-! ## Permutations and columns -/

section Columns

variable {α : Type} [FieldScalar α]

/-- Column `c` of the data of a matrix with `n` rows. -/
def columnOf (n c : Nat) (xs : Array α) : Fin n → α := fun i => xs.getD (c * n + i) 0

/-- The first entries of an array. -/
def entriesOf (n : Nat) (xs : Array α) : Fin n → α := fun i => xs.getD i 0

theorem Factor.columnOf_eachColumn {m n nrhs : Nat} (rule : Array α → Array α) (rhs : Vector α m)
    (full : m = n * nrhs) : ∃ x, Factor.eachColumn n nrhs rule rhs = .ok x ∧ ∀ c < nrhs,
      ∃ b : Array α, b.size = n ∧ entriesOf n b = columnOf n c rhs.toArray ∧
        columnOf n c x.toArray = entriesOf n (rule b) := by
  obtain ⟨x, solved, columns⟩ := Factor.exists_eachColumn rule rhs full
  refine ⟨x, solved, fun c within => ?_⟩
  have block : (c + 1) * n ≤ m := by
    rw [full, Nat.mul_comm n nrhs]
    exact Nat.mul_le_mul_right n within
  have last : (c + 1) * n = c * n + n := Nat.succ_mul c n
  refine ⟨rhs.toArray.extract (c * n) ((c + 1) * n), ?_, funext fun i => ?_,
    funext fun i => columns c within i i.isLt⟩
  · rw [Array.size_extract, rhs.size_toArray]
    omega
  · have here : (i : Nat) < min ((c + 1) * n) rhs.toArray.size - c * n := by
      rw [rhs.size_toArray]
      omega
    simp only [entriesOf, columnOf, Array.getD_eq_getD_getElem?, Array.getElem?_extract, if_pos here]

/-- Every column of a right-hand side is replaced by the only solution of the system with it. -/
def Factor.Solves {n : Nat} (a : Matrix (Fin n) (Fin n) α)
    (solve : {m : Nat} → Nat → Bool → Vector α m → Except Error (Vector α m)) : Prop :=
  ∀ (m nrhs : Nat) (transposed : Bool) (rhs : Vector α m), m = n * nrhs →
    ∃ x, solve nrhs transposed rhs = .ok x ∧ ∀ c < nrhs, ∀ y : Fin n → α,
      (if transposed then a.transpose else a).mulVec y = columnOf n c rhs.toArray ↔
        y = columnOf n c x.toArray

/-- A rule for single columns that solves both systems of an invertible matrix. -/
theorem Factor.solves_eachColumn {n : Nat} {a : Matrix (Fin n) (Fin n) α} (invertible : a.det ≠ 0)
    (rule : Bool → Array α → Array α)
    (correct : ∀ b, b.size = n → a.mulVec (entriesOf n (rule false b)) = entriesOf n b)
    (transposed_correct : ∀ b, b.size = n →
      a.transpose.mulVec (entriesOf n (rule true b)) = entriesOf n b) :
    Solves a fun nrhs transposed rhs => eachColumn n nrhs (rule transposed) rhs := by
  intro m nrhs transposed rhs full
  obtain ⟨x, solved, columns⟩ := columnOf_eachColumn (rule transposed) rhs full
  refine ⟨x, solved, fun c within y => ?_⟩
  obtain ⟨b, size, given, found⟩ := columns c within
  have injective : Function.Injective (if transposed then a.transpose else a).mulVec := by
    refine Matrix.mulVec_injective_of_det_ne_zero ?_
    split
    · rwa [Matrix.det_transpose]
    · exact invertible
  have solution : (if transposed then a.transpose else a).mulVec (columnOf n c x.toArray) =
      columnOf n c rhs.toArray := by
    rw [found, ← given]
    cases transposed
    · exact correct b size
    · exact transposed_correct b size
  exact ⟨fun other => injective (other.trans solution.symm), fun same => same ▸ solution⟩

end Columns

end Cotangent
