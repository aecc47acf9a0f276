import Cotangent.Expression.Solve
import Cotangent.Proofs.Computation

/-! Entries and where they stand. Matrices side by side, and matrices cut at columns, are read column
by column; the numbers are only moved, so no law of arithmetic is asked for. -/
namespace Cotangent

variable {α : Type} [Zero α]

theorem getD_ofFn {n i : Nat} {f : Fin n → α} (inside : i < n) :
    (Array.ofFn f).getD i 0 = f ⟨i, inside⟩ := by
  simp [Array.getD_eq_getD_getElem?, inside]

/-- A rule for single columns, read in the columns of the result. -/
theorem Factor.exists_eachColumn {α : Type} [Scalar α] {m n nrhs : Nat} (rule : Array α → Array α)
    (rhs : Vector α m) (full : m = n * nrhs) : ∃ x, Factor.eachColumn n nrhs rule rhs = .ok x ∧
      ∀ c < nrhs, ∀ i < n, x.toArray.getD (c * n + i) 0 =
        (rule (rhs.toArray.extract (c * n) ((c + 1) * n))).getD i 0 := by
  refine ⟨_, if_pos full, fun c within i inside => ?_⟩
  have block : (c + 1) * n ≤ m := by
    rw [full, Nat.mul_comm n nrhs]
    exact Nat.mul_le_mul_right n within
  have last : (c + 1) * n = c * n + n := Nat.succ_mul c n
  have place : c * n + i < m := by omega
  have positive : 0 < n := Nat.zero_lt_of_lt inside
  have columns : m / n = nrhs := by rw [full, Nat.mul_div_cancel_left nrhs positive]
  have quotient : (c * n + i) / n = c := by
    rw [Nat.mul_comm, Nat.mul_add_div positive, Nat.div_eq_of_lt inside, Nat.add_zero]
  have remainder : (c * n + i) % n = i := by
    rw [Nat.mul_comm, Nat.mul_add_mod, Nat.mod_eq_of_lt inside]
  simp only [Array.getD_eq_getD_getElem?, Vector.toArray_ofFn, Array.getElem?_ofFn, place, dite_true,
    quotient, remainder, columns, within, Option.getD_some]

namespace DenseMatrix

variable {a b m y : DenseMatrix α} {r c i j k : Nat}

/-- A place of the data is that of an entry. -/
theorem place_eq (inside : k < r * c) : k / r * r + k % r = k ∧ k % r < r ∧ k / r < c := by
  have positive : 0 < r := Nat.pos_of_ne_zero fun zero => by simp [zero] at inside
  exact ⟨by rw [Nat.mul_comm, Nat.div_add_mod], Nat.mod_lt k positive,
    Nat.div_lt_of_lt_mul inside⟩

theorem entry_eq_of_getElem? {x : α} (at_place : m.data[j * m.nrows + i]? = some x) :
    m.entry i j = x := by
  rw [entry, Array.getD_eq_getD_getElem?, at_place, Option.getD_some]

theorem entry_map (f : α → α) (hi : i < m.nrows) (hj : j < m.ncols) :
    (m.map f).entry i j = f (m.entry i j) :=
  entry_eq_of_getElem? (by simp [map, getElem?_data m hi hj])

theorem entry_fill {shape : Shape} {x : α} (hi : i < shape.1) (hj : j < shape.2) :
    (fill shape x).entry i j = x :=
  entry_eq_of_getElem? (by simp [fill, place_lt hi hj])

/-- Matrices of one shape, combined place by place. -/
theorem entry_of_zipWith {f : α → α → α} (shape : b.shape = a.shape) (rows : y.nrows = a.nrows)
    (data : y.data = a.data.zipWith f b.data) (hi : i < a.nrows) (hj : j < a.ncols) :
    y.entry i j = f (a.entry i j) (b.entry i j) := by
  obtain ⟨rows', columns'⟩ := Prod.mk.inj shape
  have left := getElem?_data a hi hj
  have right := getElem?_data b (rows'.symm ▸ hi) (columns'.symm ▸ hj)
  rw [rows'] at right
  exact entry_eq_of_getElem? (by rw [rows, data, Array.getElem?_zipWith, left, right])

theorem entry_ofColumnFn {column : Nat → Array α} (hi : i < r) (hj : j < c) :
    (ofColumnFn r c column).entry i j = (column j).getD i 0 := by
  have rows : r ≠ 0 := Nat.ne_of_gt (Nat.zero_lt_of_lt hi)
  rw [ofColumnFn, entry_ofFn hi hj]
  congr 1
  simp [Array.getD_eq_getD_getElem?, rows, hj]

/-- Matrices side by side, read column by column. -/
theorem entry_append (joined : a.append b = .ok y) :
    b.nrows = a.nrows ∧ y.shape = (a.nrows, a.ncols + b.ncols) ∧
      (∀ i < a.nrows, ∀ j < a.ncols, y.entry i j = a.entry i j) ∧
      ∀ i < a.nrows, ∀ j < b.ncols, y.entry i (a.ncols + j) = b.entry i j := by
  unfold append at joined
  split at joined
  · next rows =>
    obtain ⟨_, -, rfl⟩ := Outcome.map_eq_ok.mp joined
    refine ⟨rows, rfl, fun i hi j hj => ?_, fun i hi j hj => ?_⟩
    · have held := getElem?_data a hi hj
      have inside := (Array.getElem?_eq_some_iff.mp held).1
      exact entry_eq_of_getElem? (by rw [← held]; exact Array.getElem?_append_left inside)
    · have held := getElem?_data b (rows.symm ▸ hi) hj
      refine entry_eq_of_getElem? ?_
      rw [← held]
      have place : (a.ncols + j) * a.nrows + i = a.data.size + (j * b.nrows + i) := by
        rw [a.size_data, rows, Nat.add_mul, Nat.mul_comm a.ncols, Nat.add_assoc]
      simp only [place]
      rw [Array.getElem?_append_right (Nat.le_add_right _ _), Nat.add_sub_cancel_left]
  · cases joined

theorem entry_foldlM_append {rest : List (DenseMatrix α)} {first : DenseMatrix α}
    {n m : Nat} (shape : first.shape = (n, k)) (all : ∀ b ∈ rest, b.shape = (n, m))
    (joined : rest.foldlM append first = .ok y) :
    y.shape = (n, k + rest.length * m) ∧ (∀ i < n, ∀ j < k, y.entry i j = first.entry i j) ∧
      ∀ (d : Nat) (b : DenseMatrix α), rest[d]? = some b →
        ∀ i < n, ∀ j < m, y.entry i (k + d * m + j) = b.entry i j := by
  induction rest generalizing first k with
  | nil =>
    cases joined
    exact ⟨by simpa using shape, fun _ _ _ _ => rfl, fun d b at_d => by simp at at_d⟩
  | cons b rest ih =>
    obtain ⟨next, others⟩ := List.forall_mem_cons.mp all
    obtain ⟨z, appended, joined⟩ := Outcome.bind_eq_ok.mp joined
    obtain ⟨-, whole, left, right⟩ := entry_append appended
    obtain ⟨rfl, rfl⟩ := Prod.mk.inj shape
    obtain ⟨-, rfl⟩ := Prod.mk.inj next
    obtain ⟨whole, before, later⟩ := ih whole others joined
    refine ⟨?_, fun i hi j hj => ?_, fun d b' at_d i hi j hj => ?_⟩
    · rw [whole, List.length_cons, Nat.succ_mul, Nat.add_comm (rest.length * b.ncols), Nat.add_assoc]
    · rw [before i hi j (Nat.lt_add_right _ hj), left i hi j hj]
    · cases d with
      | zero =>
        obtain rfl : b = b' := Option.some.inj at_d
        rw [Nat.zero_mul, Nat.add_zero, before i hi _ (Nat.add_lt_add_left hj _), right i hi j hj]
      | succ d =>
        have found := later d b' at_d i hi j hj
        rwa [Nat.add_assoc first.ncols, ← Nat.add_comm (d * b.ncols), ← Nat.succ_mul] at found

/-- Blocks of one shape side by side. -/
theorem entry_hcat {blocks : List (DenseMatrix α)} {n m : Nat}
    (more : blocks ≠ []) (all : ∀ b ∈ blocks, b.shape = (n, m)) (joined : hcat blocks = .ok y) :
    y.shape = (n, blocks.length * m) ∧ ∀ (d : Nat) (b : DenseMatrix α), blocks[d]? = some b →
      ∀ i < n, ∀ j < m, y.entry i (d * m + j) = b.entry i j := by
  cases blocks with
  | nil => exact absurd rfl more
  | cons first rest =>
    obtain ⟨shape, others⟩ := List.forall_mem_cons.mp all
    obtain ⟨whole, before, later⟩ := entry_foldlM_append shape others joined
    refine ⟨by rw [whole, List.length_cons, Nat.succ_mul, Nat.add_comm], fun d b at_d i hi j hj => ?_⟩
    cases d with
    | zero =>
      obtain rfl : first = b := Option.some.inj at_d
      rw [Nat.zero_mul, Nat.zero_add, before i hi j hj]
    | succ d =>
      have found := later d b at_d i hi j hj
      rwa [Nat.add_comm m, ← Nat.succ_mul] at found

theorem entry_colBlock {x : DenseMatrix α} {start count : Nat}
    (found : x.colBlock start count = .ok y) : y.shape = (x.nrows, count) ∧
      ∀ i < x.nrows, ∀ j < count, y.entry i j = x.entry i (start + j) := by
  unfold colBlock at found
  split at found
  · next within =>
    cases found
    refine ⟨rfl, fun i hi j hj => entry_eq_of_getElem? ?_⟩
    have place : start * x.nrows + (j * x.nrows + i) = (start + j) * x.nrows + i := by
      rw [Nat.add_mul, Nat.add_assoc]
    have last : (start + j) * x.nrows + i < (start + count) * x.nrows := by
      rw [Nat.mul_comm (start + count)]
      exact place_lt hi (Nat.add_lt_add_left hj start)
    have inside := Nat.lt_of_lt_of_le last within.2
    have held : x.data[(start + j) * x.nrows + i]? = some (x.entry i (start + j)) := by
      rw [Array.getElem?_eq_getElem inside, entry, Array.getD_eq_getD_getElem?,
        Array.getElem?_eq_getElem inside, Option.getD_some]
    have short : j * x.nrows + i <
        min ((start + count) * x.nrows) x.data.size - start * x.nrows := by
      rw [Nat.min_eq_left within.2]
      omega
    exact (Array.getElem?_extract ..).trans ((if_pos short).trans (place ▸ held))
  · cases found

end DenseMatrix

end Cotangent
