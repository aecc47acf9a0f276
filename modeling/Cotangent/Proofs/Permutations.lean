import Mathlib
import Cotangent.Factor.DenseLU
import Cotangent.Factor.QR
import Cotangent.Proofs.Backends
import Cotangent.Proofs.Substitution

/-! Permutations in factors, for scalars without laws. Every step of a dense factorization exchanges its
index with a later one, so the array of places lists a permutation, and each place is written once when
entries are moved to where it names them. -/
namespace Cotangent

namespace Factor

/-- The first largest weight is that of an index in the range. -/
theorem firstMax_mem {α : Type} [Scalar α] (weight : Nat → α) {start stop : Nat}
    (some : start < stop) : start ≤ (firstMax weight start stop).1 ∧
      (firstMax weight start stop).1 < stop ∧
      (firstMax weight start stop).2 = weight (firstMax weight start stop).1 := by
  refine foldl_keeps (P := fun _ (best : Nat × α) => start ≤ best.1 ∧ best.1 < stop ∧
    best.2 = weight best.1) ⟨le_rfl, some, rfl⟩ ?_
  rintro done i rest best split kept
  have member : i ∈ List.range' (start + 1) (stop - (start + 1)) := by simp [split]
  rw [List.mem_range'_1] at member
  dsimp only
  split
  · exact ⟨by omega, by omega, rfl⟩
  · exact kept

/-- The array lists the values of a permutation. -/
structure Lists {n : Nat} (perm : Array Nat) (π : Equiv.Perm (Fin n)) : Prop where
  size : perm.size = n
  value : ∀ i : Fin n, perm.getD i 0 = π i

variable {n : Nat} {perm : Array Nat} {π : Equiv.Perm (Fin n)}

theorem lists_range (n : Nat) : Lists (Array.range n) (1 : Equiv.Perm (Fin n)) :=
  ⟨Array.size_range, fun i => by simp [Array.getD_eq_getD_getElem?]⟩

theorem swap_val (k p i : Fin n) : (Equiv.swap k p i : Nat) = exchange k p i := by
  simp only [Equiv.swap_apply_def, exchange, Fin.ext_iff]
  split
  · rfl
  · split <;> rfl

theorem Lists.swap (lists : Lists perm π) (k p : Fin n) :
    Lists (perm.swapIfInBounds k p) (π * Equiv.swap k p) := by
  have first : (k : Nat) < perm.size := lists.size.symm ▸ k.isLt
  have second : (p : Nat) < perm.size := lists.size.symm ▸ p.isLt
  refine ⟨by simp [lists.size], fun i => ?_⟩
  rw [Equiv.Perm.mul_apply, ← lists.value, swap_val, Array.swapIfInBounds_def, dif_pos first,
    dif_pos second, Array.getD_eq_getD_getElem?, Array.getElem?_swap, exchange]
  simp only [Array.getD_eq_getD_getElem?, eq_comm (a := (p : Nat)), eq_comm (a := (k : Nat))]
  by_cases atk : (i : Nat) = k
  · by_cases atp : (i : Nat) = p
    · simp [← atk, ← atp, atk ▸ first]
    · simp [atk, atk ▸ atp, second]
  · by_cases atp : (i : Nat) = p
    · simp [atp, atp ▸ atk, first]
    · simp [atk, atp]

theorem Lists.getElem (lists : Lists perm π) {j : Nat} (within : j < perm.size) :
    perm[j] = π ⟨j, lists.size ▸ within⟩ := by
  have here := lists.value ⟨j, lists.size ▸ within⟩
  simpa [Array.getD, within] using here

theorem Lists.nodup (lists : Lists perm π) : perm.toList.Nodup := by
  refine List.nodup_iff_injective_get.mpr fun j j' same => Fin.ext ?_
  have equal : perm[(j : Nat)] = perm[(j' : Nat)] := by simpa using same
  rw [lists.getElem, lists.getElem, ← Fin.ext_iff] at equal
  exact Fin.mk.inj (π.injective equal)

/-! ### Entries moved -/

variable {α : Type} [Scalar α] {w x : Array α}

/-- The entries of `w`, each written to the place that `perm` names, over what is there. -/
def scatter (perm : Array Nat) (w x : Array α) : Array α :=
  perm.toList.zipIdx.foldl (fun x (place, k) => x.setIfInBounds place (w.getD k 0)) x

theorem size_scatter : (scatter perm w x).size = x.size :=
  size_foldl fun _ _ => Array.size_setIfInBounds

/-- Entries go where the permutation says. -/
theorem Lists.scatter (lists : Lists perm π) (size : x.size = n) (i : Fin n) :
    (Factor.scatter perm w x).getD (π i) 0 = w.getD i 0 := by
  have inside : (i : Nat) < perm.size := lists.size.symm ▸ i.isLt
  have cells : Factor.scatter perm w x = (perm.toList.zipIdx.map fun c => (c.1, w.getD c.2 0)).foldl
      (fun x c => x.setIfInBounds c.1 c.2) x := by
    rw [List.foldl_map]
    rfl
  have keys : (perm.toList.zipIdx.map fun c => (c.1, w.getD c.2 0)).map (·.1) = perm.toList := by
    simp [List.map_map, Function.comp_def]
  have listed : ((π i : Nat), (i : Nat)) ∈ perm.toList.zipIdx := by
    refine List.mem_zipIdx_iff_getElem?.mpr ?_
    rw [Array.getElem?_toList, Array.getElem?_eq_getElem inside, lists.getElem]
  rw [cells]
  exact getD_foldl_of_mem (keys.symm ▸ lists.nodup) (List.mem_map.mpr ⟨_, listed, rfl⟩)
    (size.symm ▸ (π i).isLt)

theorem Lists.permute (lists : Lists perm π) (w : Array α) (i : Fin n) :
    (Factor.permute perm w).getD (π i) 0 = w.getD i 0 :=
  lists.scatter (Array.size_replicate.trans lists.size) i

/-- Every place is written, so what was there does not show. -/
theorem Lists.scatter_eq (lists : Lists perm π) (size : x.size = n) :
    Factor.scatter perm w x = Factor.permute perm w := by
  have fresh : (Array.replicate perm.size (0 : α)).size = n :=
    Array.size_replicate.trans lists.size
  refine Triangular.eq_of_getD (size_scatter.trans size) (size_scatter.trans fresh)
    fun k inside => ?_
  obtain ⟨i, place⟩ := π.surjective ⟨k, inside⟩
  have named : k = π i := (congrArg Fin.val place).symm
  rw [named, lists.scatter size, lists.permute]

end Factor

/-! ### Factorizations -/

variable {α : Type} [Scalar α] {a : SparseMatrix α}

/-- A step of an elimination exchanges two rows. -/
theorem DenseLU.lists_factorize {options : Options α} {f : DenseLU α}
    (done : factorize options a = .ok f) :
    f.order = a.nrows ∧ ∃ π : Equiv.Perm (Fin a.nrows), Factor.Lists f.perm π := by
  rw [factorize_of_roomy (roomy_of_factorize done)] at done
  refine Outcome.foldlM_keeps (P := fun f : DenseLU α => f.order = a.nrows ∧
    ∃ π : Equiv.Perm (Fin a.nrows), Factor.Lists f.perm π) ?_
    ⟨rfl, 1, Factor.lists_range a.nrows⟩ done
  rintro f k t member ⟨order, π, lists⟩ step
  have below : k < a.nrows := List.mem_range.mp member
  obtain ⟨-, inside, -⟩ :=
    Factor.firstMax_mem (fun i => Scalar.abs (f.packed.entry i k)) (order.symm ▸ below)
  unfold eliminate at step
  dsimp only at step
  split at step
  · cases step
  · cases step
    exact ⟨order, _, lists.swap ⟨k, below⟩ ⟨_, order ▸ inside⟩⟩

theorem QR.length_rest (m : DenseMatrix α) (k j : Nat) : (rest m k j).length = m.nrows - k := by
  simp [rest]

/-- What the steps of a QR factorization leave after `k` of them. -/
structure QR.Arranged (f : QR α) (n k : Nat) : Prop where
  order : f.order = n
  lists : ∃ π : Equiv.Perm (Fin n), Factor.Lists f.perm π
  count : f.reflectors.size = k
  length : ∀ m < k, (f.reflectors.getD m ⟨[], 0⟩).direction.length = n - m

/-- A step of a QR factorization exchanges two columns and adds a direction for the rows that are
left. -/
theorem QR.Arranged.reduce {f : QR α} {n k : Nat} (arranged : f.Arranged n k) (below : k < n) :
    (f.reduce k).Arranged n (k + 1) := by
  obtain ⟨rfl, ⟨π, lists⟩, count, length⟩ := arranged
  obtain ⟨-, inside, -⟩ :=
    Factor.firstMax_mem (fun j => inner (rest f.r k j) (rest f.r k j)) below
  have exchanged := lists.swap ⟨k, below⟩ ⟨_, inside⟩
  have pushed {a : DenseMatrix α} {r : Reflector α} (rows : a.nrows = f.order)
      (last : r.direction.length = f.order - k) : (⟨a, f.reflectors.push r, f.perm.swapIfInBounds k
        (Factor.firstMax (fun j => inner (rest f.r k j) (rest f.r k j)) k f.order).1⟩ :
          QR α).Arranged f.order (k + 1) := by
    refine ⟨rows, ⟨_, exchanged⟩, by rw [Array.size_push, count], fun m less => ?_⟩
    rw [Array.getD_eq_getD_getElem?, Array.getElem?_push, count]
    rcases Nat.lt_succ_iff_lt_or_eq.mp less with earlier | rfl
    · rw [if_neg earlier.ne, ← Array.getD_eq_getD_getElem?]
      exact length m earlier
    · rw [if_pos rfl]
      exact last
  unfold QR.reduce
  dsimp only
  split
  · exact pushed rfl (length_rest _ k k)
  · refine pushed rfl ?_
    rw [List.length_cons, List.length_tail, length_rest]
    exact Nat.sub_add_cancel (Nat.sub_pos_of_lt below)

theorem QR.arranged_factorize {options : Options α} {f : QR α}
    (done : factorize options a = .ok f) : f.Arranged a.nrows a.nrows := by
  obtain ⟨-, rfl⟩ := eq_of_factorize done
  have start : (⟨a.toDense, #[], Array.range a.nrows⟩ : QR α).Arranged a.nrows 0 :=
    ⟨rfl, ⟨1, Factor.lists_range a.nrows⟩, rfl, fun m none => absurd none m.not_lt_zero⟩
  have kept : Arranged _ a.nrows (List.range a.nrows).length :=
    foldl_keeps (P := fun done (f : QR α) => f.Arranged a.nrows done.length) start
      fun done k rest f split arranged => by
        obtain ⟨below, rfl, -⟩ := Triangular.range_eq_append split
        simpa using arranged.reduce (k := (List.range k).length) (by simpa using below)
  rwa [List.length_range] at kept

end Cotangent
