import Cotangent.Plan.Sweep
import Cotangent.Proofs.Computation

/-! The numbers of a plan under single writes. Every write of a sweep puts one matrix into one place
and refuses a matrix of another shape, so the places keep the shapes of their entries whatever a
sweep does and wherever it stops. Each reader of a place is related to each writer once. -/
namespace Cotangent

variable {α σ : Type}

/-- The numbers of an entry have its shape, and those of a constant begin with its matrix. -/
structure Cell.Fits (e : Entry α σ) (c : Cell α) : Prop where
  value : c.value.shape = e.shape
  forward : ∀ m ∈ c.forward, m.shape = e.shape
  adjoint : ∀ m ∈ c.adjoint, m.shape = e.shape
  constant : ∀ m, e.kind = .constant m → c.value = m

namespace Slots

/-- There is one cell for every entry, and it fits. -/
structure Fit (p : Plan α σ) (s : Slots α) : Prop where
  size : s.size = p.entries.size
  cell : ∀ (k : Nat) (e : Entry α σ) (c : Cell α), p.entries[k]? = some e → s[k]? = some c →
    c.Fits e

/-- There is room for so many forward directions. -/
def ForwardRoom (count : Nat) (s : Slots α) : Prop :=
  ∀ (k : Nat) (c : Cell α), s[k]? = some c → count ≤ c.forward.size

/-- There is room for so many adjoint directions. -/
def AdjointRoom (count : Nat) (s : Slots α) : Prop :=
  ∀ (k : Nat) (c : Cell α), s[k]? = some c → count ≤ c.adjoint.size

def withValue (s : Slots α) (k : Nat) (m : DenseMatrix α) : Slots α :=
  s.modify k fun c => { c with value := m }

def withForward (s : Slots α) (d k : Nat) (m : DenseMatrix α) : Slots α :=
  s.modify k fun c => { c with forward := c.forward.setIfInBounds d m }

def withAdjoint (s : Slots α) (d k : Nat) (m : DenseMatrix α) : Slots α :=
  s.modify k fun c => { c with adjoint := c.adjoint.setIfInBounds d m }

section Readers

variable {s : Slots α} {k j d i : Nat} {m : DenseMatrix α}

theorem value_withValue (inside : k < s.size) :
    (s.withValue k m).value j = if j = k then m else s.value j := by
  unfold value withValue
  rw [Array.getElem?_modify]
  by_cases same : k = j
  · subst same
    simp [inside]
  · simp [same, Ne.symm same]

@[simp] theorem forward_withValue : (s.withValue k m).forward d j = s.forward d j := by
  unfold forward withValue
  rw [Array.getElem?_modify]
  split <;> cases s[j]? <;> rfl

@[simp] theorem adjoint_withValue : (s.withValue k m).adjoint d j = s.adjoint d j := by
  unfold adjoint withValue
  rw [Array.getElem?_modify]
  split <;> cases s[j]? <;> rfl

@[simp] theorem value_withForward : (s.withForward d k m).value j = s.value j := by
  unfold value withForward
  rw [Array.getElem?_modify]
  split <;> cases s[j]? <;> rfl

@[simp] theorem adjoint_withForward : (s.withForward d k m).adjoint i j = s.adjoint i j := by
  unfold adjoint withForward
  rw [Array.getElem?_modify]
  split <;> cases s[j]? <;> rfl

@[simp] theorem value_withAdjoint : (s.withAdjoint d k m).value j = s.value j := by
  unfold value withAdjoint
  rw [Array.getElem?_modify]
  split <;> cases s[j]? <;> rfl

@[simp] theorem forward_withAdjoint : (s.withAdjoint d k m).forward i j = s.forward i j := by
  unfold forward withAdjoint
  rw [Array.getElem?_modify]
  split <;> cases s[j]? <;> rfl

/-- A matrix written to a row of a cell, where the row has room for it. -/
theorem getD_modify_row {rows : Cell α → Array (DenseMatrix α)} {f : Cell α → Cell α} {count : Nat}
    (writes : ∀ c, rows (f c) = (rows c).setIfInBounds d m)
    (room : ∀ (k : Nat) c, s[k]? = some c → count ≤ (rows c).size) (few : d < count)
    (inside : k < s.size) :
    ((s.modify k f)[j]?.bind fun c => (rows c)[i]?).getD .empty =
      if j = k ∧ i = d then m else (s[j]?.bind fun c => (rows c)[i]?).getD .empty := by
  rw [Array.getElem?_modify]
  by_cases same : k = j
  · subst same
    have enough := Nat.lt_of_lt_of_le few (room k _ (Array.getElem?_eq_getElem inside))
    by_cases direction : d = i
    · subst direction
      simp [inside, writes, enough]
    · simp [inside, writes, direction, Ne.symm direction]
  · simp [same, Ne.symm same]

theorem forward_withForward {count : Nat} (room : s.ForwardRoom count) (few : d < count)
    (inside : k < s.size) :
    (s.withForward d k m).forward i j = if j = k ∧ i = d then m else s.forward i j :=
  getD_modify_row (fun _ => rfl) room few inside

theorem adjoint_withAdjoint {count : Nat} (room : s.AdjointRoom count) (few : d < count)
    (inside : k < s.size) :
    (s.withAdjoint d k m).adjoint i j = if j = k ∧ i = d then m else s.adjoint i j :=
  getD_modify_row (fun _ => rfl) room few inside

end Readers

/-! ### Shapes are kept -/

section Fit

variable {p : Plan α σ} {s : Slots α} {k d : Nat} {e : Entry α σ} {m : DenseMatrix α}

theorem Fit.lt_size (fit : s.Fit p) (at_k : p.entries[k]? = some e) : k < s.size := by
  rw [fit.size]
  exact (Array.getElem?_eq_some_iff.mp at_k).1

theorem Fit.cell_at (fit : s.Fit p) (at_k : p.entries[k]? = some e) :
    ∃ c, s[k]? = some c ∧ c.Fits e :=
  have held := Array.getElem?_eq_getElem (fit.lt_size at_k)
  ⟨_, held, fit.cell k e _ at_k held⟩

theorem Fit.shape_adjoint (fit : s.Fit p) {count : Nat} (room : s.AdjointRoom count)
    (few : d < count) (at_k : p.entries[k]? = some e) : (s.adjoint d k).shape = e.shape := by
  obtain ⟨c, held, fits⟩ := fit.cell_at at_k
  have enough := Nat.lt_of_lt_of_le few (room k c held)
  simpa [adjoint, held, enough] using fits.adjoint _ (Array.getElem_mem enough)

theorem Fit.value_constant (fit : s.Fit p) (at_k : p.entries[k]? = some e)
    (constant : e.kind = .constant m) : s.value k = m := by
  obtain ⟨c, held, fits⟩ := fit.cell_at at_k
  simpa [value, held] using fits.constant m constant

theorem Fit.map (fit : s.Fit p) {f : Cell α → Cell α}
    (keeps : ∀ (e : Entry α σ) c, c.Fits e → (f c).Fits e) : Fit p (s.map f) where
  size := by simpa using fit.size
  cell j e c at_j held := by
    obtain ⟨c', held', rfl⟩ := Option.map_eq_some_iff.mp (Array.getElem?_map .. ▸ held)
    exact keeps e c' (fit.cell j e c' at_j held')

theorem Fit.modify (fit : s.Fit p) {f : Cell α → Cell α} (at_k : p.entries[k]? = some e)
    (keeps : ∀ c, c.Fits e → (f c).Fits e) : Fit p (s.modify k f) where
  size := by simpa using fit.size
  cell j e' c at_j held := by
    rw [Array.getElem?_modify] at held
    split at held
    · next same =>
      subst same
      cases at_k.symm.trans at_j
      obtain ⟨c', held', rfl⟩ := Option.map_eq_some_iff.mp held
      exact keeps c' (fit.cell k e c' at_k held')
    · exact fit.cell j e' c at_j held

theorem Fit.withValue (fit : s.Fit p) (at_k : p.entries[k]? = some e) (shape : m.shape = e.shape)
    (varies : ∀ m, e.kind ≠ .constant m) : (s.withValue k m).Fit p :=
  fit.modify at_k fun _ fits => { fits with
    value := shape
    constant := fun m same => absurd same (varies m) }

theorem Fit.withForward (fit : s.Fit p) (at_k : p.entries[k]? = some e)
    (shape : m.shape = e.shape) : (s.withForward d k m).Fit p := by
  refine fit.modify at_k fun c fits => { fits with forward := fun x member => ?_ }
  rcases Array.mem_or_eq_of_mem_setIfInBounds member with old | rfl
  · exact fits.forward x old
  · exact shape

theorem Fit.withAdjoint (fit : s.Fit p) (at_k : p.entries[k]? = some e)
    (shape : m.shape = e.shape) : (s.withAdjoint d k m).Fit p := by
  refine fit.modify at_k fun c fits => { fits with adjoint := fun x member => ?_ }
  rcases Array.mem_or_eq_of_mem_setIfInBounds member with old | rfl
  · exact fits.adjoint x old
  · exact shape

/-- A change of a cell that keeps the size of a row keeps the room. -/
theorem room_modify {rows : Cell α → Array (DenseMatrix α)} {f : Cell α → Cell α} {count : Nat}
    (keeps : ∀ c, (rows (f c)).size = (rows c).size)
    (room : ∀ (k : Nat) c, s[k]? = some c → count ≤ (rows c).size) (j : Nat) (c : Cell α)
    (held : (s.modify k f)[j]? = some c) : count ≤ (rows c).size := by
  rw [Array.getElem?_modify] at held
  split at held
  · obtain ⟨c', held', rfl⟩ := Option.map_eq_some_iff.mp held
    rw [keeps]
    exact room j c' held'
  · exact room j c held

theorem ForwardRoom.withForward {count : Nat} (room : s.ForwardRoom count) :
    (s.withForward d k m).ForwardRoom count :=
  room_modify (fun _ => Array.size_setIfInBounds) room

theorem AdjointRoom.withAdjoint {count : Nat} (room : s.AdjointRoom count) :
    (s.withAdjoint d k m).AdjointRoom count :=
  room_modify (fun _ => Array.size_setIfInBounds) room

end Fit

end Slots

/-! ### What a write does -/

namespace Sweep

open Slots

variable {p : Plan α σ} {s : Slots α} {w : σ} {k d : Nat} {e : Entry α σ} {m : DenseMatrix α}

theorem checkShape_eq_ok {shape : Shape} {u : Unit} :
    m.checkShape shape = .ok u ↔ m.shape = shape := by
  unfold DenseMatrix.checkShape
  split <;> simp [*]

theorem not_refused {shape : Shape} {x : Error} (same : m.shape = shape) :
    m.checkShape shape ≠ .error x := by
  rw [DenseMatrix.checkShape, if_pos same]
  intro refused
  cases refused

theorem post_updateAll {rule : Cell α → Cell α} :
    Run.Post (updateAll rule) (s, w) (fun _ t => t = (s.map rule, w)) (fun _ _ => False) := rfl

/-- A value is written if it has the shape of the entry, and otherwise nothing is. -/
theorem post_setValue (fit : s.Fit p) (at_k : p.entries[k]? = some e) :
    Run.Post (setValue k m) (s, w)
      (fun _ t => m.shape = e.shape ∧ t = (s.withValue k m, w))
      (fun x t => m.checkShape e.shape = .error x ∧ t = (s, w)) := by
  obtain ⟨c, held, fits⟩ := fit.cell_at at_k
  simp only [Run.Post, setValue, update, held, DenseMatrix.overwrite, fits.value]
  cases checked : m.checkShape e.shape with
  | error x => exact ⟨rfl, rfl⟩
  | ok u =>
    refine ⟨checkShape_eq_ok.mp checked, congrArg (·, w) ?_⟩
    exact setIfInBounds_eq_modify held fun c => { c with value := m }

theorem post_setForward (fit : s.Fit p) {count : Nat} (room : s.ForwardRoom count)
    (few : d < count) (at_k : p.entries[k]? = some e) :
    Run.Post (setForward k d m) (s, w)
      (fun _ t => m.shape = e.shape ∧ t = (s.withForward d k m, w))
      (fun x t => m.checkShape e.shape = .error x ∧ t = (s, w)) := by
  obtain ⟨c, held, fits⟩ := fit.cell_at at_k
  have enough := Nat.lt_of_lt_of_le few (room k c held)
  have shape : c.forward[d].shape = e.shape := fits.forward _ (Array.getElem_mem enough)
  simp only [Run.Post, setForward, update, held, overwriteAt, Array.getElem?_eq_getElem enough,
    DenseMatrix.overwrite, shape]
  cases checked : m.checkShape e.shape with
  | error x => exact ⟨rfl, rfl⟩
  | ok u =>
    refine ⟨checkShape_eq_ok.mp checked, congrArg (·, w) ?_⟩
    exact setIfInBounds_eq_modify held fun c =>
      { c with forward := c.forward.setIfInBounds d m }

theorem shape_accumulate [Scalar α] {x y : DenseMatrix α} (added : x.accumulate m = .ok y) :
    m.shape = x.shape ∧ y.shape = x.shape := by
  unfold DenseMatrix.accumulate at added
  split at added
  · next same =>
    cases added
    exact ⟨same, rfl⟩
  · cases added

/-- A contribution is added if it has the shape of the entry, and otherwise nothing is. -/
theorem addAdjoint_eq [Scalar α] (fit : s.Fit p) {count : Nat} (room : s.AdjointRoom count)
    (few : d < count) (at_k : p.entries[k]? = some e) :
    addAdjoint k d m (s, w) =
      match (s.adjoint d k).accumulate m with
      | .ok y => (.ok (), (s.withAdjoint d k y, w))
      | .error x => (.error x, (s, w)) := by
  obtain ⟨c, held, -⟩ := fit.cell_at at_k
  have enough := Nat.lt_of_lt_of_le few (room k c held)
  have reads : s.adjoint d k = c.adjoint[d] := by simp [Slots.adjoint, held, enough]
  simp only [addAdjoint, update, held, Array.getElem?_eq_getElem enough, reads]
  cases c.adjoint[d].accumulate m with
  | error x => rfl
  | ok y =>
    refine congrArg (Except.ok (), ·, w) ?_
    exact setIfInBounds_eq_modify held fun c =>
      { c with adjoint := c.adjoint.setIfInBounds d y }

theorem shape_reserve [Scalar α] {count : Nat} {shape shape' : Shape}
    {xs : Array (DenseMatrix α)} (old : ∀ m ∈ xs, m.shape = shape) (same : shape' = shape)
    (member : m ∈ reserve count shape' xs) : m.shape = shape := by
  rcases Array.mem_append.mp member with earlier | new
  · exact old m earlier
  · rw [(Array.mem_replicate.mp new).2]
    exact same

theorem le_size_reserve [Scalar α] {count : Nat} {shape : Shape} {xs : Array (DenseMatrix α)} :
    count ≤ (reserve count shape xs).size := by
  simp only [reserve, Array.size_append, Array.size_replicate]
  omega

end Sweep

/-! ### Room for directions -/

namespace Slots

variable [Scalar α] {p : Plan α σ} {s : Slots α} {count : Nat}

/-- Room for forward directions, as a forward sweep makes it. -/
def reserved (count : Nat) (s : Slots α) : Slots α :=
  s.map fun c => { c with forward := Sweep.reserve count c.value.shape c.forward }

/-- Room for adjoint directions, all zero, as an adjoint sweep makes it. -/
def cleared (count : Nat) (s : Slots α) : Slots α :=
  s.map fun c =>
    { c with adjoint := Sweep.clear count (Sweep.reserve count c.value.shape c.adjoint) }

@[simp] theorem value_reserved (k : Nat) : (s.reserved count).value k = s.value k := by
  unfold value reserved
  rw [Array.getElem?_map]
  cases s[k]? <;> rfl

@[simp] theorem value_cleared (k : Nat) : (s.cleared count).value k = s.value k := by
  unfold value cleared
  rw [Array.getElem?_map]
  cases s[k]? <;> rfl

theorem forwardRoom_reserved : (s.reserved count).ForwardRoom count := by
  intro k c held
  obtain ⟨c', -, rfl⟩ := Option.map_eq_some_iff.mp (Array.getElem?_map .. ▸ held)
  exact Sweep.le_size_reserve

theorem adjointRoom_cleared : (s.cleared count).AdjointRoom count := by
  intro k c held
  obtain ⟨c', -, rfl⟩ := Option.map_eq_some_iff.mp (Array.getElem?_map .. ▸ held)
  simpa [Sweep.clear] using Sweep.le_size_reserve

theorem Fit.reserved (fit : s.Fit p) : (s.reserved count).Fit p :=
  fit.map fun _ _ fits => { fits with
    forward := fun _ member => Sweep.shape_reserve fits.forward fits.value member }

theorem Fit.cleared (fit : s.Fit p) : (s.cleared count).Fit p := by
  refine fit.map fun e c fits => { fits with adjoint := fun m member => ?_ }
  obtain ⟨d, inside, rfl⟩ := Array.mem_mapIdx.mp member
  have old := Sweep.shape_reserve fits.adjoint fits.value (Array.getElem_mem inside)
  split
  · exact old
  · exact old

/-- The first directions start from zero. -/
theorem adjoint_cleared (fit : s.Fit p) {k d : Nat} {e : Entry α σ} (few : d < count)
    (at_k : p.entries[k]? = some e) : (s.cleared count).adjoint d k = .fill e.shape 0 := by
  obtain ⟨c, held, fits⟩ := fit.cell_at at_k
  have enough : d < (Sweep.reserve count c.value.shape c.adjoint).size :=
    Nat.lt_of_lt_of_le few Sweep.le_size_reserve
  have shape := Sweep.shape_reserve fits.adjoint fits.value (Array.getElem_mem enough)
  simp [adjoint, cleared, held, Sweep.clear, enough, few, shape]

end Slots

/-- Before any sweep every number fits, as constants have the shape of their matrix. -/
theorem Plan.fit_startSlots [Zero α] {p : Plan α σ}
    (constant : ∀ (k : Nat) (e : Entry α σ) (m : DenseMatrix α), p.entries[k]? = some e →
      e.kind = .constant m → m.shape = e.shape) : p.startSlots.Fit p where
  size := by simp [startSlots]
  cell k e c at_k held := by
    simp only [startSlots, Array.getElem?_map, at_k, Option.map_some, Option.some.injEq] at held
    subst held
    refine ⟨?_, by simp [DenseMatrix.fill, DenseMatrix.shape],
      by simp [DenseMatrix.fill, DenseMatrix.shape], fun m same => by simp [same]⟩
    cases kind : e.kind with
    | constant m => exact constant k e m at_k kind
    | symbol | apply => rfl

end Cotangent
