import Cotangent.Proofs.CallStages

/-! What a sweep may have changed when it ends, wherever it ends. A sweep is made of writes to single
cells, and each of them puts a matrix in the place of one of the same shape: a value, or a sensitivity
of the kind and of one of the directions that are asked for. So shapes stay, the other kind stays, and
further directions stay, and nothing needs to be known of the operations or of where one of them
fails. Only making room for directions adds matrices, in the shape of the value. -/
namespace Cotangent

variable {α σ β γ : Type}

/-- The sensitivities of a kind, by direction. -/
def Cell.row (c : Cell α) : SweepKind → Array (DenseMatrix α)
  | .forward => c.forward
  | .adjoint => c.adjoint

/-- So many directions of one kind, and none of the other. -/
def SweepKind.only (kind : SweepKind) (count : Nat) : SweepKind → Nat :=
  fun other => if other = kind then count else 0

@[simp] theorem SweepKind.only_self (kind : SweepKind) (count : Nat) :
    kind.only count kind = count := if_pos rfl

/-! ### Rows -/

/-- Some of the first matrices are replaced by others of their shapes. -/
structure Rewritten (count : Nat) (xs ys : Array (DenseMatrix α)) : Prop where
  shapes : ys.map (·.shape) = xs.map (·.shape)
  beyond : ∀ d, count ≤ d → ys[d]? = xs[d]?

namespace Rewritten

variable {count d : Nat} {xs ys zs : Array (DenseMatrix α)} {m x : DenseMatrix α}

theorem refl : Rewritten count xs xs := ⟨rfl, fun _ _ => rfl⟩

theorem trans (h : Rewritten count xs ys) (h' : Rewritten count ys zs) : Rewritten count xs zs :=
  ⟨h'.shapes.trans h.shapes, fun d far => (h'.beyond d far).trans (h.beyond d far)⟩

theorem set (few : d < count) (held : xs[d]? = some x) (shape : m.shape = x.shape) :
    Rewritten count xs (xs.setIfInBounds d m) where
  shapes := by
    obtain ⟨inside, rfl⟩ := Array.getElem?_eq_some_iff.mp held
    rw [Array.map_setIfInBounds, shape]
    refine Array.ext_getElem? fun i => ?_
    rw [Array.getElem?_setIfInBounds]
    split
    · next same =>
      subst same
      simp [inside]
    · rfl
  beyond i far := Array.getElem?_setIfInBounds_ne (by omega)

theorem clear [Scalar α] : Rewritten count xs (Sweep.clear count xs) where
  shapes := by
    refine Array.ext_getElem? fun i => ?_
    simp only [Sweep.clear, Array.getElem?_map, Array.getElem?_mapIdx, Option.map_map]
    congr 1
    funext x
    simp only [Function.comp_apply]
    split <;> rfl
  beyond i far := by
    rw [Sweep.clear, Array.getElem?_mapIdx]
    cases xs[i]? with
    | none => rfl
    | some x => rw [Option.map_some, if_neg (Nat.not_lt.mpr far)]

end Rewritten

theorem Sweep.getElem?_reserve [Scalar α] {count d : Nat} {shape : Shape}
    {xs : Array (DenseMatrix α)} (far : count ≤ d) : (reserve count shape xs)[d]? = xs[d]? := by
  rw [reserve, Array.getElem?_append]
  split
  · rfl
  · next outside =>
    rw [Array.getElem?_eq_none (by simp; omega), Array.getElem?_eq_none (by omega)]

@[simp] theorem Sweep.reserve_zero [Scalar α] {shape : Shape} {xs : Array (DenseMatrix α)} :
    reserve 0 shape xs = xs := by
  simp [reserve]

/-! ### Cells -/

namespace Cell

/-- The value is replaced by another of its shape. -/
structure Revalued (c c' : Cell α) : Prop where
  value : c'.value.shape = c.value.shape
  row : c'.row = c.row

/-- Some sensitivities of the directions asked for are replaced by others of their shapes. -/
structure Sensitized (counts : SweepKind → Nat) (c c' : Cell α) : Prop where
  value : c'.value = c.value
  row : ∀ kind, Rewritten (counts kind) (c.row kind) (c'.row kind)

instance : IsPreorder (Cell α) Revalued where
  refl _ := ⟨rfl, rfl⟩
  trans _ _ _ h h' := ⟨h'.value.trans h.value, h'.row.trans h.row⟩

instance (counts : SweepKind → Nat) : IsPreorder (Cell α) (Sensitized counts) where
  refl _ := ⟨rfl, fun _ => .refl⟩
  trans _ _ _ h h' := ⟨h'.value.trans h.value, fun kind => (h.row kind).trans (h'.row kind)⟩

theorem Sensitized.forward {count : Nat} {c : Cell α} {xs : Array (DenseMatrix α)}
    (h : Rewritten count c.forward xs) :
    Sensitized (SweepKind.forward.only count) c { c with forward := xs } where
  value := rfl
  row
    | .forward => h
    | .adjoint => .refl

theorem Sensitized.adjoint {count : Nat} {c : Cell α} {xs : Array (DenseMatrix α)}
    (h : Rewritten count c.adjoint xs) :
    Sensitized (SweepKind.adjoint.only count) c { c with adjoint := xs } where
  value := rfl
  row
    | .forward => .refl
    | .adjoint => h

variable [Scalar α] {counts : SweepKind → Nat} {c c' c'' : Cell α}

/-- A cell as a sweep may leave it. -/
structure Overwritten (counts : SweepKind → Nat) (c c' : Cell α) : Prop where
  /-- The value keeps its shape. -/
  value : c'.value.shape = c.value.shape
  /-- So do all sensitivities. New ones, in the shape of the value, fill up the directions asked for. -/
  shapes : ∀ kind, (c'.row kind).map (·.shape) =
    (Sweep.reserve (counts kind) c.value.shape (c.row kind)).map (·.shape)
  /-- Directions that are not asked for keep their sensitivities. -/
  beyond : ∀ kind d, counts kind ≤ d → (c'.row kind)[d]? = (c.row kind)[d]?

theorem Revalued.overwritten (h : Revalued c c') : Overwritten (fun _ => 0) c c' where
  value := h.value
  shapes kind := by rw [h.row, Sweep.reserve_zero]
  beyond kind d _ := by rw [h.row]

theorem Overwritten.after_value (h : Revalued c c') (h' : Overwritten counts c' c'') :
    Overwritten counts c c'' where
  value := h'.value.trans h.value
  shapes kind := by rw [h'.shapes, h.value, h.row]
  beyond kind d far := by rw [h'.beyond kind d far, h.row]

theorem Overwritten.sensitized (h : Overwritten counts c c') (h' : Sensitized counts c' c'') :
    Overwritten counts c c'' where
  value := by rw [h'.value, h.value]
  shapes kind := (h'.row kind).shapes.trans (h.shapes kind)
  beyond kind d far := ((h'.row kind).beyond d far).trans (h.beyond kind d far)

/-- Room for directions of one kind. -/
theorem Overwritten.of_room {kind : SweepKind} {count : Nat} (value : c'.value = c.value)
    (here : c'.row kind = Sweep.reserve count c.value.shape (c.row kind))
    (others : ∀ other, other ≠ kind → c'.row other = c.row other) :
    Overwritten (kind.only count) c c' where
  value := by rw [value]
  shapes other := by
    by_cases same : other = kind
    · rw [same, here, SweepKind.only_self]
    · rw [others other same, SweepKind.only, if_neg same, Sweep.reserve_zero]
  beyond other d far := by
    by_cases same : other = kind
    · subst same
      rw [here]
      exact Sweep.getElem?_reserve (by simpa using far)
    · rw [others other same]

end Cell

/-! ### Sweeps -/

/-- Cell by cell, two lists of numbers are related. -/
def Slots.Related (R : Cell α → Cell α → Prop) (s s' : Slots α) : Prop :=
  ∀ k : Nat, Option.Rel R s[k]? s'[k]?

namespace Slots.Related

variable {R R' R'' : Cell α → Cell α → Prop} {s t u : Slots α}

theorem comp (h : s.Related R t) (h' : t.Related R' u)
    (both : ∀ a b c, R a b → R' b c → R'' a c) : s.Related R'' u := by
  intro k
  have first := h k
  have second := h' k
  revert first second
  generalize s[k]? = x, t[k]? = y, u[k]? = z
  rintro (⟨ab⟩ | _) second
  · obtain ⟨bc⟩ := second
    exact .some (both _ _ _ ab bc)
  · cases second
    exact .none

theorem exists_cell (h : s.Related R t) {k : Nat} {c : Cell α} (held : t[k]? = some c) :
    ∃ b, s[k]? = some b ∧ R b c := by
  have here := h k
  rw [held] at here
  revert here
  generalize s[k]? = x
  rintro ⟨bc⟩
  exact ⟨_, rfl, bc⟩

theorem size (h : s.Related R t) : t.size = s.size := by
  have rel (k : Nat) : s[k]? = none ↔ t[k]? = none := by
    have here := h k
    revert here
    generalize s[k]? = x, t[k]? = y
    rintro (⟨_⟩ | _) <;> simp
  simp only [Array.getElem?_eq_none_iff] at rel
  exact Nat.le_antisymm ((rel s.size).mp (Nat.le_refl _)) ((rel t.size).mpr (Nat.le_refl _))

theorem imp (h : s.Related R t) (wider : ∀ a b, R a b → R' a b) : s.Related R' t := by
  intro k
  have here := h k
  revert here
  generalize s[k]? = x, t[k]? = y
  rintro (⟨ab⟩ | _)
  · exact .some (wider _ _ ab)
  · exact .none

theorem self [IsPreorder (Cell α) R] : s.Related R s := by
  intro k
  cases s[k]? with
  | none => exact .none
  | some c => exact .some (refl_of R c)

theorem set [IsPreorder (Cell α) R] {k : Nat} {c c' : Cell α} (held : s[k]? = some c)
    (related : R c c') : s.Related R (s.setIfInBounds k c') := by
  intro j
  rw [Array.getElem?_setIfInBounds]
  split
  · next same =>
    subst same
    rw [held, if_pos (Array.getElem?_eq_some_iff.mp held).1]
    exact .some related
  · exact self j

theorem of_map {rule : Cell α → Cell α} (each : ∀ c, R c (rule c)) : s.Related R (s.map rule) := by
  intro k
  rw [Array.getElem?_map]
  cases s[k]? with
  | none => exact .none
  | some c => exact .some (each c)

end Slots.Related

/-- However the computation ends, the numbers before and after it are related. -/
def Sweep.Leaves (R : Cell α → Cell α → Prop) (act : Sweep α σ β) : Prop :=
  ∀ t, Slots.Related R t.1 (act t).2.1

namespace Sweep.Leaves

variable {R : Cell α → Cell α → Prop} [IsPreorder (Cell α) R] {act : Sweep α σ β}

theorem silent (same : ∀ t, (act t).2.1 = t.1) : Leaves R act := by
  intro t
  rw [same]
  exact .self

theorem pure (x : β) : Leaves R (pure x : Sweep α σ β) := silent fun _ => rfl

theorem call (act : Slots α → Run σ β) : Leaves R (Sweep.call act) := silent fun _ => rfl

theorem update {k : Nat} {rule : Cell α → Except Error (Cell α)}
    (writes : ∀ c c', rule c = .ok c' → R c c') :
    Leaves R (Sweep.update k rule : Sweep α σ Unit) := by
  rintro ⟨s, w⟩
  simp only [Sweep.update]
  cases held : s[k]? with
  | none => exact .self
  | some c =>
    dsimp only
    cases ran : rule c with
    | error e => exact .self
    | ok c' => exact .set held (writes c c' ran)

theorem bind {next : β → Sweep α σ γ} (first : Leaves R act) (later : ∀ x, Leaves R (next x)) :
    Leaves R (act >>= next) := by
  intro t
  rw [Run.bind_apply]
  have here := first t
  rcases ran : act t with ⟨_ | x, u⟩ <;> rw [ran] at here
  · exact here
  · exact here.comp (later x u) IsTrans.trans

theorem forM {δ : Type} {f : δ → Sweep α σ Unit} {xs : List δ}
    (each : ∀ x ∈ xs, Leaves R (f x)) : Leaves R (forM xs f) := by
  induction xs with
  | nil => exact pure ()
  | cons x xs ih =>
    rw [List.forM_cons]
    exact (each x List.mem_cons_self).bind fun _ =>
      ih fun y member => each y (List.mem_cons_of_mem x member)

end Sweep.Leaves

namespace Sweep

open Cell

theorem leaves_setValue (k : Nat) (m : DenseMatrix α) :
    Leaves Revalued (setValue k m : Sweep α σ Unit) := by
  refine .update fun c c' written => ?_
  obtain ⟨v, overwritten, rfl⟩ := Outcome.map_eq_ok.mp written
  obtain ⟨_, checked, rfl⟩ := Outcome.map_eq_ok.mp overwritten
  exact ⟨checkShape_eq_ok.mp checked, funext fun | .forward | .adjoint => rfl⟩

theorem leaves_setForward {count d : Nat} (few : d < count) (k : Nat) (m : DenseMatrix α) :
    Leaves (Sensitized (SweepKind.forward.only count)) (setForward k d m : Sweep α σ Unit) := by
  refine .update fun c c' written => ?_
  obtain ⟨xs, replaced, rfl⟩ := Outcome.map_eq_ok.mp written
  unfold overwriteAt at replaced
  split at replaced
  · cases replaced
  · next x held =>
    obtain ⟨v, overwritten, rfl⟩ := Outcome.map_eq_ok.mp replaced
    obtain ⟨_, checked, rfl⟩ := Outcome.map_eq_ok.mp overwritten
    exact .forward (.set few held (checkShape_eq_ok.mp checked))

variable [Scalar α]

theorem leaves_addAdjoint {count d : Nat} (few : d < count) (k : Nat) (m : DenseMatrix α) :
    Leaves (Sensitized (SweepKind.adjoint.only count)) (addAdjoint k d m : Sweep α σ Unit) := by
  refine .update fun c c' written => ?_
  split at written
  · cases written
  · next x held =>
    obtain ⟨y, added, rfl⟩ := Outcome.map_eq_ok.mp written
    exact .adjoint (.set few held (shape_accumulate added).2)

end Sweep

namespace Plan

open Sweep Cell

theorem leaves_bindInputs (p : Plan α σ) (xs : List (DenseMatrix α)) :
    Leaves Revalued (p.bindInputs xs) :=
  .forM fun _ _ => leaves_setValue _ _

theorem leaves_valueSweep (p : Plan α σ) : Leaves Revalued p.valueSweep := by
  refine .forM fun e _ => ?_
  unfold valueStep
  split
  · exact .bind (.call _) fun m => leaves_setValue _ m
  · exact .pure ()

variable [Scalar α]

theorem leaves_forwardStep (count : Nat) (e : Entry α σ × Nat) :
    Leaves (Sensitized (SweepKind.forward.only count)) (forwardStep count e) := by
  unfold forwardStep
  split
  · exact .pure ()
  · exact .update fun c c' written => by cases written; exact .forward .clear
  · refine .bind (.call _) fun found => ?_
    split
    · exact .silent fun _ => rfl
    · next length =>
      refine .forM fun (m, d) member => leaves_setForward ?_ _ m
      rw [← not_not.mp length]
      exact (List.getElem?_eq_some_iff.mp (List.mem_zipIdx_iff_getElem?.mp member)).1

theorem leaves_adjointStep (count : Nat) (e : Entry α σ × Nat) :
    Leaves (Sensitized (SweepKind.adjoint.only count)) (adjointStep count e) := by
  unfold adjointStep
  split
  · refine .bind (.call _) fun found => ?_
    split
    · exact .silent fun _ => rfl
    · next length =>
      refine .forM fun (contributions, d) member => ?_
      have few : d < count := by
        rw [← not_not.mp length]
        exact (List.getElem?_eq_some_iff.mp (List.mem_zipIdx_iff_getElem?.mp member)).1
      unfold spread
      dsimp only
      split
      · exact .silent fun _ => rfl
      · refine .forM fun (k, m) _ => ?_
        cases m with
        | some m => exact leaves_addAdjoint few k m
        | none => exact .pure ()
  · exact .pure ()

/-- A sweep that makes room first and then replaces sensitivities of the directions asked for. -/
theorem leaves_after_room {counts : SweepKind → Nat} {rule : Cell α → Cell α}
    {rest : Sweep α σ Unit} (room : ∀ c, (rule c).value = c.value ∧ Overwritten counts c (rule c))
    (later : Leaves (Sensitized counts) rest) :
    Leaves (fun c c' => c'.value = c.value ∧ Overwritten counts c c')
      (updateAll rule >>= fun _ => rest) := by
  intro t
  have first : Slots.Related (fun c c' => c'.value = c.value ∧ Overwritten counts c c') t.1
    (t.1.map rule) := .of_map room
  exact first.comp (later (t.1.map rule, t.2)) fun _ _ _ h h' =>
    ⟨h'.value.trans h.1, h.2.sensitized h'⟩

/-- A sweep of a kind leaves the values, the other kind and all further directions alone. -/
theorem leaves_sensitize (p : Plan α σ) (kind : SweepKind) (seeds : List (List (DenseMatrix α))) :
    Leaves (fun c c' => c'.value = c.value ∧ Overwritten (kind.only seeds.length) c c')
      (p.sensitize (kind, seeds)) := by
  have few {direction : List (DenseMatrix α)} {d : Nat}
      (member : (direction, d) ∈ seeds.zipIdx) : d < seeds.length :=
    (List.getElem?_eq_some_iff.mp (List.mem_zipIdx_iff_getElem?.mp member)).1
  cases kind with
  | forward =>
    refine leaves_after_room (fun c => ⟨rfl, .of_room rfl rfl ?_⟩) ?_
    · rintro (_ | _) other
      · exact absurd rfl other
      · rfl
    · exact .bind (.forM fun (direction, d) member => .forM fun (k, seed) _ =>
        leaves_setForward (few member) k seed) fun _ =>
          .forM fun e _ => leaves_forwardStep seeds.length e
  | adjoint =>
    refine leaves_after_room (fun c => ⟨rfl, ?_⟩) ?_
    · have room : Overwritten (SweepKind.adjoint.only seeds.length) c
          { c with adjoint := reserve seeds.length c.value.shape c.adjoint } := by
        refine .of_room rfl rfl ?_
        rintro (_ | _) other
        · rfl
        · exact absurd rfl other
      exact room.sensitized (.adjoint .clear)
    · exact .bind (.forM fun (direction, d) member => .forM fun (k, seed) _ =>
        leaves_addAdjoint (few member) k seed) fun _ =>
          .forM fun e _ => leaves_adjointStep seeds.length e

end Plan

end Cotangent
