import Cotangent.Proofs.ForwardSweep
import Cotangent.Proofs.AdjointSweep
import Cotangent.Proofs.Shapes

/-! Sweeps over operations that keep their promise of shapes. What a step reads fits the operands of
its entry, so the operation answers what fits the entry and its operands, and every write is
accepted. A sweep therefore stops only where an operation refuses, and whatever it leaves behind
fits the plan again. -/
namespace Cotangent

variable {α σ : Type}

/-- A call of an operation leaves the numbers alone. -/
theorem Sweep.post_call_of {β : Type} {act : Slots α → Run σ β} {s : Slots α} {w : σ}
    {done : β → σ → Prop} {failed : Error → σ → Prop} (h : Run.Post (act s) w done failed) :
    Run.Post (Sweep.call act) (s, w) (fun x t => t.1 = s ∧ done x t.2)
      (fun e t => t.1 = s ∧ failed e t.2) := by
  simp only [Run.Post, Sweep.call] at h ⊢
  rcases ran : act s w with ⟨e | x, w'⟩ <;> rw [ran] at h <;> exact ⟨rfl, h⟩

namespace Slots

variable {p : Plan α σ} {s : Slots α} {k d count : Nat} {e : Entry α σ}

theorem Fit.shape_value (fit : s.Fit p) (at_k : p.entries[k]? = some e) :
    (s.value k).shape = e.shape := by
  obtain ⟨c, held, fits⟩ := fit.cell_at at_k
  simpa [value, held] using fits.value

theorem Fit.shape_forward (fit : s.Fit p) (room : s.ForwardRoom count) (few : d < count)
    (at_k : p.entries[k]? = some e) : (s.forward d k).shape = e.shape := by
  obtain ⟨c, held, fits⟩ := fit.cell_at at_k
  have enough := Nat.lt_of_lt_of_le few (room k c held)
  simpa [forward, held, enough] using fits.forward _ (Array.getElem_mem enough)

end Slots

namespace Plan

/-- Positions whose entries have these shapes. -/
def Shaped (p : Plan α σ) (positions : List Nat) (shapes : List Shape) : Prop :=
  List.Forall₂ (fun j s => ∃ e, p.entries[j]? = some e ∧ e.shape = s) positions shapes

/-- Every operation of the plan keeps its promise for the shapes of its operands and of its entry,
and refuses as the entry allows. -/
def Promises (p : Plan α σ) (inv : σ → Prop) (refuses : Entry α σ → Nat → Error → Prop) : Prop :=
  ∀ (k : Nat) e op, p.entries[k]? = some e → e.kind = .apply op →
    ∃ shapes, p.Shaped e.children shapes ∧ op.Shaped inv shapes e.shape (refuses e)

/-- Some entry of the plan allows its operation to refuse so many directions with this error. -/
def Refuses (p : Plan α σ) (refuses : Entry α σ → Nat → Error → Prop) (count : Nat) (x : Error) :
    Prop :=
  ∃ (k : Nat) (e : Entry α σ), p.entries[k]? = some e ∧ refuses e count x

variable {g : Graph α σ} {inputs outputs : List NodeId} {p : Plan α σ} {inv : σ → Prop}
  {refuses : Entry α σ → Nat → Error → Prop} {count : Nat} {s : Slots α} {w : σ}

/-- Numbers that fit are read in the shapes of the entries. -/
theorem Shaped.map {positions : List Nat} {shapes : List Shape} (shaped : p.Shaped positions shapes)
    {read : Nat → DenseMatrix α} (reads : ∀ (j : Nat) e, p.entries[j]? = some e →
      (read j).shape = e.shape) : (positions.map read).map (·.shape) = shapes := by
  rw [List.map_map, ← List.forall₂_eq_eq_eq, List.forall₂_map_left_iff]
  refine shaped.imp ?_
  rintro j _ ⟨e, at_j, rfl⟩
  exact reads j e at_j

/-- What a value sweep keeps. -/
def Fits (p : Plan α σ) (inv : σ → Prop) (t : Slots α × σ) : Prop := t.1.Fit p ∧ inv t.2

theorem post_valueStep_shaped (promises : p.Promises inv refuses) {k : Nat} {e : Entry α σ}
    (at_k : p.entries[k]? = some e) (fit : s.Fit p) (hw : inv w) :
    Run.Post (valueStep (e, k)) (s, w) (fun _ => p.Fits inv)
      (fun x t => p.Refuses refuses 0 x ∧ p.Fits inv t) := by
  unfold valueStep
  cases what : e.kind with
  | symbol | constant => exact ⟨fit, hw⟩
  | apply op =>
    obtain ⟨shapes, operands, shaped⟩ := promises k e op at_k what
    have reads := operands.map fun j e' at_j => fit.shape_value at_j
    refine Run.Post.bind ((Sweep.post_call_of (shaped.evaluate _ w reads hw)).imp
      (fun _ _ => id) ?_) ?_
    · rintro x ⟨s', w'⟩ ⟨rfl, refused, hw⟩
      exact ⟨⟨k, e, at_k, refused⟩, fit, hw⟩
    · rintro m ⟨s', w'⟩ ⟨rfl, shape, hw⟩
      refine (Sweep.post_setValue fit at_k).imp ?_ ?_
      · rintro _ t ⟨-, rfl⟩
        exact ⟨fit.withValue at_k shape (by simp [what]), hw⟩
      · rintro x t ⟨refused, -⟩
        exact (Sweep.not_refused shape refused).elim

theorem post_valueSweep_shaped (promises : p.Promises inv refuses) (fit : s.Fit p) (hw : inv w) :
    Run.Post p.valueSweep (s, w) (fun _ => p.Fits inv)
      (fun x t => p.Refuses refuses 0 x ∧ p.Fits inv t) := by
  refine Run.Post.forM (fun _ => p.Fits inv) ⟨fit, hw⟩ ?_ fun _ fits => fits
  rintro i ⟨e, k⟩ ⟨s, w⟩ at_i ⟨fit, hw⟩
  obtain ⟨at_k, rfl⟩ := getElem?_placed.mp at_i
  exact post_valueStep_shaped promises at_k fit hw

/-! ### Forward -/

/-- What a forward sweep keeps. -/
def FitsForward (p : Plan α σ) (inv : σ → Prop) (count : Nat) (t : Slots α × σ) : Prop :=
  p.Fits inv t ∧ t.1.ForwardRoom count

/-- A row in the shape of its place is written. -/
theorem post_writeRow_shaped {k : Nat} {e : Entry α σ} (fit : s.Fit p) (room : s.ForwardRoom count)
    (at_k : p.entries[k]? = some e) {row : List (DenseMatrix α)} (length : row.length = count)
    (shapes : ∀ m ∈ row, m.shape = e.shape) :
    Run.Post (row.zipIdx.forM fun (m, d) => Sweep.setForward k d m) (s, w)
      (fun _ t => s.Touched p count k t.1 ∧ t.2 = w ∧ t.1.row count k = row)
      (fun _ _ => False) := by
  refine (post_writeRow fit room at_k row length).imp (fun _ _ => And.right) ?_
  rintro x t ⟨refused, -⟩
  obtain ⟨m, member, x, refused⟩ := Outcome.mapM_eq_error.mp ⟨x, refused⟩
  exact Sweep.not_refused (shapes m member) refused

theorem post_forwardStep_shaped [Scalar α] (promises : p.Promises inv refuses) {k : Nat}
    {e : Entry α σ} (at_k : p.entries[k]? = some e) (fit : s.Fit p) (hw : inv w)
    (room : s.ForwardRoom count) :
    Run.Post (forwardStep count (e, k)) (s, w) (fun _ => p.FitsForward inv count)
      (fun x t => p.Refuses refuses count x ∧ p.Fits inv t) := by
  unfold forwardStep
  cases what : e.kind with
  | symbol => exact ⟨⟨fit, hw⟩, room⟩
  | constant m =>
    refine (post_clearRow fit room at_k).imp ?_ fun _ _ => False.elim
    rintro _ ⟨s, w⟩ ⟨touched, rfl, -⟩
    exact ⟨⟨touched.fit, hw⟩, touched.room⟩
  | apply op =>
    obtain ⟨shapes, operands, shaped⟩ := promises k e op at_k what
    have reads := operands.map fun j e' at_j => fit.shape_value at_j
    have seeding : ∀ direction ∈ (List.range count).map fun d => e.children.map (s.forward d),
        direction.map (·.shape) = shapes := by
      intro direction along
      obtain ⟨d, few, rfl⟩ := List.mem_map.mp along
      exact operands.map fun j e' at_j => fit.shape_forward room (List.mem_range.mp few) at_j
    have answered := shaped.forwardBatch _ (s.value k) _ w reads (fit.shape_value at_k) seeding hw
    rw [List.length_map, List.length_range] at answered
    refine Run.Post.bind ((Sweep.post_call_of answered).imp (fun _ _ => id) ?_) ?_
    · rintro x ⟨s', w'⟩ ⟨rfl, refused, hw⟩
      exact ⟨⟨k, e, at_k, refused⟩, fit, hw⟩
    · rintro found ⟨s', w'⟩ ⟨rfl, ⟨length, row⟩, hw⟩
      rw [if_neg (not_not_intro length)]
      refine (post_writeRow_shaped fit room at_k length row).imp ?_ fun _ _ => False.elim
      rintro _ ⟨s, w⟩ ⟨touched, rfl, -⟩
      exact ⟨⟨touched.fit, hw⟩, touched.room⟩

theorem post_forwardSweep_shaped [Scalar α] (layout : p.Layout g inputs outputs)
    (promises : p.Promises inv refuses) (fit : s.Fit p) (hw : inv w)
    {directions : List (List (DenseMatrix α))}
    (fitting : ∀ direction ∈ directions, p.Fitting p.inputs direction) :
    Run.Post (p.forwardSweep directions) (s, w) (fun _ => p.FitsForward inv directions.length)
      (fun x t => p.Refuses refuses directions.length x ∧ p.Fits inv t) := by
  refine Run.Post.bind_sure Sweep.post_updateAll ?_
  rintro _ _ rfl
  refine Run.Post.bind_sure (post_seed layout fit.reserved Slots.forwardRoom_reserved fitting) ?_
  rintro _ ⟨s, w⟩ ⟨⟨fit, rfl, room⟩, -, -⟩
  refine Run.Post.forM (fun _ => p.FitsForward inv directions.length) ⟨⟨fit, hw⟩, room⟩ ?_
    fun _ fits => fits
  rintro i ⟨e, k⟩ ⟨s, w⟩ at_i ⟨⟨fit, hw⟩, room⟩
  obtain ⟨at_k, rfl⟩ := getElem?_placed.mp at_i
  exact post_forwardStep_shaped promises at_k fit hw room

/-! ### Adjoint -/

/-- What an adjoint sweep keeps. -/
def FitsAdjoint (p : Plan α σ) (inv : σ → Prop) (count : Nat) (t : Slots α × σ) : Prop :=
  p.Fits inv t ∧ t.1.AdjointRoom count

theorem FitsAdjoint.post_addAdjoint [Scalar α] {t : Slots α × σ} (fits : p.FitsAdjoint inv count t)
    {k d : Nat} {e : Entry α σ} {m : DenseMatrix α} (few : d < count)
    (at_k : p.entries[k]? = some e) (shape : m.shape = e.shape) :
    Run.Post (Sweep.addAdjoint k d m) t (fun _ => p.FitsAdjoint inv count)
      (fun _ _ => False) := by
  obtain ⟨s, w⟩ := t
  obtain ⟨⟨fit, hw⟩, room⟩ := fits
  obtain ⟨y, added, shape⟩ :=
    DenseMatrix.exists_accumulate (fit.shape_adjoint room few at_k) shape
  unfold Run.Post
  rw [Sweep.addAdjoint_eq fit room few at_k, added]
  exact ⟨⟨fit.withAdjoint at_k shape, hw⟩, room.withAdjoint⟩

theorem FitsAdjoint.post_spread [Scalar α] {t : Slots α × σ} (fits : p.FitsAdjoint inv count t)
    {d : Nat} (few : d < count) {children : List Nat} {shapes : List Shape}
    (operands : p.Shaped children shapes) {contributions : List (Option (DenseMatrix α))}
    (contributes : Contributes contributions shapes) (op : String) :
    Run.Post (spread op children contributions d) t (fun _ => p.FitsAdjoint inv count)
      (fun _ _ => False) := by
  unfold spread
  rw [if_neg (not_not_intro (contributes.length_eq.trans operands.length_eq.symm))]
  refine Run.Post.forM (fun _ => p.FitsAdjoint inv count) fits ?_ fun _ fits => fits
  rintro i ⟨j, m⟩ t at_i fits
  obtain ⟨at_j, at_m⟩ := List.getElem?_zip_eq_some.mp at_i
  cases m with
  | none => exact fits
  | some m =>
    obtain ⟨shape, promised, e, at_j, same⟩ := Outcome.exists_at_of_forall₂ operands at_j
    obtain ⟨shape', promised', contributed⟩ := Outcome.exists_at_of_forall₂ contributes at_m
    cases promised.symm.trans promised'
    exact fits.post_addAdjoint few at_j ((contributed m rfl).trans same.symm)

/-- Contributions to all directions are spread. -/
theorem FitsAdjoint.post_spreads [Scalar α] {t : Slots α × σ} (fits : p.FitsAdjoint inv count t)
    {found : List (List (Option (DenseMatrix α)))} (length : found.length = count)
    {children : List Nat} {shapes : List Shape} (operands : p.Shaped children shapes)
    (contribute : ∀ cs ∈ found, Contributes cs shapes) (op : String) :
    Run.Post (found.zipIdx.forM fun (contributions, d) => spread op children contributions d) t
      (fun _ => p.FitsAdjoint inv count) (fun _ _ => False) := by
  refine Run.Post.forM (fun _ => p.FitsAdjoint inv count) fits ?_ fun _ fits => fits
  rintro i ⟨contributions, d⟩ t at_i fits
  obtain ⟨at_i, rfl⟩ := getElem?_zipIdx_iff.mp at_i
  have few : d < count := length ▸ (List.getElem?_eq_some_iff.mp at_i).1
  exact fits.post_spread few operands (contribute _ (List.mem_of_getElem? at_i)) op

/-- Seeds of all directions are added. -/
theorem FitsAdjoint.post_seeds [Scalar α] {t : Slots α × σ}
    {directions : List (List (DenseMatrix α))} (fits : p.FitsAdjoint inv directions.length t)
    (fitting : ∀ direction ∈ directions, p.Fitting p.outputs direction) :
    Run.Post (directions.zipIdx.forM fun (direction, d) =>
        (p.outputs.zip direction).forM fun (k, seed) => Sweep.addAdjoint k d seed) t
      (fun _ => p.FitsAdjoint inv directions.length) (fun _ _ => False) := by
  refine Run.Post.forM (fun _ => p.FitsAdjoint inv directions.length) fits ?_ fun _ fits => fits
  rintro i ⟨direction, d⟩ t at_i fits
  obtain ⟨at_i, rfl⟩ := getElem?_zipIdx_iff.mp at_i
  have few := (List.getElem?_eq_some_iff.mp at_i).1
  refine Run.Post.forM (fun _ => p.FitsAdjoint inv directions.length) fits ?_ fun _ fits => fits
  rintro j ⟨k, seed⟩ t at_j fits
  obtain ⟨e, at_k, shape⟩ := List.forall₂_zip (fitting direction (List.mem_of_getElem? at_i))
    (List.mem_of_getElem? at_j)
  exact fits.post_addAdjoint few at_k shape

theorem post_adjointStep_shaped [Scalar α] (promises : p.Promises inv refuses) {k : Nat}
    {e : Entry α σ} (at_k : p.entries[k]? = some e) (fit : s.Fit p) (hw : inv w)
    (room : s.AdjointRoom count) :
    Run.Post (adjointStep count (e, k)) (s, w) (fun _ => p.FitsAdjoint inv count)
      (fun x t => p.Refuses refuses count x ∧ p.Fits inv t) := by
  unfold adjointStep
  cases what : e.kind with
  | symbol | constant => exact ⟨⟨fit, hw⟩, room⟩
  | apply op =>
    obtain ⟨shapes, operands, shaped⟩ := promises k e op at_k what
    have reads := operands.map fun j e' at_j => fit.shape_value at_j
    have seeding : ∀ seed ∈ (List.range count).map fun d => s.adjoint d k,
        seed.shape = e.shape := by
      intro seed along
      obtain ⟨d, few, rfl⟩ := List.mem_map.mp along
      exact fit.shape_adjoint room (List.mem_range.mp few) at_k
    have answered := shaped.adjointBatch _ (s.value k) _ w reads (fit.shape_value at_k) seeding hw
    rw [List.length_map, List.length_range] at answered
    refine Run.Post.bind ((Sweep.post_call_of answered).imp (fun _ _ => id) ?_) ?_
    · rintro x ⟨s', w'⟩ ⟨rfl, refused, hw⟩
      exact ⟨⟨k, e, at_k, refused⟩, fit, hw⟩
    · rintro found ⟨s', w'⟩ ⟨rfl, ⟨length, contribute⟩, hw⟩
      rw [if_neg (not_not_intro length)]
      exact (FitsAdjoint.post_spreads ⟨⟨fit, hw⟩, room⟩ length operands contribute op.name).imp
        (fun _ _ => id) fun _ _ => False.elim

theorem post_adjointSweep_shaped [Scalar α] (promises : p.Promises inv refuses) (fit : s.Fit p)
    (hw : inv w) {directions : List (List (DenseMatrix α))}
    (fitting : ∀ direction ∈ directions, p.Fitting p.outputs direction) :
    Run.Post (p.adjointSweep directions) (s, w) (fun _ => p.FitsAdjoint inv directions.length)
      (fun x t => p.Refuses refuses directions.length x ∧ p.Fits inv t) := by
  refine Run.Post.bind_sure Sweep.post_updateAll ?_
  rintro _ _ rfl
  have start : p.FitsAdjoint inv directions.length (s.cleared directions.length, w) :=
    ⟨⟨fit.cleared, hw⟩, Slots.adjointRoom_cleared⟩
  refine Run.Post.bind_sure (start.post_seeds fitting) ?_
  rintro _ t fits
  refine Run.Post.forM (fun _ => p.FitsAdjoint inv directions.length) fits ?_ fun _ fits => fits
  rintro i ⟨e, k⟩ ⟨s, w⟩ at_i ⟨⟨fit, hw⟩, room⟩
  obtain ⟨j, at_j⟩ :=
    List.mem_iff_getElem?.mp (List.mem_reverse.mp (List.mem_of_getElem? at_i))
  obtain ⟨at_k, rfl⟩ := getElem?_placed.mp at_j
  exact post_adjointStep_shaped promises at_k fit hw room

end Plan

end Cotangent
