import Cotangent.Proofs.AdjointColumns
import Cotangent.Proofs.Sessions
import Cotangent.Proofs.SingleDirections

/-! Sweeps treat directions apart. A sweep with many directions and a sweep with one of them go through
a plan in step: at every place they have reached, the second has what the first has in that direction,
and every operation leaves both with the same state. So a call answers every direction as it would
answer it alone, whatever was done before. -/
namespace Cotangent

variable {α σ : Type}

theorem Sweep.follows_call {β γ : Type} {act : Slots α → Run σ β} {act' : Slots α → Run σ γ}
    (s s' : Slots α) {w w' : σ} {excuse : Error → Prop} {both : β → γ → σ → σ → Prop}
    (h : Run.Follows (act s) (act' s') w w' excuse both) :
    Run.Follows (Sweep.call act) (Sweep.call act') (s, w) (s', w') excuse
      fun x y t t' => (t.1 = s ∧ t'.1 = s') ∧ both x y t.2 t'.2 := by
  refine (Sweep.post_call_of h).imp ?_ ?_
  · rintro x t ⟨rfl, y, v, ran, holds⟩
    exact ⟨y, (s', v), by rw [Sweep.call, ran], ⟨rfl, rfl⟩, holds⟩
  · rintro e t ⟨-, failed⟩
    refine failed.imp_right fun refused => ?_
    rw [Sweep.call]
    exact refused

namespace Plan

variable {g : Graph α σ} {inputs outputs : List NodeId} {p : Plan α σ} {inv : σ → Prop}
  {refuses crowded : Entry α σ → Nat → Error → Prop} {count d k : Nat} {e : Entry α σ}
  {s : Slots α} {w : σ}

/-- Every operation of the plan keeps its promise and treats directions apart. -/
def Separates (p : Plan α σ) (inv : σ → Prop) (refuses crowded : Entry α σ → Nat → Error → Prop) :
    Prop :=
  ∀ (k : Nat) e op, p.entries[k]? = some e → e.kind = .apply op →
    ∃ shapes, p.Shaped e.children shapes ∧ op.Shaped inv shapes e.shape (refuses e) ∧
      op.Separates inv shapes e.shape (crowded e)

theorem Separates.promises (separates : p.Separates inv refuses crowded) :
    p.Promises inv refuses := by
  intro k e op at_k kind
  obtain ⟨shapes, operands, shaped, -⟩ := separates k e op at_k kind
  exact ⟨shapes, operands, shaped⟩

variable [Scalar α]

/-! ### Forward -/

/-- The second of two forward sweeps has one direction of the first, for the inputs in front and at
all places it has reached. -/
structure ForwardAlone (p : Plan α σ) (inv : σ → Prop) (count d front reach : Nat)
    (t t' : Slots α × σ) : Prop where
  left : p.FitsForward inv count t
  right : p.FitsForward inv 1 t'
  state : t.2 = t'.2
  value : t.1.value = t'.1.value
  forward : ∀ j, j < front ∨ j < reach → t.1.forward d j = t'.1.forward 0 j

omit [Scalar α] in
theorem getElem?_row (few : d < count) (s : Slots α) (j : Nat) :
    (s.row count j)[d]? = some (s.forward d j) := by
  simp [Slots.row, few]

omit [Scalar α] in
/-- A row written in both sweeps. -/
theorem ForwardAlone.touched {front : Nat} {t t' u u' : Slots α × σ}
    (alone : p.ForwardAlone inv count d front k t t') (few : d < count)
    (left : t.1.Touched p count k u.1) (right : t'.1.Touched p 1 k u'.1) (hw : inv u.2)
    (state : u.2 = u'.2) {m : DenseMatrix α} (here : (u.1.row count k)[d]? = some m)
    (here' : u'.1.row 1 k = [m]) : p.ForwardAlone inv count d front (k + 1) u u' where
  left := ⟨⟨left.fit, hw⟩, left.room⟩
  right := ⟨⟨right.fit, state ▸ hw⟩, right.room⟩
  state := state
  value := funext fun j => (left.value j).trans ((congrFun alone.value j).trans (right.value j).symm)
  forward j reached := by
    have read := getElem?_row few u.1 j
    have read' := getElem?_row Nat.one_pos u'.1 j
    by_cases same : j = k
    · subst same
      rw [here] at read
      rw [here'] at read'
      exact (Option.some.inj read).symm.trans (Option.some.inj read')
    · rw [left.row j same, getElem?_row few] at read
      rw [right.row j same, getElem?_row Nat.one_pos] at read'
      rw [← Option.some.inj read, ← Option.some.inj read']
      exact alone.forward j (reached.imp_right fun less => by omega)

omit [Scalar α] in
/-- An operation is asked for all directions and for one of them. -/
theorem ForwardAlone.follows_call (layout : p.Layout g inputs outputs)
    (separates : p.Separates inv refuses crowded) {front : Nat} (few : d < count)
    (at_k : p.entries[k]? = some e) {op : Operation α σ} (what : e.kind = .apply op)
    {t t' : Slots α × σ} (alone : p.ForwardAlone inv count d front k t t') :
    Run.Follows
      (Sweep.call fun s => op.forwardBatch (e.children.map s.value) (s.value k)
        ((List.range count).map fun d => e.children.map (s.forward d)))
      (Sweep.call fun s => op.forwardBatch (e.children.map s.value) (s.value k)
        ((List.range 1).map fun d => e.children.map (s.forward d))) t t' (p.Refuses crowded count)
      fun found single u u' => (u.1 = t.1 ∧ u'.1 = t'.1) ∧ (u.2 = u'.2 ∧ inv u.2) ∧
        (found.length = count ∧ ∀ m ∈ found, m.shape = e.shape) ∧
          ∃ m, found[d]? = some m ∧ single = [m] := by
  obtain ⟨s, w⟩ := t
  obtain ⟨s', w'⟩ := t'
  obtain rfl : w = w' := alone.state
  obtain ⟨⟨fit, hw⟩, room⟩ := alone.left
  dsimp only at fit hw room
  obtain ⟨shapes, operands, shaped, separate⟩ := separates k e op at_k what
  have reads := operands.map fun j e' at_j => fit.shape_value at_j
  have seeding : ∀ direction ∈ (List.range count).map fun d => e.children.map (s.forward d),
      direction.map (·.shape) = shapes := by
    intro direction along
    obtain ⟨d, few, rfl⟩ := List.mem_map.mp along
    exact operands.map fun j e' at_j => fit.shape_forward room (List.mem_range.mp few) at_j
  have one : (List.range 1).map (fun d => e.children.map (s'.forward d)) =
      [e.children.map (s.forward d)] := by
    refine congrArg (fun row => [row]) (List.map_congr_left fun j operand => ?_)
    exact (alone.forward j (.inr (layout.placed_operand at_k operand).1)).symm
  have read : s'.value = s.value := alone.value.symm
  have asked := (separate.forward _ (s.value k) _ w reads (fit.shape_value at_k) seeding hw d
    (e.children.map (s.forward d)) (by simp [few])).and_post
      (shaped.forwardBatch _ (s.value k) _ w reads (fit.shape_value at_k) seeding hw) .any
  rw [List.length_map, List.length_range] at asked
  refine ((Sweep.follows_call s s' (by simp only [one, read]; exact asked)).excused
    fun x crowd => ⟨k, e, at_k, crowd⟩).imp ?_
  rintro found _ u u' ⟨same, ⟨state, chosen⟩, ⟨fits, kept⟩, -⟩
  exact ⟨same, ⟨state, kept⟩, fits, chosen⟩

theorem follows_forwardStep (layout : p.Layout g inputs outputs)
    (separates : p.Separates inv refuses crowded) (few : d < count) (at_k : p.entries[k]? = some e)
    {t t' : Slots α × σ} (alone : p.ForwardAlone inv count d inputs.length k t t') :
    Run.Follows (forwardStep count (e, k)) (forwardStep 1 (e, k)) t t' (p.Refuses crowded count)
      fun _ _ => p.ForwardAlone inv count d inputs.length (k + 1) := by
  obtain ⟨⟨fit, hw⟩, room⟩ := alone.left
  obtain ⟨⟨fit', -⟩, room'⟩ := alone.right
  unfold forwardStep
  cases what : e.kind with
  | symbol name =>
    have front : k < inputs.length :=
      (layout.symbol_iff k e at_k).mp (by simp [what, NodeKind.isSymbol])
    refine ⟨(), t', rfl, { alone with forward := fun j reached => alone.forward j ?_ }⟩
    rcases reached with before | within
    · exact .inl before
    · rcases Nat.lt_succ_iff_lt_or_eq.mp within with earlier | rfl
      · exact .inr earlier
      · exact .inl front
  | constant m =>
    refine (Run.Follows.of_sure (post_clearRow fit room at_k) (post_clearRow fit' room' at_k)).imp ?_
    rintro _ _ u u' ⟨⟨touched, left, row⟩, touched', right, row'⟩
    refine alone.touched few touched touched' (left ▸ hw)
      (left.trans (alone.state.trans right.symm)) ?_ row'
    simp [row, few]
  | apply op =>
    refine Run.Follows.bind (alone.follows_call layout separates few at_k what) ?_
    rintro found _ ⟨s, v⟩ ⟨s', _⟩ ⟨⟨rfl, rfl⟩, ⟨rfl, hv⟩, ⟨length, shapes⟩, m, at_d, rfl⟩
    dsimp only at hv
    have shape : ∀ m' ∈ [m], m'.shape = e.shape := by
      simpa using shapes m (List.mem_of_getElem? at_d)
    have single : [m].length = 1 := rfl
    rw [if_neg (not_not_intro length), if_neg (not_not_intro single)]
    refine (Run.Follows.of_sure (post_writeRow_shaped fit room at_k length shapes)
      (post_writeRow_shaped fit' room' at_k single shape)).imp ?_
    rintro _ _ u u' ⟨⟨touched, left, written⟩, touched', right, written'⟩
    exact alone.touched few touched touched' (left ▸ hv) (left.trans right.symm) (written ▸ at_d)
      written'

/-- A forward sweep has in every direction what a sweep with it alone has. -/
theorem follows_forwardSweep (layout : p.Layout g inputs outputs)
    (separates : p.Separates inv refuses crowded) (fit : s.Fit p) (hw : inv w)
    {directions : List (List (DenseMatrix α))}
    (fitting : ∀ direction ∈ directions, p.Fitting p.inputs direction)
    {direction : List (DenseMatrix α)} (at_d : directions[d]? = some direction) :
    Run.Follows (p.forwardSweep directions) (p.forwardSweep [direction]) (s, w) (s, w)
      (p.Refuses crowded directions.length) fun _ _ =>
        p.ForwardAlone inv directions.length d inputs.length p.entries.size := by
  have few := (List.getElem?_eq_some_iff.mp at_d).1
  have single : ∀ other ∈ [direction], p.Fitting p.inputs other := by
    simpa using fitting direction (List.mem_of_getElem? at_d)
  refine Run.Follows.bind (.of_sure Sweep.post_updateAll Sweep.post_updateAll) ?_
  rintro _ _ _ _ ⟨rfl, rfl⟩
  refine Run.Follows.bind (.of_sure
    (post_seed layout fit.reserved Slots.forwardRoom_reserved fitting)
    (post_seed layout fit.reserved Slots.forwardRoom_reserved single)) ?_
  rintro _ _ ⟨t, _⟩ ⟨t', v⟩ ⟨⟨⟨fit₁, rfl, room⟩, values, seeded⟩, ⟨fit', rfl, room'⟩, values', seeded'⟩
  have start : p.ForwardAlone inv directions.length d inputs.length 0 (t, v) (t', v) := by
    refine ⟨⟨⟨fit₁, hw⟩, room⟩, ⟨⟨fit', hw⟩, room'⟩, rfl, funext fun j => ?_, fun j reached => ?_⟩
    · rw [values j, values' j, Slots.value_reserved, Slots.value_reserved]
    · have front := reached.resolve_right (Nat.not_lt_zero j)
      have here := seeded d direction at_d j front
      exact Option.some.inj (here.symm.trans (seeded' 0 direction rfl j front))
  refine (Run.Follows.forM (fun i => p.ForwardAlone inv directions.length d inputs.length i) start
    ?_).imp fun _ _ _ _ alone => ?_
  · rintro i ⟨e, k⟩ t t' at_i alone
    obtain ⟨at_k, rfl⟩ := getElem?_placed.mp at_i
    exact follows_forwardStep layout separates few at_k alone
  · simpa [placed] using alone

/-- A forward sweep without directions has nothing to fail for. -/
theorem post_forwardSweep_none (separates : p.Separates inv refuses crowded) (fit : s.Fit p)
    (hw : inv w) :
    Run.Post (p.forwardSweep []) (s, w) (fun _ => p.Fits inv) (fun _ _ => False) := by
  refine Run.Post.bind_sure Sweep.post_updateAll ?_
  rintro _ _ rfl
  refine Run.Post.forM (fun _ => p.FitsForward inv 0)
    ⟨⟨fit.reserved, hw⟩, Slots.forwardRoom_reserved⟩ ?_ fun _ fits => fits.1
  rintro i ⟨e, k⟩ ⟨s, w⟩ at_i ⟨⟨fit, hw⟩, room⟩
  obtain ⟨at_k, rfl⟩ := getElem?_placed.mp at_i
  unfold forwardStep
  cases what : e.kind with
  | symbol => exact ⟨⟨fit, hw⟩, room⟩
  | constant m =>
    refine (post_clearRow fit room at_k).imp ?_ fun _ _ => id
    rintro _ ⟨s, w⟩ ⟨touched, rfl, -⟩
    exact ⟨⟨touched.fit, hw⟩, touched.room⟩
  | apply op =>
    obtain ⟨shapes, operands, -, separate⟩ := separates _ e op at_k what
    have nothing := separate.forwardNone (e.children.map s.value) (s.value k) w
      (operands.map fun j e' at_j => fit.shape_value at_j)
    have asked : Run.Post (op.forwardBatch (e.children.map s.value) (s.value k)
        ((List.range 0).map fun d => e.children.map (s.forward d))) w
        (fun found v => found = [] ∧ v = w) fun _ _ => False := by
      unfold Run.Post
      rw [List.range_zero, List.map_nil, nothing]
      exact ⟨rfl, rfl⟩
    refine Run.Post.bind_sure ((Sweep.post_call_of asked).imp (fun _ _ => id) fun _ _ => And.right) ?_
    rintro _ ⟨_, _⟩ ⟨rfl, rfl, rfl⟩
    exact ⟨⟨fit, hw⟩, room⟩

/-! ### Adjoint -/

/-- The second of two adjoint sweeps has one direction of the first. -/
structure AdjointAlone (p : Plan α σ) (inv : σ → Prop) (count d : Nat) (t t' : Slots α × σ) :
    Prop where
  left : p.FitsAdjoint inv count t
  right : p.FitsAdjoint inv 1 t'
  state : t.2 = t'.2
  value : t.1.value = t'.1.value
  adjoint : t.1.adjoint d = t'.1.adjoint 0

omit [Scalar α] in
theorem FitsAdjoint.gathering {t : Slots α × σ} (fits : p.FitsAdjoint inv count t) :
    p.Gathering inv count t.1.value t := ⟨fits.1.1, fits.1.2, fits.2, fun _ => rfl⟩

/-- The same contributions to both sweeps. -/
theorem AdjointAlone.collects {t t' : Slots α × σ} (alone : p.AdjointAlone inv count d t t')
    {act act' : Sweep α σ Unit} {parts : List (Nat × Option (DenseMatrix α))} {excuse : Error → Prop}
    (keeps : Run.Post act t (fun _ => p.FitsAdjoint inv count) fun _ _ => False)
    (keeps' : Run.Post act' t' (fun _ => p.FitsAdjoint inv 1) fun _ _ => False)
    (adds : Run.Post act t (fun _ u => (p.Gathering inv count t.1.value u ∧ u.2 = t.2) ∧
      collect (t.1.adjoint d) parts = .ok (u.1.adjoint d)) fun _ _ => True)
    (adds' : Run.Post act' t' (fun _ u => (p.Gathering inv 1 t'.1.value u ∧ u.2 = t'.2) ∧
      collect (t'.1.adjoint 0) parts = .ok (u.1.adjoint 0)) fun _ _ => True) :
    Run.Follows act act' t t' excuse fun _ _ => p.AdjointAlone inv count d := by
  refine (Run.Follows.of_sure ((keeps.and adds).imp (fun _ _ => id) fun _ _ => And.left)
    ((keeps'.and adds').imp (fun _ _ => id) fun _ _ => And.left)).imp ?_
  rintro _ _ u u' ⟨⟨fits, ⟨gathering, same⟩, added⟩, fits', ⟨gathering', same'⟩, added'⟩
  refine ⟨fits, fits', ?_, funext fun j => ?_, ?_⟩
  · rw [same, same', alone.state]
  · rw [gathering.value, gathering'.value, alone.value]
  · rw [alone.adjoint] at added
    exact Except.ok.inj (added.symm.trans added')

omit [Scalar α] in
/-- An operation is asked for all directions and for one of them. -/
theorem AdjointAlone.follows_call (separates : p.Separates inv refuses crowded) (few : d < count)
    (at_k : p.entries[k]? = some e) {op : Operation α σ} (what : e.kind = .apply op)
    {t t' : Slots α × σ} (alone : p.AdjointAlone inv count d t t') :
    Run.Follows
      (Sweep.call fun s => op.adjointBatch (e.children.map s.value) (s.value k)
        ((List.range count).map fun d => s.adjoint d k))
      (Sweep.call fun s => op.adjointBatch (e.children.map s.value) (s.value k)
        ((List.range 1).map fun d => s.adjoint d k)) t t' (p.Refuses crowded count)
      fun found single u u' => (u.1 = t.1 ∧ u'.1 = t'.1) ∧ (u.2 = u'.2 ∧ inv u.2) ∧
        (∃ shapes, p.Shaped e.children shapes ∧ found.length = count ∧
          ∀ cs ∈ found, Contributes cs shapes) ∧
          ∃ cs, found[d]? = some cs ∧ single = [cs] := by
  obtain ⟨s, w⟩ := t
  obtain ⟨s', w'⟩ := t'
  obtain rfl : w = w' := alone.state
  obtain ⟨⟨fit, hw⟩, room⟩ := alone.left
  dsimp only at fit hw room
  obtain ⟨shapes, operands, shaped, separate⟩ := separates k e op at_k what
  have reads := operands.map fun j e' at_j => fit.shape_value at_j
  have seeding : ∀ seed ∈ (List.range count).map fun d => s.adjoint d k, seed.shape = e.shape := by
    intro seed along
    obtain ⟨d, few, rfl⟩ := List.mem_map.mp along
    exact fit.shape_adjoint room (List.mem_range.mp few) at_k
  have one : (List.range 1).map (fun d => s'.adjoint d k) = [s.adjoint d k] :=
    congrArg (fun m => [m]) (congrFun alone.adjoint k).symm
  have read : s'.value = s.value := alone.value.symm
  have asked := (separate.adjoint _ (s.value k) _ w reads (fit.shape_value at_k) seeding hw d
    (s.adjoint d k) (by simp [few])).and_post
      (shaped.adjointBatch _ (s.value k) _ w reads (fit.shape_value at_k) seeding hw) .any
  rw [List.length_map, List.length_range] at asked
  refine ((Sweep.follows_call s s' (by simp only [one, read]; exact asked)).excused
    fun x crowd => ⟨k, e, at_k, crowd⟩).imp ?_
  rintro found _ u u' ⟨same, ⟨state, chosen⟩, ⟨fits, kept⟩, -⟩
  exact ⟨same, ⟨state, kept⟩, ⟨shapes, operands, fits⟩, chosen⟩

theorem follows_adjointStep (layout : p.Layout g inputs outputs)
    (separates : p.Separates inv refuses crowded) (few : d < count) (at_k : p.entries[k]? = some e)
    {t t' : Slots α × σ} (alone : p.AdjointAlone inv count d t t') :
    Run.Follows (adjointStep count (e, k)) (adjointStep 1 (e, k)) t t' (p.Refuses crowded count)
      fun _ _ => p.AdjointAlone inv count d := by
  unfold adjointStep
  cases what : e.kind with
  | symbol | constant => exact ⟨(), t', rfl, alone⟩
  | apply op =>
    refine Run.Follows.bind (alone.follows_call separates few at_k what) ?_
    rintro found _ ⟨s, v⟩ ⟨s', _⟩ ⟨⟨rfl, rfl⟩, ⟨rfl, hv⟩, ⟨shapes, operands, length, contribute⟩, cs,
      at_d, rfl⟩
    dsimp only at hv
    have left : p.FitsAdjoint inv count (t.1, v) := ⟨⟨alone.left.1.1, hv⟩, alone.left.2⟩
    have right : p.FitsAdjoint inv 1 (t'.1, v) := ⟨⟨alone.right.1.1, hv⟩, alone.right.2⟩
    have contributes : ∀ cs' ∈ [cs], Contributes cs' shapes := by
      simpa using contribute cs (List.mem_of_getElem? at_d)
    have single : [cs].length = 1 := rfl
    rw [if_neg (not_not_intro length), if_neg (not_not_intro single)]
    have start : p.AdjointAlone inv count d (t.1, v) (t'.1, v) :=
      { alone with left := left, right := right, state := rfl }
    refine start.collects (left.post_spreads length operands contribute op.name)
      (right.post_spreads single operands contributes op.name)
      ((Collects.directions e.children.zip (fun cs d at_d => ?_) left.gathering).imp
        (fun _ _ h => ⟨h.1, h.2 d cs at_d⟩) fun _ _ => id)
      ((Collects.directions e.children.zip (fun cs d at_d => ?_) right.gathering).imp
        (fun _ _ h => ⟨h.1, h.2 0 cs rfl⟩) fun _ _ => id)
    · exact .spread layout (length ▸ (List.getElem?_eq_some_iff.mp at_d).1) at_k op.name cs
    · exact .spread layout (single ▸ (List.getElem?_eq_some_iff.mp at_d).1) at_k op.name cs

/-- An adjoint sweep has in every direction what a sweep with it alone has. -/
theorem follows_adjointSweep (layout : p.Layout g inputs outputs)
    (separates : p.Separates inv refuses crowded) (fit : s.Fit p) (hw : inv w)
    {directions : List (List (DenseMatrix α))}
    (fitting : ∀ direction ∈ directions, p.Fitting p.outputs direction)
    {direction : List (DenseMatrix α)} (at_d : directions[d]? = some direction) :
    Run.Follows (p.adjointSweep directions) (p.adjointSweep [direction]) (s, w) (s, w)
      (p.Refuses crowded directions.length) fun _ _ =>
        p.AdjointAlone inv directions.length d := by
  have few := (List.getElem?_eq_some_iff.mp at_d).1
  have single : ∀ other ∈ [direction], p.Fitting p.outputs other := by
    simpa using fitting direction (List.mem_of_getElem? at_d)
  refine Run.Follows.bind (.of_sure Sweep.post_updateAll Sweep.post_updateAll) ?_
  rintro _ _ _ _ ⟨rfl, rfl⟩
  have left : p.FitsAdjoint inv directions.length (s.cleared directions.length, w) :=
    ⟨⟨fit.cleared, hw⟩, Slots.adjointRoom_cleared⟩
  have right : p.FitsAdjoint inv 1 (s.cleared 1, w) :=
    ⟨⟨fit.cleared, hw⟩, Slots.adjointRoom_cleared⟩
  have start : p.AdjointAlone inv directions.length d (s.cleared directions.length, w)
      (s.cleared 1, w) := by
    refine ⟨left, right, rfl, funext fun j => ?_, ?_⟩
    · rw [Slots.value_cleared, Slots.value_cleared]
    · rw [adjoint_cleared_eq fit few, adjoint_cleared_eq fit Nat.one_pos]
  refine Run.Follows.bind (start.collects (left.post_seeds fitting) (right.post_seeds single)
    ((Collects.seeds layout left.gathering).imp (fun _ _ h => ⟨h.1, h.2 d direction at_d⟩)
      fun _ _ => id)
    ((Collects.seeds layout right.gathering).imp (fun _ _ h => ⟨h.1, h.2 0 direction rfl⟩)
      fun _ _ => id)) ?_
  intro _ _ t t' alone
  refine Run.Follows.forM (fun _ => p.AdjointAlone inv directions.length d) alone ?_
  rintro i ⟨e, k⟩ t t' at_i alone
  obtain ⟨j, at_j⟩ :=
    List.mem_iff_getElem?.mp (List.mem_reverse.mp (List.mem_of_getElem? at_i))
  obtain ⟨at_k, rfl⟩ := getElem?_placed.mp at_j
  exact follows_adjointStep layout separates few at_k alone

/-- An adjoint sweep without directions has nothing to fail for. -/
theorem post_adjointSweep_none (separates : p.Separates inv refuses crowded) (fit : s.Fit p)
    (hw : inv w) :
    Run.Post (p.adjointSweep []) (s, w) (fun _ => p.Fits inv) (fun _ _ => False) := by
  refine Run.Post.bind_sure Sweep.post_updateAll ?_
  rintro _ _ rfl
  refine Run.Post.forM (fun _ => p.Fits inv) ⟨fit.cleared, hw⟩ ?_ fun _ fits => fits
  rintro i ⟨e, k⟩ ⟨s, w⟩ at_i ⟨fit, hw⟩
  obtain ⟨j, at_j⟩ :=
    List.mem_iff_getElem?.mp (List.mem_reverse.mp (List.mem_of_getElem? at_i))
  obtain ⟨at_k, rfl⟩ := getElem?_placed.mp at_j
  unfold adjointStep
  cases what : e.kind with
  | symbol | constant => exact ⟨fit, hw⟩
  | apply op =>
    obtain ⟨shapes, operands, -, separate⟩ := separates _ e op at_k what
    have nothing := separate.adjointNone (e.children.map s.value) (s.value k) w
      (operands.map fun j e' at_j => fit.shape_value at_j)
    have asked : Run.Post (op.adjointBatch (e.children.map s.value) (s.value k)
        ((List.range 0).map fun d => s.adjoint d k)) w
        (fun found v => found = [] ∧ v = w) fun _ _ => False := by
      unfold Run.Post
      rw [List.range_zero, List.map_nil, nothing]
      exact ⟨rfl, rfl⟩
    refine Run.Post.bind_sure ((Sweep.post_call_of asked).imp (fun _ _ => id) fun _ _ => And.right) ?_
    rintro _ ⟨_, _⟩ ⟨rfl, rfl, rfl⟩
    exact ⟨fit, hw⟩

end Plan

end Cotangent
