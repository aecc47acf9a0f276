import Cotangent.Proofs.ValueSweep

/-! The forward sweep. It writes a row of sensitivities, one for every direction, to every place.
The rows are again what a recursion over the graph gives, so a sweep depends on the values and the
seeds alone, whatever rows earlier sweeps with more or fewer directions left behind. -/
namespace Cotangent

variable {α σ : Type}

/-- The sensitivities at a place in the first directions. -/
def Slots.row (count : Nat) (s : Slots α) (k : Nat) : List (DenseMatrix α) :=
  (List.range count).map (s.forward · k)

/-- Only sensitivities at one place have changed. -/
structure Slots.Touched (p : Plan α σ) (count k : Nat) (s t : Slots α) : Prop where
  fit : t.Fit p
  room : t.ForwardRoom count
  value : ∀ j, t.value j = s.value j
  row : ∀ j, j ≠ k → t.row count j = s.row count j

/-- The sensitivities of a node in all directions from those of its operands. Here the operation is
asked for all directions at once. -/
def Graph.rowRule [Scalar α] (g : Graph α σ) (w : σ) (given : NodeId → Option (DenseMatrix α))
    (seeds : List (NodeId → Option (DenseMatrix α))) (id : NodeId) (n : Node α σ)
    (rows : List (List (DenseMatrix α))) : Except Error (List (DenseMatrix α)) :=
  match n.kind with
  | .symbol name => seeds.mapM fun seed => required seed name id
  | .constant _ => .ok (List.replicate seeds.length (.fill n.shape 0))
  | .apply op => do
    let xs ← n.children.mapM (g.value w given)
    let y ← g.value w given id
    let found ← (op.forwardBatch xs y
      ((List.range seeds.length).map fun d => rows.map fun row => row.getD d .empty) w).1
    if found.length ≠ seeds.length then
      .error (.internal
        (op.name ++ s!": forward returned {found.length} directions, expected {seeds.length}"))
    else do
      let _ ← found.mapM fun m => m.checkShape n.shape
      return found

namespace Plan

variable {g : Graph α σ} {inputs outputs : List NodeId} {p : Plan α σ} {inv : σ → Prop}
  {s : Slots α} {w w₀ : σ} {given : NodeId → Option (DenseMatrix α)} {count : Nat}
  {seeds : List (NodeId → Option (DenseMatrix α))}

/-- What a forward sweep needs and keeps: current values, room for the directions, and the seeds in
the places of the symbols. -/
structure Seeded (p : Plan α σ) (inv : σ → Prop) (w₀ : σ)
    (given : NodeId → Option (DenseMatrix α)) (seeds : List (NodeId → Option (DenseMatrix α)))
    (t : Slots α × σ) : Prop where
  fit : t.1.Fit p
  state : inv t.2
  current : t.1.Current p w₀ given
  room : t.1.ForwardRoom seeds.length
  seeds : ∀ (k : Nat) e, p.entries[k]? = some e → e.kind.isSymbol = true →
    List.Forall₂ (fun seed m => seed e.node = some m) seeds (t.1.row seeds.length k)

/-- A row written to the place of an entry that is no symbol. -/
theorem Seeded.touched {t t' : Slots α × σ} {k : Nat} {e : Entry α σ}
    (seeded : p.Seeded inv w₀ given seeds t) (at_k : p.entries[k]? = some e)
    (computed : e.kind.isSymbol = false) (touched : t.1.Touched p seeds.length k t'.1)
    (state : inv t'.2) : p.Seeded inv w₀ given seeds t' where
  fit := touched.fit
  state := state
  current j e' at_j := by rw [touched.value, seeded.current j e' at_j]
  room := touched.room
  seeds j e' at_j symbol := by
    rw [touched.row j (symbol_apart at_k computed at_j symbol)]
    exact seeded.seeds j e' at_j symbol

/-- A row written to a place, one direction after the other. -/
theorem post_writeRow {k : Nat} {e : Entry α σ} (fit : s.Fit p) (room : s.ForwardRoom count)
    (at_k : p.entries[k]? = some e) (row : List (DenseMatrix α)) (length : row.length = count) :
    Run.Post (row.zipIdx.forM fun (m, d) => Sweep.setForward k d m) (s, w)
      (fun _ t => (∃ us, row.mapM (fun m => m.checkShape e.shape) = .ok us) ∧
        s.Touched p count k t.1 ∧ t.2 = w ∧ t.1.row count k = row)
      (fun x t => row.mapM (fun m => m.checkShape e.shape) = .error x ∧
        s.Touched p count k t.1 ∧ t.2 = w) := by
  refine Run.Post.forM (fun i t => s.Touched p count k t.1 ∧ t.2 = w ∧
      ∀ d m, d < i → row[d]? = some m → m.shape = e.shape ∧ t.1.forward d k = m)
    ⟨⟨fit, room, fun _ => rfl, fun _ _ => rfl⟩, rfl, fun d m less => absurd less (by omega)⟩ ?_ ?_
  · rintro i ⟨m, d⟩ ⟨t, w'⟩ at_i ⟨touched, rfl, done⟩
    obtain ⟨at_i, rfl⟩ := getElem?_zipIdx_iff.mp at_i
    dsimp only at at_i
    have few : d < count := length ▸ (List.getElem?_eq_some_iff.mp at_i).1
    refine (Sweep.post_setForward touched.fit touched.room few at_k).imp ?_ ?_
    · rintro _ _ ⟨shape, rfl⟩
      have reads (d j : Nat) := Slots.forward_withForward (i := d) (j := j) (m := m) touched.room
        few (touched.fit.lt_size at_k)
      refine ⟨⟨touched.fit.withForward at_k shape, touched.room.withForward, ?_, ?_⟩, rfl, ?_⟩
      · intro j
        rw [Slots.value_withForward, touched.value]
      · intro j apart
        rw [← touched.row j apart]
        refine List.map_congr_left ?_
        intro d _
        rw [reads, if_neg fun h => apart h.1]
      · intro d m' less at_d
        rcases Nat.lt_succ_iff_lt_or_eq.mp less with earlier | rfl
        · rw [reads, if_neg fun h => Nat.ne_of_lt earlier h.2]
          exact done d m' earlier at_d
        · cases at_i.symm.trans at_d
          rw [reads, if_pos ⟨rfl, rfl⟩]
          exact ⟨shape, rfl⟩
    · rintro x _ ⟨refused, rfl⟩
      refine ⟨Outcome.mapM_error_at at_i refused fun d m' earlier at_d => ?_, touched, rfl⟩
      exact ⟨(), Sweep.checkShape_eq_ok.mpr (done d m' earlier at_d).1⟩
  · rintro t ⟨touched, state, done⟩
    rw [List.length_zipIdx] at done
    refine ⟨⟨row.map fun _ => (), ?_⟩, touched, state, ?_⟩
    · rw [Outcome.mapM_eq_ok, List.forall₂_map_right_iff, List.forall₂_same]
      intro m member
      obtain ⟨d, at_d⟩ := List.mem_iff_getElem?.mp member
      exact Sweep.checkShape_eq_ok.mpr (done d m (List.getElem?_eq_some_iff.mp at_d).1 at_d).1
    · refine List.ext_getElem (by simp [Slots.row, length]) ?_
      intro d few inside
      simp only [Slots.row, List.getElem_map, List.getElem_range]
      exact (done d _ inside (List.getElem?_eq_getElem inside)).2

/-- The row of a constant is cleared. -/
theorem post_clearRow [Scalar α] {k : Nat} {e : Entry α σ} (fit : s.Fit p)
    (room : s.ForwardRoom count) (at_k : p.entries[k]? = some e) :
    Run.Post (Sweep.update k fun c => .ok { c with forward := Sweep.clear count c.forward }) (s, w)
      (fun _ t => s.Touched p count k t.1 ∧ t.2 = w ∧
        t.1.row count k = List.replicate count (.fill e.shape 0))
      (fun _ _ => False) := by
  obtain ⟨c, held, fits⟩ := fit.cell_at at_k
  have reads (d j : Nat) (few : d < count) :
      Slots.forward (s.modify k fun c => { c with forward := Sweep.clear count c.forward }) d j =
        if j = k then .fill e.shape 0 else s.forward d j := by
    unfold Slots.forward
    rw [Array.getElem?_modify]
    by_cases same : j = k
    · subst same
      have enough := Nat.lt_of_lt_of_le few (room j c held)
      have shape := fits.forward _ (Array.getElem_mem enough)
      simp [held, Sweep.clear, enough, few, shape]
    · simp [same, Ne.symm same]
  simp only [Run.Post, Sweep.update, held]
  rw [setIfInBounds_eq_modify held fun c =>
    { c with forward := Sweep.clear count c.forward }]
  refine ⟨⟨fit.modify at_k ?_, ?_, ?_, ?_⟩, trivial, ?_⟩
  · intro c fits
    refine { fits with forward := fun m member => ?_ }
    obtain ⟨d, inside, rfl⟩ := Array.mem_mapIdx.mp member
    have old := fits.forward _ (Array.getElem_mem inside)
    split
    · exact old
    · exact old
  · exact Slots.room_modify (fun _ => Array.size_mapIdx) room
  · intro j
    unfold Slots.value
    rw [Array.getElem?_modify]
    split <;> cases s[j]? <;> rfl
  · intro j apart
    refine List.map_congr_left ?_
    intro d few
    rw [reads d j (List.mem_range.mp few), if_neg apart]
  · refine List.eq_replicate_iff.mpr ⟨by simp [Slots.row], ?_⟩
    intro m member
    obtain ⟨d, few, rfl⟩ := List.mem_map.mp member
    rw [reads d k (List.mem_range.mp few), if_pos rfl]

theorem Layout.current (layout : p.Layout g inputs outputs) (current : s.Current p w₀ given)
    {k : Nat} {e : Entry α σ} (at_k : p.entries[k]? = some e) :
    g.value w₀ given e.node = .ok (s.value k) := by
  rw [← layout.graph]
  exact current k e at_k

/-- The values that a step reads are those of the operands. -/
theorem Layout.current_operands (layout : p.Layout g inputs outputs) (sound : g.Sound)
    (current : s.Current p w₀ given) {k : Nat} {e : Entry α σ} {n : Node α σ}
    (at_k : p.entries[k]? = some e) (known : g.node? e.node = some n) :
    n.children.mapM (g.value w₀ given) = .ok (e.children.map s.value) :=
  (layout.recurse_eq sound at_k known fun _ _ _ at_j => layout.current current at_j).1

theorem map_getD_row (children : List Nat) (s : Slots α) {d : Nat} (few : d < count) :
    (children.map (s.row count)).map (fun row => row.getD d .empty) =
      children.map (s.forward d) := by
  simp [Slots.row, List.map_map, Function.comp_def, few]

/-- One step writes the row of a constant or an application and leaves the other rows alone. -/
theorem post_forwardStep [Scalar α] (layout : p.Layout g inputs outputs) (sound : g.Sound)
    (oblivious : g.Oblivious outputs inv) (hw₀ : inv w₀) (k : Nat) (e : Entry α σ) (n : Node α σ)
    (t : Slots α × σ) (at_k : p.entries[k]? = some e) (known : g.node? e.node = some n)
    (seeded : p.Seeded inv w₀ given seeds t) :
    Run.Post (forwardStep seeds.length (e, k)) t
      (fun _ t' => p.Seeded inv w₀ given seeds t' ∧
        g.rowRule w₀ given seeds e.node n (e.children.map (t.1.row seeds.length)) =
          .ok (t'.1.row seeds.length k) ∧
        ∀ j, j ≠ k → t'.1.row seeds.length j = t.1.row seeds.length j)
      (fun x t' => p.Seeded inv w₀ given seeds t' ∧
        g.rowRule w₀ given seeds e.node n (e.children.map (t.1.row seeds.length)) = .error x) := by
  obtain ⟨s, w⟩ := t
  obtain ⟨kind, shape, -⟩ := layout.operands at_k known
  unfold forwardStep Graph.rowRule
  rw [← kind, ← shape]
  cases what : e.kind with
  | symbol name =>
    have supplied := seeded.seeds k e at_k (by simp [what, NodeKind.isSymbol])
    refine ⟨seeded, Outcome.mapM_eq_ok.mpr ?_, fun _ _ => rfl⟩
    exact supplied.imp fun _ _ => Graph.required_eq_ok.mpr
  | constant m =>
    refine (post_clearRow seeded.fit seeded.room at_k).imp ?_ fun _ _ => False.elim
    rintro _ t ⟨touched, state, cleared⟩
    have computed : e.kind.isSymbol = false := by simp [what, NodeKind.isSymbol]
    refine ⟨seeded.touched at_k computed touched (state ▸ seeded.state), ?_, touched.row⟩
    rw [cleared]
  | apply op =>
    have computed : e.kind.isSymbol = false := by simp [what, NodeKind.isSymbol]
    have directions : ((List.range seeds.length).map fun d =>
        (e.children.map (s.row seeds.length)).map fun row => row.getD d .empty) =
        (List.range seeds.length).map fun d => e.children.map (s.forward d) :=
      List.map_congr_left fun d few => map_getD_row _ s (List.mem_range.mp few)
    have answers := (oblivious _ _ _ (layout.applied at_k known what)).forwardBatch
      (e.children.map s.value) (s.value k)
      ((List.range seeds.length).map fun d => e.children.map (s.forward d))
    simp only [layout.current_operands sound seeded.current at_k known,
      layout.current seeded.current at_k, directions, Outcome.ok_bind]
    refine Run.Post.bind ((Sweep.post_call answers seeded.state hw₀).imp (fun _ _ => id) ?_) ?_
    · rintro x ⟨s', w'⟩ ⟨failed, rfl, hw'⟩
      exact ⟨{ seeded with state := hw' }, by simp [failed]⟩
    · rintro found ⟨s', w'⟩ ⟨answered, rfl, hw'⟩
      simp only [answered, Outcome.ok_bind]
      by_cases count : found.length = seeds.length
      · rw [if_neg (not_not_intro count), if_neg (not_not_intro count)]
        refine (post_writeRow seeded.fit seeded.room at_k found count).imp ?_ ?_
        · rintro _ t ⟨⟨us, fits⟩, touched, rfl, written⟩
          refine ⟨seeded.touched at_k computed touched hw', ?_, touched.row⟩
          rw [fits, written]
          rfl
        · rintro x t ⟨refused, touched, rfl⟩
          refine ⟨seeded.touched at_k computed touched hw', ?_⟩
          rw [refused]
          rfl
      · rw [if_pos count, if_pos count]
        exact ⟨{ seeded with state := hw' }, rfl⟩

/-- The seeds of one direction written to the places of the inputs. -/
theorem post_seedDirection (layout : p.Layout g inputs outputs) (fit : s.Fit p)
    (room : s.ForwardRoom count) {d : Nat} (few : d < count) {direction : List (DenseMatrix α)}
    (fitting : p.Fitting p.inputs direction) :
    Run.Post ((p.inputs.zip direction).forM fun (k, seed) => Sweep.setForward k d seed) (s, w)
      (fun _ t => (t.1.Fit p ∧ t.2 = w ∧ t.1.ForwardRoom count) ∧ (∀ j, t.1.value j = s.value j) ∧
        (∀ k, k < inputs.length → direction[k]? = some (t.1.forward d k)) ∧
        ∀ d', d' ≠ d → ∀ j, t.1.forward d' j = s.forward d' j)
      (fun _ _ => False) := by
  refine Run.Post.forM (fun i t => (t.1.Fit p ∧ t.2 = w ∧ t.1.ForwardRoom count) ∧
      (∀ j, t.1.value j = s.value j) ∧ (∀ k, k < i → direction[k]? = some (t.1.forward d k)) ∧
      ∀ d', d' ≠ d → ∀ j, t.1.forward d' j = s.forward d' j)
    ⟨⟨fit, rfl, room⟩, fun _ => rfl, fun k less => absurd less (by omega), fun _ _ _ => rfl⟩ ?_ ?_
  · rintro i ⟨k, x⟩ ⟨t, w'⟩ at_i ⟨⟨fit, rfl, room⟩, values, done, others⟩
    obtain ⟨rfl, held, e, at_k, shape, -⟩ := layout.bound_at fitting at_i
    refine (Sweep.post_setForward fit room few at_k).imp ?_ ?_
    · rintro _ _ ⟨-, rfl⟩
      have reads (d' j : Nat) := Slots.forward_withForward (i := d') (j := j) (m := x) room few
        (fit.lt_size at_k)
      refine ⟨⟨fit.withForward at_k shape, rfl, room.withForward⟩, fun j => ?_, fun k less => ?_,
        fun d' apart j => ?_⟩
      · rw [Slots.value_withForward, values]
      · rw [reads]
        rcases Nat.lt_succ_iff_lt_or_eq.mp less with earlier | rfl
        · rw [if_neg fun h => Nat.ne_of_lt earlier h.1]
          exact done k earlier
        · rw [if_pos ⟨rfl, rfl⟩]
          exact held
      · rw [reads, if_neg fun h => apart h.2]
        exact others d' apart j
    · rintro x' t ⟨refused, -⟩
      exact Sweep.not_refused shape refused
  · rintro t ⟨kept, values, done, others⟩
    rw [layout.length_bound fitting] at done
    exact ⟨kept, values, done, others⟩

/-- The seeds of all directions written to the places of the inputs. -/
theorem post_seed (layout : p.Layout g inputs outputs) (fit : s.Fit p)
    {directions : List (List (DenseMatrix α))} (room : s.ForwardRoom directions.length)
    (fitting : ∀ direction ∈ directions, p.Fitting p.inputs direction) :
    Run.Post (directions.zipIdx.forM fun (direction, d) =>
        (p.inputs.zip direction).forM fun (k, seed) => Sweep.setForward k d seed) (s, w)
      (fun _ t => (t.1.Fit p ∧ t.2 = w ∧ t.1.ForwardRoom directions.length) ∧
        (∀ j, t.1.value j = s.value j) ∧
        ∀ d direction, directions[d]? = some direction →
          ∀ k, k < inputs.length → direction[k]? = some (t.1.forward d k))
      (fun _ _ => False) := by
  refine Run.Post.forM (fun i t => (t.1.Fit p ∧ t.2 = w ∧ t.1.ForwardRoom directions.length) ∧
      (∀ j, t.1.value j = s.value j) ∧ ∀ d direction, d < i → directions[d]? = some direction →
        ∀ k, k < inputs.length → direction[k]? = some (t.1.forward d k))
    ⟨⟨fit, rfl, room⟩, fun _ => rfl, fun d _ less => absurd less (by omega)⟩ ?_ ?_
  · rintro i ⟨direction, d⟩ ⟨t, w'⟩ at_i ⟨⟨fit, rfl, room⟩, values, done⟩
    obtain ⟨at_i, rfl⟩ := getElem?_zipIdx_iff.mp at_i
    have few := (List.getElem?_eq_some_iff.mp at_i).1
    refine (post_seedDirection layout fit room few
      (fitting direction (List.mem_of_getElem? at_i))).imp ?_ fun _ _ => id
    rintro _ t' ⟨kept, values', written, others⟩
    refine ⟨kept, fun j => (values' j).trans (values j), fun d direction' less at_d k front => ?_⟩
    rcases Nat.lt_succ_iff_lt_or_eq.mp less with earlier | rfl
    · rw [others d (Nat.ne_of_lt earlier)]
      exact done d direction' earlier at_d k front
    · cases at_i.symm.trans at_d
      exact written k front
  · rintro t ⟨kept, values, done⟩
    refine ⟨kept, values, fun d direction at_d => done d direction ?_ at_d⟩
    rw [List.length_zipIdx]
    exact (List.getElem?_eq_some_iff.mp at_d).1

/-- The forward sweep gives every place the row of its node, or fails as the first node of the plan
fails for which there is no row. Values stay as they are. -/
theorem post_forwardSweep [Scalar α] (layout : p.Layout g inputs outputs) (sound : g.Sound)
    (oblivious : g.Oblivious outputs inv) (hw₀ : inv w₀) (fit : s.Fit p) (hw : inv w)
    (current : s.Current p w₀ given) {directions : List (List (DenseMatrix α))}
    (fitting : ∀ direction ∈ directions, p.Fitting p.inputs direction) :
    Run.Post (p.forwardSweep directions) (s, w)
      (fun _ t => (t.1.Fit p ∧ inv t.2 ∧ t.1.Current p w₀ given) ∧
        ∀ (k : Nat) e, p.entries[k]? = some e →
          g.recurse (g.rowRule w₀ given (directions.map (Graph.supplied inputs))) e.node =
            .ok (t.1.row directions.length k))
      (fun x t => (t.1.Fit p ∧ inv t.2 ∧ t.1.Current p w₀ given) ∧
        p.entries.toList.mapM (fun e => g.recurse
          (g.rowRule w₀ given (directions.map (Graph.supplied inputs))) e.node) = .error x) := by
  have length : (directions.map (Graph.supplied inputs)).length = directions.length :=
    List.length_map _
  refine Run.Post.bind_sure Sweep.post_updateAll ?_
  rintro _ _ rfl
  refine Run.Post.bind_sure (post_seed layout fit.reserved Slots.forwardRoom_reserved fitting) ?_
  rintro _ t ⟨⟨fit, rfl, room⟩, values, seeds⟩
  have seeded : p.Seeded inv w₀ given (directions.map (Graph.supplied inputs)) t := by
    refine ⟨fit, hw, fun k e at_k => ?_, length ▸ room, fun k e at_k symbol => ?_⟩
    · rw [values, Slots.value_reserved, current k e at_k]
    · have front := (layout.symbol_iff k e at_k).mp symbol
      rw [List.forall₂_map_left_iff, length]
      refine List.forall₂_iff_get.mpr ⟨by simp [Slots.row], ?_⟩
      intro d few few'
      rw [layout.supplied_eq at_k symbol]
      simpa [Slots.row] using seeds d _ (List.getElem?_eq_getElem few) k front
  have walked := post_walk layout sound
    (fun k e n t => post_forwardStep layout sound oblivious hw₀ k e n t) seeded
  rw [length] at walked
  exact walked.imp
    (fun _ t reached => ⟨⟨reached.1.fit, reached.1.state, reached.1.current⟩, reached.2⟩)
    fun _ t stopped => ⟨⟨stopped.1.fit, stopped.1.state, stopped.1.current⟩, stopped.2⟩

end Plan

end Cotangent
