import Cotangent.Proofs.ValueSweep

/-! The adjoint sweep. It clears the directions that it uses before it adds to them, and what it
adds comes from values, seeds and what it has added itself. So two sweeps with the same values and
the same seeds add the same, whatever other numbers the places hold, and they stop at the same
failure. -/
namespace Cotangent.Plan

variable {α σ : Type} {g : Graph α σ} {inputs outputs : List NodeId} {p : Plan α σ}
  {inv : σ → Prop} {count : Nat} {values : Nat → DenseMatrix α}

/-- What an adjoint sweep keeps: shapes, room for the directions, and the values. -/
structure Gathering (p : Plan α σ) (inv : σ → Prop) (count : Nat) (values : Nat → DenseMatrix α)
    (t : Slots α × σ) : Prop where
  fit : t.1.Fit p
  state : inv t.2
  room : t.1.AdjointRoom count
  value : ∀ k, t.1.value k = values k

/-- Two states of an adjoint sweep that agree on all it reads. -/
structure Twins (p : Plan α σ) (inv : σ → Prop) (count : Nat) (values : Nat → DenseMatrix α)
    (t t' : Slots α × σ) : Prop where
  left : p.Gathering inv count values t
  right : p.Gathering inv count values t'
  adjoint : ∀ d, d < count → ∀ k, t.1.adjoint d k = t'.1.adjoint d k

theorem Gathering.withAdjoint {t : Slots α × σ} (gathering : p.Gathering inv count values t)
    {k d : Nat} {e : Entry α σ} {m : DenseMatrix α} (at_k : p.entries[k]? = some e)
    (shape : m.shape = e.shape) : p.Gathering inv count values (t.1.withAdjoint d k m, t.2) where
  fit := gathering.fit.withAdjoint at_k shape
  state := gathering.state
  room := gathering.room.withAdjoint
  value j := by rw [Slots.value_withAdjoint, gathering.value]

theorem Layout.placed_input (layout : p.Layout g inputs outputs) {k : Nat} (bound : k ∈ p.inputs) :
    ∃ e, p.entries[k]? = some e := by
  rw [layout.inputs_eq, List.mem_range] at bound
  obtain ⟨e, at_k, -⟩ :=
    (layout.find?_iff _ k).mp (layout.front k _ (List.getElem?_eq_getElem bound))
  exact ⟨e, at_k⟩

theorem Layout.placed_output (layout : p.Layout g inputs outputs) {k : Nat}
    (bound : k ∈ p.outputs) : ∃ e, p.entries[k]? = some e := by
  obtain ⟨o, -, found⟩ := Outcome.exists_of_forall₂ layout.outputs_at.flip bound
  obtain ⟨e, at_k, -⟩ := (layout.find?_iff o k).mp found
  exact ⟨e, at_k⟩

theorem Layout.placed_operand (layout : p.Layout g inputs outputs) {j k : Nat} {e : Entry α σ}
    (at_k : p.entries[k]? = some e) (operand : j ∈ e.children) :
    j < k ∧ ∃ e', p.entries[j]? = some e' := by
  obtain ⟨n, known⟩ := layout.known at_k
  obtain ⟨-, -, operands⟩ := layout.operands at_k known
  obtain ⟨c, -, less, e', at_j, -⟩ := Outcome.exists_of_forall₂ operands.flip operand
  exact ⟨less, e', at_j⟩

/-- An oblivious operation does not see which of two twins it is called in. -/
theorem respects_call {γ : Type} {act : Slots α → Run σ γ}
    (reads : ∀ t t', p.Twins inv count values t t' → act t.1 = act t'.1)
    (oblivious : ∀ t, p.Gathering inv count values t → (act t.1).Oblivious inv) :
    (Sweep.call act).Respects (p.Twins inv count values) := by
  rintro ⟨s, w⟩ ⟨s', w'⟩ twins
  obtain ⟨same, kept, kept'⟩ := oblivious _ twins.left w w' ⟨twins.left.state, twins.right.state⟩
  have read := reads _ _ twins
  simp only [Sweep.call] at read ⊢
  rw [← read]
  exact ⟨same, { twins.left with state := kept }, { twins.right with state := kept' },
    twins.adjoint⟩

section Twins

variable [Scalar α]

/-- Twins stay twins when the same is added to them. -/
theorem respects_addAdjoint {k d : Nat} {e : Entry α σ} {m : DenseMatrix α} (few : d < count)
    (at_k : p.entries[k]? = some e) :
    Run.Respects (p.Twins inv count values) (Sweep.addAdjoint k d m) := by
  rintro ⟨s, w⟩ ⟨s', w'⟩ twins
  have same := twins.adjoint d few k
  have shape := twins.left.fit.shape_adjoint twins.left.room few at_k
  rw [Sweep.addAdjoint_eq twins.left.fit twins.left.room few at_k,
    Sweep.addAdjoint_eq twins.right.fit twins.right.room few at_k, ← same]
  cases added : (s.adjoint d k).accumulate m with
  | error x => exact ⟨rfl, twins⟩
  | ok y =>
    have fits := (Sweep.shape_accumulate added).2.trans shape
    refine ⟨rfl, twins.left.withAdjoint at_k fits, twins.right.withAdjoint at_k fits, ?_⟩
    intro d' few' j
    rw [Slots.adjoint_withAdjoint twins.left.room few (twins.left.fit.lt_size at_k),
      Slots.adjoint_withAdjoint twins.right.room few (twins.right.fit.lt_size at_k),
      twins.adjoint d' few' j]

theorem respects_spread (layout : p.Layout g inputs outputs) {k d : Nat} {e : Entry α σ}
    (few : d < count) (at_k : p.entries[k]? = some e) (op : String)
    (contributions : List (Option (DenseMatrix α))) :
    Run.Respects (p.Twins inv count values) (spread op e.children contributions d) := by
  unfold spread
  split
  · exact fun _ _ twins => ⟨rfl, twins⟩
  · refine .forM _ ?_
    rintro ⟨j, m⟩ member
    cases m with
    | none => exact .pure ()
    | some m =>
      obtain ⟨-, e', at_j⟩ := layout.placed_operand at_k (List.of_mem_zip member).1
      exact respects_addAdjoint few at_j

theorem respects_adjointStep (layout : p.Layout g inputs outputs)
    (oblivious : g.Oblivious outputs inv) {k : Nat} {e : Entry α σ}
    (at_k : p.entries[k]? = some e) :
    Run.Respects (p.Twins inv count values) (adjointStep count (e, k)) := by
  unfold adjointStep
  cases what : e.kind with
  | symbol | constant => exact .pure ()
  | apply op =>
    obtain ⟨n, known⟩ := layout.known at_k
    refine .bind (respects_call ?_ fun _ _ => ?_) fun found => ?_
    · intro t t' twins
      have values : t.1.value = t'.1.value :=
        funext fun j => (twins.left.value j).trans (twins.right.value j).symm
      have adjoints : (List.range count).map (fun d => t.1.adjoint d k) =
          (List.range count).map fun d => t'.1.adjoint d k :=
        List.map_congr_left fun d few => twins.adjoint d (List.mem_range.mp few) k
      simp only [values, adjoints]
    · exact (oblivious _ _ _ (layout.applied at_k known what)).adjointBatch _ _ _
    · split
      · exact fun _ _ twins => ⟨rfl, twins⟩
      · next length =>
        refine .forM _ ?_
        rintro ⟨contributions, d⟩ member
        have few : d < found.length := by simpa using List.snd_lt_of_mem_zipIdx member
        exact respects_spread layout (not_not.mp length ▸ few) at_k op.name contributions

theorem respects_seedAdjoint (layout : p.Layout g inputs outputs)
    (directions : List (List (DenseMatrix α))) :
    Run.Respects (p.Twins inv directions.length values)
      (directions.zipIdx.forM fun (direction, d) =>
        (p.outputs.zip direction).forM fun (k, seed) => Sweep.addAdjoint k d seed) := by
  refine .forM _ ?_
  rintro ⟨direction, d⟩ member
  refine .forM _ ?_
  rintro ⟨k, seed⟩ bound
  have few : d < directions.length := by simpa using List.snd_lt_of_mem_zipIdx member
  obtain ⟨e, at_k⟩ := layout.placed_output (List.of_mem_zip bound).1
  exact respects_addAdjoint few at_k

theorem twins_cleared {s s' : Slots α} {w w' : σ} (fit : s.Fit p) (fit' : s'.Fit p) (hw : inv w)
    (hw' : inv w') (value : ∀ k, s.value k = s'.value k) :
    p.Twins inv count s.value (s.cleared count, w) (s'.cleared count, w') where
  left := ⟨fit.cleared, hw, Slots.adjointRoom_cleared, Slots.value_cleared⟩
  right := ⟨fit'.cleared, hw', Slots.adjointRoom_cleared, by simp [value]⟩
  adjoint d few k := by
    by_cases inside : k < p.entries.size
    · have at_k := Array.getElem?_eq_getElem inside
      rw [Slots.adjoint_cleared fit few at_k, Slots.adjoint_cleared fit' few at_k]
    · have outside : s.size ≤ k := by rw [fit.size]; omega
      have outside' : s'.size ≤ k := by rw [fit'.size]; omega
      simp [Slots.adjoint, Slots.cleared, outside, outside']

theorem respects_adjointSweep (layout : p.Layout g inputs outputs)
    (oblivious : g.Oblivious outputs inv) (directions : List (List (DenseMatrix α))) :
    Run.Respects (p.Twins inv directions.length values) (do
      directions.zipIdx.forM fun (direction, d) =>
        (p.outputs.zip direction).forM fun (k, seed) => Sweep.addAdjoint k d seed
      p.placed.reverse.forM (adjointStep directions.length)) := by
  refine (respects_seedAdjoint layout directions).bind fun _ => .forM _ ?_
  rintro ⟨e, k⟩ member
  obtain ⟨i, at_i⟩ := List.mem_iff_getElem?.mp (List.mem_reverse.mp member)
  obtain ⟨at_k, rfl⟩ := getElem?_placed.mp at_i
  exact respects_adjointStep layout oblivious at_k

/-- Sweeps with the same values and seeds end alike and leave the same sensitivities. -/
theorem agree_adjointSweep (layout : p.Layout g inputs outputs)
    (oblivious : g.Oblivious outputs inv) {s s' : Slots α} {w w' : σ} (fit : s.Fit p)
    (fit' : s'.Fit p) (hw : inv w) (hw' : inv w') (value : ∀ k, s.value k = s'.value k)
    (directions : List (List (DenseMatrix α))) :
    Run.Agree (p.adjointSweep directions) (p.adjointSweep directions) (s, w) (s', w')
      (p.Twins inv directions.length s.value) := by
  have agreed := Run.Agree.of_respects (respects_adjointSweep layout oblivious directions)
    (twins_cleared fit fit' hw hw' value)
  exact agreed

/-- The adjoint sweep gathers sensitivities and leaves values alone. -/
theorem gathering_adjointSweep (layout : p.Layout g inputs outputs)
    (oblivious : g.Oblivious outputs inv) {s : Slots α} {w : σ} (fit : s.Fit p) (hw : inv w)
    (directions : List (List (DenseMatrix α))) :
    Run.Post (p.adjointSweep directions) (s, w)
      (fun _ => p.Gathering inv directions.length s.value)
      (fun _ => p.Gathering inv directions.length s.value) := by
  -- a sweep is its own twin
  have swept := Run.Post.of_respects (respects_adjointSweep layout oblivious directions)
    (twins_cleared fit fit hw hw fun _ => rfl)
  exact swept.imp (fun _ _ twins => twins.left) fun _ _ twins => twins.left

theorem post_adjointSweep (layout : p.Layout g inputs outputs) (oblivious : g.Oblivious outputs inv)
    {s : Slots α} {w w₀ : σ} {given : NodeId → Option (DenseMatrix α)} (fit : s.Fit p) (hw : inv w)
    (current : s.Current p w₀ given) (directions : List (List (DenseMatrix α))) :
    Run.Post (p.adjointSweep directions) (s, w)
      (fun _ t => t.1.Fit p ∧ inv t.2 ∧ t.1.Current p w₀ given)
      (fun _ t => t.1.Fit p ∧ inv t.2 ∧ t.1.Current p w₀ given) := by
  have keeps (t : Slots α × σ) (gathering : p.Gathering inv directions.length s.value t) :
      t.1.Fit p ∧ inv t.2 ∧ t.1.Current p w₀ given := by
    refine ⟨gathering.fit, gathering.state, ?_⟩
    intro k e at_k
    rw [gathering.value, current k e at_k]
  exact (gathering_adjointSweep layout oblivious fit hw directions).imp (fun _ => keeps) fun _ => keeps

end Twins

end Cotangent.Plan
