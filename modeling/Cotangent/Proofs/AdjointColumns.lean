import Cotangent.Proofs.Calls
import Cotangent.Proofs.Directions

/-! One direction of an adjoint sweep. A sweep adds contributions to all directions at once, but each
direction is changed by what is contributed to it alone. What a sweep leaves in the places for one
direction, its column, is therefore a fold over the plan from the back that knows no other direction. -/
namespace Cotangent

variable {α σ : Type}

/-! ### Contributions to places -/

section Collect

variable [Scalar α]

/-- A contribution added to the matrix of the place that it is for. -/
def absorb (z : Nat → DenseMatrix α) :
    Nat × Option (DenseMatrix α) → Except Error (Nat → DenseMatrix α)
  | (k, some m) => ((z k).accumulate m).map (Function.update z k)
  | (_, none) => .ok z

/-- Contributions added one after the other. -/
def collect (z : Nat → DenseMatrix α) (parts : List (Nat × Option (DenseMatrix α))) :
    Except Error (Nat → DenseMatrix α) :=
  parts.foldlM absorb z

variable {P : Nat → Prop} {z z' y y' : Nat → DenseMatrix α}
  {parts parts' : List (Nat × Option (DenseMatrix α))} {part part' : Nat × Option (DenseMatrix α)}

/-- Two contributions to one place, which are the same if it is one of these places. -/
def Alike (P : Nat → Prop) (part part' : Nat × Option (DenseMatrix α)) : Prop :=
  part.1 = part'.1 ∧ (P part.1 → part.2 = part'.2)

/-- Nothing changes at places that a contribution is not for. -/
theorem absorb_apart (apart : ¬ P part.1) (added : absorb z part = .ok y) :
    ∀ k, P k → y k = z k := by
  obtain ⟨j, m⟩ := part
  cases m with
  | none =>
    cases added
    exact fun _ _ => rfl
  | some m =>
    obtain ⟨x, -, rfl⟩ := Outcome.map_eq_ok.mp added
    intro k here
    refine Function.update_of_ne ?_ _ _
    rintro rfl
    exact apart here

theorem absorb_agree (alike : Alike P part part') (agree : ∀ k, P k → z k = z' k)
    (added : absorb z part = .ok y) (added' : absorb z' part' = .ok y') :
    ∀ k, P k → y k = y' k := by
  obtain ⟨j, m⟩ := part
  obtain ⟨j', m'⟩ := part'
  obtain ⟨rfl, same⟩ := alike
  dsimp only at same
  by_cases here : P j
  · obtain rfl := same here
    cases m with
    | none =>
      cases added
      cases added'
      exact agree
    | some m =>
      obtain ⟨x, sum, rfl⟩ := Outcome.map_eq_ok.mp added
      obtain ⟨x', sum', rfl⟩ := Outcome.map_eq_ok.mp added'
      rw [agree j here, sum'] at sum
      cases sum
      intro k there
      by_cases at_j : k = j
      · subst at_j
        simp
      · simpa [at_j] using agree k there
  · intro k there
    rw [absorb_apart here added k there, absorb_apart here added' k there]
    exact agree k there

theorem collect_apart (apart : ∀ part ∈ parts, ¬ P part.1) (added : collect z parts = .ok y) :
    ∀ k, P k → y k = z k := by
  refine Outcome.foldlM_keeps (P := fun y => ∀ k, P k → y k = z k) ?_ (fun _ _ => rfl) added
  intro u part v member kept turn k here
  rw [absorb_apart (apart part member) turn k here, kept k here]

/-- What some places collect does not depend on what is contributed elsewhere. -/
theorem collect_agree (alike : List.Forall₂ (Alike P) parts parts')
    (agree : ∀ k, P k → z k = z' k) (added : collect z parts = .ok y)
    (added' : collect z' parts' = .ok y') : ∀ k, P k → y k = y' k := by
  induction alike generalizing z z' with
  | nil =>
    cases added
    cases added'
    exact agree
  | cons same _ ih =>
    obtain ⟨u, first, rest⟩ := Outcome.bind_eq_ok.mp added
    obtain ⟨u', first', rest'⟩ := Outcome.bind_eq_ok.mp added'
    exact ih (absorb_agree same agree first first') rest rest'

end Collect

namespace Plan

variable [Scalar α] {g : Graph α σ} {inputs outputs : List NodeId} {p : Plan α σ} {inv : σ → Prop}
  {w₀ : σ} {count d k : Nat} {values : Nat → DenseMatrix α} {e : Entry α σ}

/-- A computation of an adjoint sweep that adds contributions to one direction, if it succeeds. -/
def Collects (p : Plan α σ) (inv : σ → Prop) (count : Nat) (values : Nat → DenseMatrix α) (d : Nat)
    (parts : List (Nat × Option (DenseMatrix α))) (act : Sweep α σ Unit) : Prop :=
  ∀ t, p.Gathering inv count values t → Run.Post act t
    (fun _ t' => (p.Gathering inv count values t' ∧ t'.2 = t.2) ∧
      collect (t.1.adjoint d) parts = .ok (t'.1.adjoint d) ∧
      ∀ d', d' ≠ d → t'.1.adjoint d' = t.1.adjoint d')
    fun _ _ => True

namespace Collects

theorem nothing (j : Nat) : p.Collects inv count values d [(j, none)] (pure ()) :=
  fun _ gathering => ⟨⟨gathering, rfl⟩, rfl, fun _ _ => rfl⟩

theorem add {m : DenseMatrix α} (few : d < count) (at_k : p.entries[k]? = some e) :
    p.Collects inv count values d [(k, some m)] (Sweep.addAdjoint k d m) := by
  rintro ⟨s, w⟩ gathering
  unfold Run.Post
  rw [Sweep.addAdjoint_eq gathering.fit gathering.room few at_k]
  cases added : (s.adjoint d k).accumulate m with
  | error x => exact trivial
  | ok y =>
    have shape := gathering.fit.shape_adjoint gathering.room few at_k
    have reads (i j : Nat) := Slots.adjoint_withAdjoint (i := i) (j := j) (m := y) gathering.room few
      (gathering.fit.lt_size at_k)
    refine ⟨⟨gathering.withAdjoint at_k ((Sweep.shape_accumulate added).2.trans shape), rfl⟩, ?_, ?_⟩
    · simp only [collect, List.foldlM_cons, List.foldlM_nil, absorb, added, Except.map,
        Outcome.ok_bind]
      refine congrArg Except.ok (funext fun j => ?_)
      rw [reads, Function.update_apply]
      simp
    · intro d' apart
      funext j
      rw [reads, if_neg fun h => apart h.2]

theorem forM {β : Type} {f : β → Sweep α σ Unit} {part : β → Nat × Option (DenseMatrix α)}
    {xs : List β} {parts : List (Nat × Option (DenseMatrix α))} (listed : xs.map part = parts)
    (each : ∀ x ∈ xs, p.Collects inv count values d [part x] (f x)) :
    p.Collects inv count values d parts (xs.forM f) := by
  subst listed
  induction xs with
  | nil => exact fun _ gathering => ⟨⟨gathering, rfl⟩, rfl, fun _ _ => rfl⟩
  | cons x xs ih =>
    intro t gathering
    obtain ⟨first, later⟩ := List.forall_mem_cons.mp each
    refine Run.Post.bind (first t gathering) ?_
    rintro _ t' ⟨⟨gathering', same⟩, added, others⟩
    refine (ih later t' gathering').imp ?_ fun _ _ => id
    rintro _ t'' ⟨⟨gathering'', same'⟩, added', others'⟩
    refine ⟨⟨gathering'', same'.trans same⟩, ?_, fun d' apart => ?_⟩
    · rw [List.map_cons, ← List.singleton_append, collect, List.foldlM_append]
      exact Outcome.bind_eq_ok.mpr ⟨_, added, added'⟩
    · rw [others' d' apart, others d' apart]

/-- What an application spreads over its operands. -/
theorem spread (layout : p.Layout g inputs outputs) (few : d < count)
    (at_k : p.entries[k]? = some e) (op : String)
    (contributions : List (Option (DenseMatrix α))) :
    p.Collects inv count values d (e.children.zip contributions)
      (spread op e.children contributions d) := by
  unfold Plan.spread
  split
  · exact fun _ _ => trivial
  · refine .forM (List.map_id _) ?_
    rintro ⟨j, m⟩ member
    cases m with
    | none => exact .nothing j
    | some m =>
      obtain ⟨-, e', at_j⟩ := layout.placed_operand at_k (List.of_mem_zip member).1
      exact .add few at_j

/-- What the seeds of one direction put on the outputs. -/
theorem seed (layout : p.Layout g inputs outputs) (few : d < count)
    (direction : List (DenseMatrix α)) :
    p.Collects inv count values d (p.outputs.zip (direction.map some))
      ((p.outputs.zip direction).forM fun (k, seed) => Sweep.addAdjoint k d seed) := by
  refine .forM List.zip_map_right.symm ?_
  rintro ⟨k, seed⟩ bound
  obtain ⟨e, at_k⟩ := layout.placed_output (List.of_mem_zip bound).1
  exact .add few at_k

/-- Contributions to the directions one after the other. -/
theorem directions {β : Type} {f : β → Nat → Sweep α σ Unit}
    (parts : β → List (Nat × Option (DenseMatrix α))) {xs : List β}
    (each : ∀ x d, xs[d]? = some x → p.Collects inv count values d (parts x) (f x d))
    {t : Slots α × σ} (gathering : p.Gathering inv count values t) :
    Run.Post (xs.zipIdx.forM fun (x, d) => f x d) t
      (fun _ t' => (p.Gathering inv count values t' ∧ t'.2 = t.2) ∧ ∀ d x, xs[d]? = some x →
        collect (t.1.adjoint d) (parts x) = .ok (t'.1.adjoint d))
      (fun _ _ => True) := by
  refine Run.Post.forM (fun i t' => (p.Gathering inv count values t' ∧ t'.2 = t.2) ∧
    (∀ d x, d < i → xs[d]? = some x → collect (t.1.adjoint d) (parts x) = .ok (t'.1.adjoint d)) ∧
      ∀ d, i ≤ d → t'.1.adjoint d = t.1.adjoint d)
    ⟨⟨gathering, rfl⟩, fun d x less => absurd less (by omega), fun _ _ => rfl⟩ ?_ ?_
  · rintro i ⟨x, d⟩ u at_i ⟨⟨gathering, same⟩, done, ahead⟩
    obtain ⟨at_i, rfl⟩ := getElem?_zipIdx_iff.mp at_i
    refine (each x d at_i u gathering).imp ?_ fun _ _ => id
    rintro _ u' ⟨⟨gathering', same'⟩, added, others⟩
    refine ⟨⟨gathering', same'.trans same⟩, fun d' x' less at_d => ?_, fun d' more => ?_⟩
    · rcases Nat.lt_succ_iff_lt_or_eq.mp less with earlier | rfl
      · rw [others d' (Nat.ne_of_lt earlier)]
        exact done d' x' earlier at_d
      · cases at_i.symm.trans at_d
        rw [← ahead d' (Nat.le_refl d')]
        exact added
    · rw [others d' (Nat.ne_of_gt more), ahead d' (Nat.le_of_succ_le more)]
  · rintro u ⟨kept, done, -⟩
    refine ⟨kept, fun d x at_d => done d x ?_ at_d⟩
    rw [List.length_zipIdx]
    exact (List.getElem?_eq_some_iff.mp at_d).1

/-- What the seeds of all directions put on the outputs. -/
theorem seeds (layout : p.Layout g inputs outputs) {seeds : List (List (DenseMatrix α))}
    {t : Slots α × σ} (gathering : p.Gathering inv seeds.length values t) :
    Run.Post (seeds.zipIdx.forM fun (direction, d) =>
        (p.outputs.zip direction).forM fun (k, seed) => Sweep.addAdjoint k d seed) t
      (fun _ t' => (p.Gathering inv seeds.length values t' ∧ t'.2 = t.2) ∧
        ∀ d direction, seeds[d]? = some direction →
          collect (t.1.adjoint d) (p.outputs.zip (direction.map some)) = .ok (t'.1.adjoint d))
      (fun _ _ => True) :=
  directions (fun direction => p.outputs.zip (direction.map some))
    (fun direction _ at_d => seed layout (List.getElem?_eq_some_iff.mp at_d).1 direction) gathering

end Collects

/-! ### Columns -/

/-- What an entry hands on to its operands in one direction. -/
def columnStep (w : σ) (values z : Nat → DenseMatrix α) (e : Entry α σ × Nat) :
    Except Error (Nat → DenseMatrix α) :=
  match e.1.kind with
  | .apply op => do
    let contributions ← (op.adjoint (e.1.children.map values) (values e.2) (z e.2) w).1
    collect z (e.1.children.zip contributions)
  | _ => .ok z

/-- No sensitivity at any place. -/
def zeros (p : Plan α σ) (k : Nat) : DenseMatrix α :=
  ((p.entries[k]?).map fun e => .fill e.shape 0).getD .empty

/-- The adjoint sensitivities of all places for one direction. -/
def column (p : Plan α σ) (w : σ) (values : Nat → DenseMatrix α) (direction : List (DenseMatrix α)) :
    Except Error (Nat → DenseMatrix α) := do
  let z ← collect p.zeros (p.outputs.zip (direction.map some))
  p.placed.reverse.foldlM (columnStep w values) z

theorem zeros_at (at_k : p.entries[k]? = some e) : p.zeros k = .fill e.shape 0 := by
  simp [zeros, at_k]

/-- The directions that a sweep uses start from zero everywhere. -/
theorem adjoint_cleared_eq {s : Slots α} (fit : s.Fit p) (few : d < count) :
    (s.cleared count).adjoint d = p.zeros := by
  funext k
  by_cases inside : k < p.entries.size
  · have at_k := Array.getElem?_eq_getElem inside
    rw [Slots.adjoint_cleared fit few at_k, zeros_at at_k]
  · have outside : s.size ≤ k := by rw [fit.size]; omega
    have outside' : p.entries.size ≤ k := by omega
    simp [Slots.adjoint, Slots.cleared, zeros, outside, outside']

section Columns

variable {given : NodeId → Option (DenseMatrix α)} {s : Slots α}

omit [Scalar α] in
/-- What an operation answers for a batch of adjoint seeds, it answers for each of them alone. -/
theorem Setting.adjoint_of_batch (setting : p.Setting g inputs outputs inv w₀)
    (splits : g.AdjointSplits outputs inv) (supplies : g.Supplies given)
    (value : ∀ (k : Nat) e, p.entries[k]? = some e → g.value w₀ given e.node = .ok (values k))
    (at_k : p.entries[k]? = some e) {op : Operation α σ} (what : e.kind = .apply op)
    (fit : s.Fit p) (room : s.AdjointRoom count) {found : List (List (Option (DenseMatrix α)))}
    (answered : (op.adjointBatch (e.children.map values) (values k)
      ((List.range count).map fun d => s.adjoint d k) w₀).1 = .ok found)
    {contributions : List (Option (DenseMatrix α))} (at_d : found[d]? = some contributions) :
    (s.adjoint d k).shape = e.shape ∧
      (op.adjoint (e.children.map values) (values k) (s.adjoint d k) w₀).1 = .ok contributions := by
  obtain ⟨n, known⟩ := setting.layout.known at_k
  obtain ⟨kind, shape, -⟩ := setting.layout.operands at_k known
  obtain ⟨operands, -⟩ := setting.layout.recurse_eq setting.sound at_k known
    fun j e' _ at_j => value j e' at_j
  have arguments := (Outcome.mapM_eq_ok.mp operands).imp fun _ _ =>
    Graph.shaped_value setting.sound supplies
  have result := Graph.shaped_value setting.sound supplies (value k e at_k)
  have fits (d : Nat) (few : d < count) : (s.adjoint d k).shape = e.shape :=
    fit.shape_adjoint room few at_k
  have seeds : ∀ m ∈ (List.range count).map (fun d => s.adjoint d k), g.Shaped e.node m := by
    intro m member
    obtain ⟨d, few, rfl⟩ := List.mem_map.mp member
    exact ⟨n, known, (fits d (List.mem_range.mp few)).trans shape⟩
  have apart := splits e.node n op (setting.layout.applied at_k known what) _ _ _ w₀ _ setting.state
    arguments result seeds answered
  rw [Outcome.mapM_eq_ok, List.forall₂_map_left_iff] at apart
  obtain ⟨inside, rfl⟩ := List.getElem?_eq_some_iff.mp at_d
  obtain ⟨length, each⟩ := List.forall₂_iff_get.mp apart
  have few : d < count := by simpa [← length] using inside
  exact ⟨fits d few, by simpa using each d (by simpa using few) inside⟩

variable (setting : p.Setting g inputs outputs inv w₀) (splits : g.AdjointSplits outputs inv)
  (supplies : g.Supplies given)

include setting splits supplies

/-- One step does to every direction what it would do to it alone. -/
theorem post_adjointStep_column
    (value : ∀ (k : Nat) e, p.entries[k]? = some e → g.value w₀ given e.node = .ok (values k))
    (at_k : p.entries[k]? = some e) {t : Slots α × σ} (gathering : p.Gathering inv count values t) :
    Run.Post (adjointStep count (e, k)) t
      (fun _ t' => p.Gathering inv count values t' ∧ ∀ d, d < count →
        columnStep w₀ values (t.1.adjoint d) (e, k) = .ok (t'.1.adjoint d))
      (fun _ _ => True) := by
  unfold adjointStep columnStep
  cases what : e.kind with
  | symbol | constant => exact ⟨gathering, fun _ _ => rfl⟩
  | apply op =>
    obtain ⟨s, w⟩ := t
    obtain ⟨n, known⟩ := setting.layout.known at_k
    have read : s.value = values := funext gathering.value
    have answers := (setting.oblivious _ _ _ (setting.layout.applied at_k known what)).adjointBatch
      (e.children.map s.value) (s.value k) ((List.range count).map fun d => s.adjoint d k)
    refine Run.Post.bind ((Sweep.post_call answers gathering.state setting.state).imp
      (fun _ _ => id) fun _ _ _ => trivial) ?_
    rintro found ⟨s, w'⟩ ⟨answered, rfl, hw'⟩
    replace gathering : p.Gathering inv count values (s, w') := { gathering with state := hw' }
    rw [read] at answered
    by_cases length : found.length = count
    · rw [if_neg (not_not_intro length)]
      refine (Collects.directions e.children.zip (fun contributions d at_d =>
        .spread setting.layout (length ▸ (List.getElem?_eq_some_iff.mp at_d).1) at_k op.name
          contributions) gathering).imp ?_ fun _ _ => id
      rintro _ t' ⟨⟨gathering', -⟩, spread⟩
      refine ⟨gathering', fun d few => ?_⟩
      have at_d := List.getElem?_eq_getElem (length ▸ few : d < found.length)
      obtain ⟨-, alone⟩ := setting.adjoint_of_batch splits supplies value at_k what gathering.fit
        gathering.room answered at_d
      exact Outcome.bind_eq_ok.mpr ⟨_, alone, spread d _ at_d⟩
    · rw [if_pos length]
      exact trivial

/-- An adjoint sweep that succeeds leaves the column of every direction. -/
theorem post_adjointSweep_column {w : σ} (fit : s.Fit p) (hw : inv w)
    (value : ∀ (k : Nat) e, p.entries[k]? = some e → g.value w₀ given e.node = .ok (s.value k))
    (directions : List (List (DenseMatrix α))) :
    Run.Post (p.adjointSweep directions) (s, w)
      (fun _ t => ∀ d direction, directions[d]? = some direction →
        p.column w₀ s.value direction = .ok (t.1.adjoint d))
      (fun _ _ => True) := by
  have gathering : p.Gathering inv directions.length s.value (s.cleared directions.length, w) :=
    ⟨fit.cleared, hw, Slots.adjointRoom_cleared, fun k => Slots.value_cleared k⟩
  refine Run.Post.bind_sure Sweep.post_updateAll ?_
  rintro _ _ rfl
  refine Run.Post.bind (Collects.seeds setting.layout gathering) ?_
  rintro _ t ⟨⟨gathering, -⟩, seeded⟩
  -- what is left of the walk leads every direction to its column
  refine Run.Post.forM (fun i t' => p.Gathering inv directions.length s.value t' ∧
    ∀ d direction, directions[d]? = some direction → p.column w₀ s.value direction =
      (p.placed.reverse.drop i).foldlM (columnStep w₀ s.value) (t'.1.adjoint d))
    ⟨gathering, fun d direction at_d => ?_⟩ ?_ ?_
  · have few := (List.getElem?_eq_some_iff.mp at_d).1
    have started := seeded d direction at_d
    change collect ((s.cleared _).adjoint d) _ = _ at started
    rw [adjoint_cleared_eq fit few] at started
    rw [column, started]
    rfl
  · rintro i ⟨e, k⟩ t' at_i ⟨gathering, done⟩
    obtain ⟨j, at_j⟩ :=
      List.mem_iff_getElem?.mp (List.mem_reverse.mp (List.mem_of_getElem? at_i))
    obtain ⟨at_k, rfl⟩ := getElem?_placed.mp at_j
    refine (post_adjointStep_column setting splits supplies value at_k gathering).imp ?_
      fun _ _ => id
    rintro _ t'' ⟨gathering', stepped⟩
    refine ⟨gathering', fun d direction at_d => ?_⟩
    obtain ⟨inside, turn⟩ := List.getElem?_eq_some_iff.mp at_i
    rw [done d direction at_d, List.drop_eq_getElem_cons inside, List.foldlM_cons, turn,
      stepped d (List.getElem?_eq_some_iff.mp at_d).1]
    rfl
  · rintro t' ⟨-, done⟩ d direction at_d
    rw [done d direction at_d, List.drop_length]
    rfl

end Columns

end Plan

end Cotangent
