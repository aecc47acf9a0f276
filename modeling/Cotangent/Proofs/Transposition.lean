import Mathlib
import Cotangent.Proofs.AdjointColumns
import Cotangent.Proofs.InnerProduct
import Cotangent.Proofs.Meaning

/-! Adjoint calls transpose forward calls. With the forward sensitivities of one direction fixed,
the weight of a state of the adjoint sweep is the sum, over the places that the walk has still to
look at and over the inputs, of the inner products of both sensitivities. Seeding makes the weight
what the outputs pair to. A step takes the product of its node away and gives it to the operands,
since the operation is transposed. What remains at the end is what the inputs pair to. -/
namespace Cotangent

open Finset (range)

variable {α σ : Type} [RingScalar α]

/-- At the current point, the adjoint of every operation that some output needs is the transpose of
its forward. -/
def Graph.Transposed (g : Graph α σ) (outputs : List NodeId) (w : σ)
    (given : NodeId → Option (DenseMatrix α)) : Prop :=
  ∀ id n op xs y, g.Applied outputs id n op →
    n.children.mapM (g.value w given) = .ok xs → g.value w given id = .ok y →
    ∀ ts seed t contributions, List.Forall₂ g.Shaped n.children ts → g.Shaped id seed →
      (op.forward xs y ts w).1 = .ok t → (op.adjoint xs y seed w).1 = .ok contributions →
      t.inner seed = pairingOptions ts contributions

/-- The inner products of given matrices with the adjoint sensitivities at the first places. -/
def Slots.weight (F : Nat → DenseMatrix α) (d n : Nat) (s : Slots α) : α :=
  ∑ k ∈ range n, (F k).inner (s.adjoint d k)

theorem Slots.weight_withAdjoint {s : Slots α} {F : Nat → DenseMatrix α} {count d d' k n : Nat}
    {m y : DenseMatrix α} (room : s.AdjointRoom count) (few : d' < count) (inside : k < s.size)
    (within : k < n) (added : (s.adjoint d' k).accumulate m = .ok y) :
    (s.withAdjoint d' k y).weight F d n =
      s.weight F d n + if d' = d then (F k).inner m else 0 := by
  unfold weight
  by_cases direction : d' = d
  · subst direction
    have term (j : Nat) : (F j).inner ((s.withAdjoint d' k y).adjoint d' j) =
        (F j).inner (s.adjoint d' j) + if j = k then (F k).inner m else 0 := by
      rw [adjoint_withAdjoint room few inside]
      by_cases same : j = k
      · subst same
        simp [DenseMatrix.inner_accumulate added]
      · simp [same]
    simp [term, Finset.sum_add_distrib, within]
  · rw [if_neg direction, add_zero]
    refine Finset.sum_congr rfl ?_
    intro j _
    rw [adjoint_withAdjoint room few inside, if_neg fun h => direction h.2.symm]

/-- A computation that adds so much to a measure, if it succeeds. -/
def Run.Gains {τ : Type} (P : τ → Prop) (measure : τ → α) (gain : α) (act : Run τ Unit) : Prop :=
  ∀ t, P t → Run.Post act t (fun _ t' => P t' ∧ measure t' = measure t + gain) fun _ _ => True

namespace Run.Gains

variable {τ β : Type} {P : τ → Prop} {measure : τ → α}

theorem pure : Gains P measure 0 (pure ()) := fun _ holds => ⟨holds, (add_zero _).symm⟩

theorem forM {f : β → Run τ Unit} {gain : β → α} {xs : List β}
    (h : ∀ x ∈ xs, Gains P measure (gain x) (f x)) :
    Gains P measure (xs.map gain).sum (xs.forM f) := by
  induction xs with
  | nil => exact pure
  | cons x xs ih =>
    intro t holds
    obtain ⟨first, later⟩ := List.forall_mem_cons.mp h
    refine Post.bind (first t holds) ?_
    rintro _ t' ⟨holds', gained⟩
    refine (ih later t' holds').imp ?_ fun _ _ => id
    rintro _ t'' ⟨holds'', gained'⟩
    refine ⟨holds'', ?_⟩
    rw [gained', gained, List.map_cons, List.sum_cons, add_assoc]

/-- Of a list with positions, only what stands at one position counts. -/
theorem sum_zipIdx {xs : List β} (h : β → α) {d : Nat} {x : β} (at_d : xs[d]? = some x) (n : Nat) :
    ((xs.zipIdx n).map fun z => if z.2 = n + d then h z.1 else 0).sum = h x := by
  induction xs generalizing d n with
  | nil => simp at at_d
  | cons y xs ih =>
    rw [List.zipIdx_cons, List.map_cons, List.sum_cons]
    cases d with
    | zero =>
      cases at_d
      have rest : ((xs.zipIdx (n + 1)).map fun z => if z.2 = n + 0 then h z.1 else 0).sum = 0 := by
        refine List.sum_eq_zero ?_
        intro v member
        obtain ⟨z, later, rfl⟩ := List.mem_map.mp member
        have := List.le_snd_of_mem_zipIdx later
        rw [if_neg (by omega)]
      simpa using rest
    | succ d =>
      have rest := ih at_d (n + 1)
      rw [if_neg (by omega), zero_add, ← rest]
      simp only [Nat.add_assoc, Nat.add_comm 1 d]

end Run.Gains

namespace Plan

variable {g : Graph α σ} {inputs outputs : List NodeId} {p : Plan α σ} {inv : σ → Prop} {w₀ : σ}
  {count : Nat} {values F : Nat → DenseMatrix α} {given seed : NodeId → Option (DenseMatrix α)}
  {d n : Nat}

/-- The weight of a state of the adjoint sweep. -/
abbrev weightOf (F : Nat → DenseMatrix α) (d n : Nat) (t : Slots α × σ) : α := t.1.weight F d n

theorem gains_addAdjoint {k d' : Nat} {e : Entry α σ} {m : DenseMatrix α} (few : d' < count)
    (at_k : p.entries[k]? = some e) (within : k < n) :
    Run.Gains (p.Gathering inv count values) (weightOf F d n)
      (if d' = d then (F k).inner m else 0) (Sweep.addAdjoint k d' m) := by
  rintro ⟨s, w⟩ gathering
  unfold Run.Post
  rw [Sweep.addAdjoint_eq gathering.fit gathering.room few at_k]
  cases added : (s.adjoint d' k).accumulate m with
  | error x => exact trivial
  | ok y =>
    have shape := gathering.fit.shape_adjoint gathering.room few at_k
    exact ⟨gathering.withAdjoint at_k ((Sweep.shape_accumulate added).2.trans shape),
      Slots.weight_withAdjoint gathering.room few (gathering.fit.lt_size at_k) within added⟩

/-- What an application spreads over its operands in one direction. -/
theorem gains_spread (layout : p.Layout g inputs outputs) {k d' : Nat} {e : Entry α σ}
    (few : d' < count) (at_k : p.entries[k]? = some e) (op : String)
    (contributions : List (Option (DenseMatrix α))) :
    Run.Gains (p.Gathering inv count values) (weightOf F d k)
      (if d' = d then pairingOptions (e.children.map F) contributions else 0)
      (spread op e.children contributions d') := by
  have total : ((e.children.zip contributions).map fun z =>
      if d' = d then innerOption (F z.1) z.2 else 0).sum =
      if d' = d then pairingOptions (e.children.map F) contributions else 0 := by
    by_cases direction : d' = d
    · simp [direction, pairingOptions, List.zipWith_map_left, List.zip, List.map_zipWith]
    · simp [direction]
  unfold spread
  by_cases length : contributions.length = e.children.length
  · rw [if_neg (not_not_intro length), ← total]
    refine .forM ?_
    rintro ⟨j, m⟩ member
    obtain ⟨earlier, e', at_j⟩ := layout.placed_operand at_k (List.of_mem_zip member).1
    cases m with
    | none => simpa [innerOption] using Run.Gains.pure
    | some m => exact gains_addAdjoint few at_j earlier
  · rw [if_pos length]
    exact fun _ _ => trivial

/-- What the seeds put on the outputs. -/
theorem gains_seed (layout : p.Layout g inputs outputs) {directions : List (List (DenseMatrix α))}
    {direction : List (DenseMatrix α)} (at_d : directions[d]? = some direction) :
    Run.Gains (p.Gathering inv directions.length values) (weightOf F d p.entries.size)
      (pairing (p.outputs.map F) direction)
      (directions.zipIdx.forM fun (direction, d) =>
        (p.outputs.zip direction).forM fun (k, seed) => Sweep.addAdjoint k d seed) := by
  rw [← Run.Gains.sum_zipIdx (pairing (p.outputs.map F)) at_d 0]
  refine .forM ?_
  rintro ⟨direction, d'⟩ member
  have few : d' < directions.length := by simpa using List.snd_lt_of_mem_zipIdx member
  have each : ((p.outputs.zip direction).map fun z =>
      if d' = d then (F z.1).inner z.2 else 0).sum =
      if d' = 0 + d then pairing (p.outputs.map F) direction else 0 := by
    by_cases same : d' = d
    · simp [same, pairing, List.zipWith_map_left, List.zip, List.map_zipWith]
    · simp [same]
  rw [← each]
  refine .forM ?_
  rintro ⟨k, seed⟩ bound
  obtain ⟨e, at_k⟩ := layout.placed_output (List.of_mem_zip bound).1
  exact gains_addAdjoint few at_k (Array.getElem?_eq_some_iff.mp at_k).1

/-- The point and the direction that a sweep is looked at for: the places hold the values and the
sensitivities that recursion gives their nodes. -/
structure Along (g : Graph α σ) (p : Plan α σ) (w₀ : σ)
    (given seed : NodeId → Option (DenseMatrix α)) (values F : Nat → DenseMatrix α) : Prop where
  supplies : g.Supplies given
  seeding : g.Supplies seed
  value : ∀ (k : Nat) e, p.entries[k]? = some e → g.value w₀ given e.node = .ok (values k)
  tangent : ∀ (k : Nat) e, p.entries[k]? = some e → g.tangent w₀ given seed e.node = .ok (F k)

/-- In an application, the product of the node is the product of its operands. -/
theorem Along.transposes (along : Along g p w₀ given seed values F)
    (setting : p.Setting g inputs outputs inv w₀) (transposed : g.Transposed outputs w₀ given)
    {k : Nat} {e : Entry α σ} (at_k : p.entries[k]? = some e) {op : Operation α σ}
    (what : e.kind = .apply op) {m : DenseMatrix α} (shape : m.shape = e.shape)
    {contributions : List (Option (DenseMatrix α))}
    (answered : (op.adjoint (e.children.map values) (values k) m w₀).1 = .ok contributions) :
    (F k).inner m = pairingOptions (e.children.map F) contributions := by
  obtain ⟨n, known⟩ := setting.layout.known at_k
  obtain ⟨kind, shape', -⟩ := setting.layout.operands at_k known
  obtain ⟨operands, -⟩ := setting.layout.recurse_eq setting.sound at_k known
    fun j e' _ at_j => along.value j e' at_j
  obtain ⟨tangents, rule⟩ := setting.layout.recurse_eq setting.sound at_k known
    fun j e' _ at_j => along.tangent j e' at_j
  have value := along.value k e at_k
  have tangent := rule.symm.trans (along.tangent k e at_k)
  have applied := setting.layout.applied at_k known what
  have forward := ((Graph.tangentRule_apply applied.kind operands value).mp tangent).1
  have shaped := (Outcome.mapM_eq_ok.mp tangents).imp fun _ _ =>
    Graph.shaped_tangent setting.sound along.seeding
  exact transposed e.node n op _ _ applied operands value _ _ _ _ shaped
    ⟨n, known, shape.trans shape'⟩ forward answered

/-- So it is in every direction of a batch. -/
theorem Along.transposes_batch (along : Along g p w₀ given seed values F)
    (setting : p.Setting g inputs outputs inv w₀) (splits : g.AdjointSplits outputs inv)
    (transposed : g.Transposed outputs w₀ given) {k : Nat} {e : Entry α σ}
    (at_k : p.entries[k]? = some e) {op : Operation α σ} (what : e.kind = .apply op) {s : Slots α}
    (fit : s.Fit p) (room : s.AdjointRoom count) {found : List (List (Option (DenseMatrix α)))}
    (answered : (op.adjointBatch (e.children.map values) (values k)
      ((List.range count).map fun d => s.adjoint d k) w₀).1 = .ok found)
    {contributions : List (Option (DenseMatrix α))} (at_d : found[d]? = some contributions) :
    (F k).inner (s.adjoint d k) = pairingOptions (e.children.map F) contributions := by
  obtain ⟨shape, alone⟩ := setting.adjoint_of_batch splits along.supplies along.value at_k what fit
    room answered at_d
  exact along.transposes setting transposed at_k what shape alone

/-- One step hands the product of a node on to its operands. -/
theorem post_adjointStep (along : Along g p w₀ given seed values F)
    (setting : p.Setting g inputs outputs inv w₀) (splits : g.AdjointSplits outputs inv)
    (transposed : g.Transposed outputs w₀ given) (few : d < count) {k : Nat} {e : Entry α σ}
    (at_k : p.entries[k]? = some e) (computed : e.kind.isSymbol = false) {t : Slots α × σ}
    (gathering : p.Gathering inv count values t) :
    Run.Post (adjointStep count (e, k)) t
      (fun _ t' => p.Gathering inv count values t' ∧ weightOf F d k t' = weightOf F d (k + 1) t)
      (fun _ _ => True) := by
  obtain ⟨n, known⟩ := setting.layout.known at_k
  obtain ⟨kind, shape, -⟩ := setting.layout.operands at_k known
  have weight : weightOf F d (k + 1) t = weightOf F d k t + (F k).inner (t.1.adjoint d k) :=
    Finset.sum_range_succ _ k
  rw [weight]
  unfold adjointStep
  cases what : e.kind with
  | symbol name => simp [what, NodeKind.isSymbol] at computed
  | constant m =>
    have tangent := along.tangent k e at_k
    rw [Graph.tangent, Graph.recurse_leaf setting.sound known (by simp [← kind, what])] at tangent
    simp only [Graph.tangentRule, ← kind, what, Except.ok.injEq] at tangent
    refine ⟨gathering, ?_⟩
    rw [← tangent, DenseMatrix.inner_fill_zero_left, add_zero]
  | apply op =>
    obtain ⟨s, w⟩ := t
    have read : s.value = values := funext gathering.value
    have answers := (setting.oblivious _ _ _ (setting.layout.applied at_k known what)).adjointBatch
      (e.children.map s.value) (s.value k) ((List.range count).map fun d => s.adjoint d k)
    refine Run.Post.bind ((Sweep.post_call answers gathering.state setting.state).imp
      (fun _ _ => id) fun _ _ _ => trivial) ?_
    rintro found ⟨s, w'⟩ ⟨answered, rfl, hw'⟩
    replace gathering : p.Gathering inv count values (s, w') := { gathering with state := hw' }
    by_cases length : found.length = count
    · rw [if_neg (not_not_intro length)]
      obtain ⟨contributions, at_d⟩ : ∃ contributions, found[d]? = some contributions :=
        ⟨_, List.getElem?_eq_getElem (length ▸ few)⟩
      rw [read] at answered
      rw [along.transposes_batch setting splits transposed at_k what gathering.fit
        gathering.room answered at_d,
        ← Run.Gains.sum_zipIdx (pairingOptions (e.children.map F)) at_d 0]
      refine Run.Gains.forM ?_ _ gathering
      rintro ⟨contributions, d'⟩ member
      have few' : d' < found.length := by simpa using List.snd_lt_of_mem_zipIdx member
      rw [Nat.zero_add]
      exact gains_spread setting.layout (length ▸ few') at_k op.name contributions
    · rw [if_pos length]
      exact trivial

/-- The walk back carries the weight of all places over to the inputs. -/
theorem post_walkBack (along : Along g p w₀ given seed values F)
    (setting : p.Setting g inputs outputs inv w₀) (splits : g.AdjointSplits outputs inv)
    (transposed : g.Transposed outputs w₀ given) (few : d < count) {t : Slots α × σ}
    (gathering : p.Gathering inv count values t) :
    Run.Post (p.placed.reverse.forM (adjointStep count)) t
      (fun _ t' => weightOf F d inputs.length t' = weightOf F d p.entries.size t)
      (fun _ _ => True) := by
  have front : inputs.length ≤ p.entries.size := setting.layout.length_le
  have size : p.placed.length = p.entries.size := by simp [placed]
  -- after `i` steps the places from the end on are spent, but never those of the inputs
  refine Run.Post.forM (fun i t' => p.Gathering inv count values t' ∧
    weightOf F d (max (p.entries.size - i) inputs.length) t' = weightOf F d p.entries.size t)
    ⟨gathering, by simp [front]⟩ ?_ ?_
  · rintro i ⟨e, k⟩ t' at_i ⟨gathering, weight⟩
    have inside : i < p.entries.size := by
      simpa [size] using (List.getElem?_eq_some_iff.mp at_i).1
    rw [List.getElem?_reverse (by omega), size] at at_i
    obtain ⟨at_k, position⟩ := getElem?_placed.mp at_i
    dsimp only at at_k position
    subst position
    by_cases symbol : e.kind.isSymbol = true
    · have input := (setting.layout.symbol_iff _ e at_k).mp symbol
      cases what : e.kind with
      | constant | apply => simp [what, NodeKind.isSymbol] at symbol
      | symbol name =>
        unfold adjointStep
        simp only [what]
        refine ⟨gathering, ?_⟩
        rwa [show max (p.entries.size - (i + 1)) inputs.length =
          max (p.entries.size - i) inputs.length by omega]
    · have computed : ¬ p.entries.size - 1 - i < inputs.length := fun input =>
        symbol ((setting.layout.symbol_iff _ e at_k).mpr input)
      refine (post_adjointStep along setting splits transposed few at_k (by simpa using symbol)
        gathering).imp ?_ fun _ _ => id
      rintro _ t'' ⟨gathering', handed⟩
      rw [show max (p.entries.size - i) inputs.length = p.entries.size - 1 - i + 1 by omega]
        at weight
      rw [show max (p.entries.size - (i + 1)) inputs.length = p.entries.size - 1 - i by omega]
      exact ⟨gathering', handed.trans weight⟩
  · rintro t' ⟨-, weight⟩
    rw [List.length_reverse, size] at weight
    simpa using weight

/-- After an adjoint sweep, the inputs pair to what the outputs pair to. -/
theorem post_adjointSweep_weight (along : Along g p w₀ given seed values F)
    (setting : p.Setting g inputs outputs inv w₀) (splits : g.AdjointSplits outputs inv)
    (transposed : g.Transposed outputs w₀ given) {s : Slots α} {w : σ} (fit : s.Fit p) (hw : inv w)
    (read : ∀ k, s.value k = values k) {directions : List (List (DenseMatrix α))}
    {direction : List (DenseMatrix α)} (at_d : directions[d]? = some direction) :
    Run.Post (p.adjointSweep directions) (s, w)
      (fun _ t => t.1.weight F d inputs.length = pairing (p.outputs.map F) direction)
      (fun _ _ => True) := by
  have few : d < directions.length := (List.getElem?_eq_some_iff.mp at_d).1
  have gathering : p.Gathering inv directions.length values (s.cleared directions.length, w) :=
    ⟨fit.cleared, hw, Slots.adjointRoom_cleared, by simpa using read⟩
  have zero : (s.cleared directions.length).weight F d p.entries.size = 0 := by
    refine Finset.sum_eq_zero ?_
    intro k inside
    have at_k := Array.getElem?_eq_getElem (Finset.mem_range.mp inside)
    rw [Slots.adjoint_cleared fit few at_k, DenseMatrix.inner_fill_zero_right]
  have seeding := gains_seed (F := F) setting.layout at_d _ gathering
  refine Run.Post.bind_sure Sweep.post_updateAll ?_
  rintro _ _ rfl
  refine Run.Post.bind seeding ?_
  rintro _ t ⟨gathering', seeded⟩
  refine (post_walkBack along setting splits transposed few gathering').imp ?_ fun _ _ => id
  intro _ t' carried
  refine carried.trans (seeded.trans ?_)
  rw [weightOf, zero, zero_add]

/-- The sensitivities of the inputs along a direction are the direction. -/
theorem Along.direction {xdot : List (DenseMatrix α)}
    (along : Along g p w₀ given (Graph.supplied inputs xdot) values F)
    (setting : p.Setting g inputs outputs inv w₀) (fitting : p.Fitting p.inputs xdot) :
    xdot = (List.range inputs.length).map F := by
  have length := setting.layout.length_fitting fitting
  refine List.ext_getElem (by simp [length]) ?_
  intro k inside _
  have front : k < inputs.length := length ▸ inside
  have at_k := Array.getElem?_eq_getElem (Nat.lt_of_lt_of_le front setting.layout.length_le)
  have symbol := (setting.layout.symbol_iff k _ at_k).mpr front
  have supplied := setting.layout.supplied_eq at_k symbol xdot
  obtain ⟨n, known⟩ := setting.layout.known at_k
  obtain ⟨kind, -, -⟩ := setting.layout.operands at_k known
  have tangent := along.tangent k _ at_k
  rw [kind] at symbol
  cases what : n.kind with
  | constant | apply => simp [what, NodeKind.isSymbol] at symbol
  | symbol name =>
    rw [Graph.tangent, Graph.recurse_leaf setting.sound known (by simp [what])] at tangent
    simp only [Graph.tangentRule, what, Graph.required_eq_ok, supplied] at tangent
    simpa [List.getElem?_eq_getElem inside] using tangent

end Plan

/-! ### One by one matrices -/

section Single

namespace DenseMatrix

variable {α : Type}

theorem eq_scalar {m : DenseMatrix α} (one : m.shape = (1, 1)) : ∃ x, m = scalar x := by
  obtain ⟨r, c, data, size⟩ := m
  simp only [shape, Prod.mk.injEq] at one
  obtain ⟨rfl, rfl⟩ := one
  obtain ⟨x, rfl⟩ := Array.size_eq_one_iff.mp size
  exact ⟨x, rfl⟩

theorem zipMap_scalar [Scalar α] (f : α → α → α) (a b : α) :
    (scalar a).zipMap f (scalar b) = .ok (scalar (f a b)) := by
  simp [zipMap, scalar, shape]

theorem reduceTo_scalar [Scalar α] (a b : α) : (scalar a).reduceTo (scalar b).shape = scalar a := by
  simp [reduceTo, scalar, shape]

theorem inner_scalar [RingScalar α] (a b : α) : (scalar a).inner (scalar b) = a * b := by
  simp [inner, scalar]

end DenseMatrix

open DenseMatrix

theorem pairingOptions_one (u a : DenseMatrix α) : pairingOptions [u] [some a] = u.inner a := by
  simp [pairingOptions, innerOption]

theorem pairingOptions_two (u v a b : DenseMatrix α) :
    pairingOptions [u, v] [some a, some b] = u.inner a + v.inner b := by
  simp [pairingOptions, innerOption]

theorem BinaryKind.transposed_scalar {k : BinaryKind} (kind : k = .add ∨ k = .mul)
    {a b u v z : α} {y t : DenseMatrix α} {cs : List (Option (DenseMatrix α))}
    (forward : k.primitive.forward [scalar a, scalar b] y [scalar u, scalar v] = .ok t)
    (adjoint : k.primitive.adjoint [scalar a, scalar b] y (scalar z) = .ok cs) :
    t.inner (scalar z) = pairingOptions [scalar u, scalar v] cs := by
  rcases kind with rfl | rfl
  · have sensitivity : t = scalar (u + v) := by
      simpa [primitive, push, checkArity, elementAt, zipMap_scalar, apply] using forward.symm
    have contributions : cs = [some (scalar z), some (scalar z)] := by
      simpa [primitive, pull, checkArity, elementAt, zipMap_scalar, reduceTo_scalar, apply, pure,
        Except.pure] using adjoint.symm
    rw [sensitivity, contributions, pairingOptions_two, inner_scalar, inner_scalar, inner_scalar]
    ring
  · have sensitivity : t = scalar (u * b + a * v) := by
      simpa [primitive, push, checkArity, elementAt, zipMap_scalar, apply] using forward.symm
    have contributions : cs = [some (scalar (z * b)), some (scalar (z * a))] := by
      simpa [primitive, pull, checkArity, elementAt, zipMap_scalar, reduceTo_scalar, apply, pure,
        Except.pure] using adjoint.symm
    rw [sensitivity, contributions, pairingOptions_two, inner_scalar, inner_scalar, inner_scalar]
    ring

theorem UnaryKind.transposed_scalar (k : UnaryKind)
    {a b u z : α} {t : DenseMatrix α} {cs : List (Option (DenseMatrix α))}
    (forward : k.primitive.forward [scalar a] (scalar b) [scalar u] = .ok t)
    (adjoint : k.primitive.adjoint [scalar a] (scalar b) (scalar z) = .ok cs) :
    t.inner (scalar z) = pairingOptions [scalar u] cs := by
  have sensitivity : t = scalar (k.derivative a b * u) := by
    simpa [primitive, chain, checkArity, elementAt, zipMap_scalar] using forward.symm
  have contributions : cs = [some (scalar (k.derivative a b * z))] := by
    simpa [primitive, chain, checkArity, elementAt, zipMap_scalar, pure, Except.pure]
      using adjoint.symm
  rw [sensitivity, contributions, pairingOptions_one, inner_scalar, inner_scalar]
  ring

namespace Graph

/-- A node that is one by one. -/
def Single {α σ : Type} (g : Graph α σ) (id : NodeId) : Prop :=
  ∀ n, g.node? id = some n → n.shape = (1, 1)

theorem Single.scalar {α σ : Type} {g : Graph α σ} {id : NodeId} {m : DenseMatrix α}
    (single : g.Single id) (fits : g.Shaped id m) : ∃ x, m = .scalar x := by
  obtain ⟨n, known, shape⟩ := fits
  exact eq_scalar (shape.trans (single n known))

theorem Single.two {α σ : Type} {g : Graph α σ} {c c' : NodeId} {ms : List (DenseMatrix α)}
    (single : g.Single c) (single' : g.Single c') (fits : List.Forall₂ g.Shaped [c, c'] ms) :
    ∃ x y, ms = [.scalar x, .scalar y] := by
  simp only [List.forall₂_cons_left_iff, List.forall₂_nil_left_iff] at fits
  obtain ⟨m, _, hm, ⟨m', _, hm', rfl, rfl⟩, rfl⟩ := fits
  obtain ⟨x, rfl⟩ := single.scalar hm
  obtain ⟨y, rfl⟩ := single'.scalar hm'
  exact ⟨x, y, rfl⟩

theorem single_sharing {id : NodeId} (other : id ≠ ⟨1⟩) : sharing.Single id := by
  intro n known
  obtain ⟨i⟩ := id
  rcases i with _ | _ | _ | _ | _ | _ | _ | i
  · cases known; rfl
  · exact absurd rfl other
  · cases known; rfl
  · cases known; rfl
  · cases known; rfl
  · cases known; rfl
  · cases known; rfl
  · simp [node?, sharing] at known

theorem transposed_sharing {outputs : List NodeId} {given : NodeId → Option (DenseMatrix Int)}
    (supplies : sharing.Supplies given) : sharing.Transposed outputs () given := by
  rintro id n op xs y ⟨-, known, kind⟩ operands value ts seed t cs shaped fits forward adjoint
  have arguments := (Outcome.mapM_eq_ok.mp operands).imp fun _ _ =>
    shaped_value built_sharing.sound supplies
  have here : sharing.Single id := by
    refine single_sharing ?_
    rintro rfl
    cases known
    cases kind
  obtain ⟨z, rfl⟩ := here.scalar fits
  have binary {k : BinaryKind} (add_or_mul : k = .add ∨ k = .mul)
      (same : op = k.primitive.operation) {c c' : NodeId} (children : n.children = [c, c'])
      (other : c ≠ ⟨1⟩) (other' : c' ≠ ⟨1⟩) :
      t.inner (.scalar z) = pairingOptions ts cs := by
    subst same
    rw [children] at shaped arguments
    obtain ⟨u, v, rfl⟩ := (single_sharing other).two (single_sharing other') shaped
    obtain ⟨a, b, rfl⟩ := (single_sharing other).two (single_sharing other') arguments
    exact BinaryKind.transposed_scalar add_or_mul forward adjoint
  have member := Array.mem_toList_iff.mpr (Array.mem_of_getElem? known)
  simp only [sharing, List.mem_cons, List.not_mem_nil, or_false] at member
  rcases member with rfl | rfl | rfl | rfl | rfl | rfl | rfl <;> cases kind
  · exact binary (.inr rfl) rfl rfl (by decide) (by decide)
  · exact binary (.inl rfl) rfl rfl (by decide) (by decide)
  · exact binary (.inr rfl) rfl rfl (by decide) (by decide)
  · simp only [List.forall₂_cons_left_iff, List.forall₂_nil_left_iff] at shaped arguments
    obtain ⟨_, _, hu, rfl, rfl⟩ := shaped
    obtain ⟨_, _, ha, rfl, rfl⟩ := arguments
    obtain ⟨u, rfl⟩ := (single_sharing (by decide)).scalar hu
    obtain ⟨a, rfl⟩ := (single_sharing (by decide)).scalar ha
    obtain ⟨b, rfl⟩ := here.scalar (shaped_value built_sharing.sound supplies value)
    exact UnaryKind.transposed_scalar .neg forward adjoint

end Graph

end Single

namespace Program

variable {g : Graph α σ} {inputs outputs : List NodeId} {p : Plan α σ} {inv : σ → Prop} {w w' w₀ : σ}
  {f f' f₀ : Program α σ} {xs : List (DenseMatrix α)} {r r' : Sensitivities α}

/-- What a forward call answers fits the outputs. -/
theorem forward_fits (setting : p.Setting g inputs outputs inv w₀) (splits : g.ForwardSplits outputs inv)
    (settled : Settled p inv w₀ inputs (f, w)) {xdots : List (List (DenseMatrix α))}
    (forwards : (forward xs xdots (f, w)).1 = .ok r) {d : Nat} {xdot : List (DenseMatrix α)}
    (at_d : xdots[d]? = some xdot) :
    p.Fitting p.inputs xdot ∧ ∃ ydot, r.sensitivities[d]? = some ydot ∧ p.Fitting p.outputs ydot := by
  obtain ⟨accepted, accepted'⟩ := accepted_of_forward forwards
  have fitting := (checkInputs_eq_ok setting.layout settled.plan).mp accepted
  have seeding := (checkForward_eq_ok setting.layout settled.plan).mp accepted'
  obtain ⟨fresh, rows, rfl⟩ := (post_forward setting settled fitting seeding).result forwards
  have xdot_fits := seeding xdot (List.mem_of_getElem? at_d)
  generalize (forward xs xdots (f, w)).2 = t at fresh rows
  have few := (List.getElem?_eq_some_iff.mp at_d).1
  refine ⟨xdot_fits, _, List.getElem?_eq_some_iff.mpr ⟨by simpa using few, rfl⟩, ?_⟩
  simp only [List.getElem_map, List.getElem_range]
  refine Plan.fitting_map (fun _ => setting.layout.placed_output) fun k e at_k => ?_
  have tangent := tangent_of_rows setting splits fitting seeding fresh.current rows at_d k e at_k
  obtain ⟨n, known, shape⟩ :=
    Graph.shaped_tangent setting.sound (setting.layout.supplies xdot_fits) tangent
  obtain ⟨n', known'⟩ := setting.layout.known at_k
  cases known.symm.trans known'
  exact shape.trans (setting.layout.operands at_k known).2.1.symm

/-- What an adjoint call answers fits the inputs. -/
theorem adjoint_fits (setting : p.Setting g inputs outputs inv w₀)
    (settled : Settled p inv w₀ inputs (f, w)) {ybars : List (List (DenseMatrix α))}
    (adjoints : (adjoint xs ybars (f, w)).1 = .ok r) {d : Nat} {ybar : List (DenseMatrix α)}
    (at_d : ybars[d]? = some ybar) :
    p.Fitting p.outputs ybar ∧ ∃ xbar, r.sensitivities[d]? = some xbar ∧ p.Fitting p.inputs xbar := by
  obtain ⟨accepted, accepted'⟩ := accepted_of_adjoint adjoints
  have fitting := (checkInputs_eq_ok setting.layout settled.plan).mp accepted
  have seeding := (checkAdjoint_eq_ok setting.layout settled.plan).mp accepted'
  have few := (List.getElem?_eq_some_iff.mp at_d).1
  obtain ⟨fresh, shapes, rfl⟩ := (post_adjoint setting settled fitting seeding
    (Q := fun s => ∀ (k : Nat) e, p.entries[k]? = some e → (s.adjoint d k).shape = e.shape)
    fun s v fit hv _ => (Plan.gathering_adjointSweep setting.layout setting.oblivious fit hv ybars).imp
      (fun _ _ gathering _ _ at_k => gathering.fit.shape_adjoint gathering.room few at_k)
      fun _ _ _ => trivial).result adjoints
  refine ⟨seeding ybar (List.mem_of_getElem? at_d), _,
    List.getElem?_eq_some_iff.mpr ⟨by simpa using few, rfl⟩, ?_⟩
  simp only [List.getElem_map, List.getElem_range]
  exact Plan.fitting_map (fun _ => setting.layout.placed_input) shapes

/-- Along any two directions, the outputs pair to what the inputs pair to. -/
theorem pairing_sensitivities (setting : p.Setting g inputs outputs inv w₀)
    (splits : g.ForwardSplits outputs inv) (splits' : g.AdjointSplits outputs inv)
    (transposed : g.Transposed outputs w₀ (Graph.supplied inputs xs))
    (settled : Settled p inv w₀ inputs (f, w)) (settled' : Settled p inv w₀ inputs (f', w'))
    {xdots ybars : List (List (DenseMatrix α))} (forwards : (forward xs xdots (f, w)).1 = .ok r)
    (adjoints : (adjoint xs ybars (f', w')).1 = .ok r') {d e : Nat}
    {xdot ybar ydot xbar : List (DenseMatrix α)} (at_d : xdots[d]? = some xdot)
    (at_e : ybars[e]? = some ybar) (answer_d : r.sensitivities[d]? = some ydot)
    (answer_e : r'.sensitivities[e]? = some xbar) : pairing ydot ybar = pairing xdot xbar := by
  obtain ⟨accepted, accepted'⟩ := accepted_of_forward forwards
  have fitting := (checkInputs_eq_ok setting.layout settled.plan).mp accepted
  have seeding := (checkForward_eq_ok setting.layout settled.plan).mp accepted'
  have seeding' := (checkAdjoint_eq_ok setting.layout settled'.plan).mp (accepted_of_adjoint adjoints).2
  obtain ⟨fresh, rows, rfl⟩ := (post_forward setting settled fitting seeding).result forwards
  have xdot_fits := seeding xdot (List.mem_of_getElem? at_d)
  generalize (forward xs xdots (f, w)).2 = t at fresh rows answer_d
  have along : Plan.Along g p w₀ (Graph.supplied inputs xs) (Graph.supplied inputs xdot)
      t.1.slots.value (t.1.slots.forward d) :=
    ⟨setting.layout.supplies fitting, setting.layout.supplies xdot_fits,
      fun k e at_k => setting.layout.current fresh.current at_k,
      tangent_of_rows setting splits fitting seeding fresh.current rows at_d⟩
  obtain ⟨fresh', weight, rfl⟩ := (post_adjoint setting settled' fitting seeding'
    (Q := fun s => s.weight (t.1.slots.forward d) e inputs.length =
      pairing (p.outputs.map (t.1.slots.forward d)) ybar)
    fun s v fit hv current => Plan.post_adjointSweep_weight along setting splits' transposed fit
      hv (current.unique fresh.current fit fresh.settled.fit) at_e).result adjoints
  obtain rfl : p.outputs.map (t.1.slots.forward d) = ydot := by
    obtain ⟨few, same⟩ := List.getElem?_eq_some_iff.mp answer_d
    simpa using same
  obtain rfl : p.inputs.map _ = xbar := by
    obtain ⟨few, same⟩ := List.getElem?_eq_some_iff.mp answer_e
    simpa using same
  have direction := along.direction setting xdot_fits
  rw [← weight, direction, setting.layout.inputs_eq, pairing_map_range]
  rfl

/-- For operations whose adjoint is the transpose of their forward at a point, an adjoint call at
this point is the transpose of a forward call: along every direction of the one and of the other,
the outputs pair to what the inputs pair to. -/
theorem adjoint_transposes_forward {name : String} (built : g.Built)
    (created : create name g inputs outputs = .ok f₀) (oblivious : g.Oblivious outputs inv)
    (splits : g.ForwardSplits outputs inv) (splits' : g.AdjointSplits outputs inv)
    (hw₀ : inv w₀) (transposed : g.Transposed outputs w₀ (Graph.supplied inputs xs))
    (reached : Reached inv f₀ f) (reached' : Reached inv f₀ f') (hw : inv w) (hw' : inv w')
    {xdots ybars : List (List (DenseMatrix α))} {r r' : Sensitivities α}
    (forwards : (forward xs xdots (f, w)).1 = .ok r)
    (adjoints : (adjoint xs ybars (f', w')).1 = .ok r') {d e : Nat}
    {xdot ybar : List (DenseMatrix α)} (at_d : xdots[d]? = some xdot)
    (at_e : ybars[e]? = some ybar) :
    ∃ ydot xbar, r.sensitivities[d]? = some ydot ∧ r'.sensitivities[e]? = some xbar ∧
      (ydot.length = outputs.length ∧ ybar.length = outputs.length) ∧
      (xdot.length = inputs.length ∧ xbar.length = inputs.length) ∧
      pairing ydot ybar = pairing xdot xbar := by
  have setting := setting_of_create built created oblivious hw₀
  have settled := reached.settled setting created hw
  have settled' := reached'.settled setting created hw'
  obtain ⟨xdot_fits, ydot, answer, ydot_fits⟩ := forward_fits setting splits settled forwards at_d
  obtain ⟨ybar_fits, xbar, answer', xbar_fits⟩ := adjoint_fits setting settled' adjoints at_e
  have outputs_length := setting.layout.outputs_at.length_eq
  have inputs_length : f₀.plan.inputs.length = inputs.length := by
    rw [setting.layout.inputs_eq, List.length_range]
  refine ⟨ydot, xbar, answer, answer', ?_, ?_, ?_⟩
  · simp [outputs_length, ← ydot_fits.length_eq, ← ybar_fits.length_eq]
  · simp [← inputs_length, ← xdot_fits.length_eq, ← xbar_fits.length_eq]
  · exact pairing_sensitivities setting splits splits' transposed settled settled' forwards adjoints
      at_d at_e answer answer'

theorem adjoint_transposes_forward_sharing :
    ∃ (f₀ : Program Int Unit) (r r' : Sensitivities Int) (ydot xbar : List (DenseMatrix Int)),
      create "f" Graph.sharing [⟨0⟩, ⟨1⟩] [⟨5⟩, ⟨3⟩, ⟨5⟩, ⟨0⟩, ⟨2⟩] = .ok f₀ ∧
      (forward [.scalar 2, .column [7, 8]] [[.scalar 3, .column [1, 1]]] (f₀, ())).1 = .ok r ∧
      (adjoint [.scalar 2, .column [7, 8]]
        [[.scalar 1, .scalar 2, .scalar 3, .scalar 4, .scalar 5]] (f₀, ())).1 = .ok r' ∧
      r.sensitivities[0]? = some ydot ∧ r'.sensitivities[0]? = some xbar ∧
      pairing ydot [.scalar 1, .scalar 2, .scalar 3, .scalar 4, .scalar 5] =
        pairing [.scalar 3, .column [1, 1]] xbar := by
  obtain ⟨f₀, created⟩ : ∃ f₀,
      create "f" Graph.sharing [⟨0⟩, ⟨1⟩] [⟨5⟩, ⟨3⟩, ⟨5⟩, ⟨0⟩, ⟨2⟩] = .ok f₀ := ⟨_, rfl⟩
  obtain ⟨r, forwards, -⟩ := Outcome.map_eq_ok.mp (show
    ((forward [.scalar 2, .column [7, 8]] [[.scalar 3, .column [1, 1]]] (f₀, ())).1.map
      (·.sensitivities)) = .ok [[.scalar 132, .scalar 12, .scalar 132, .scalar 3, .scalar 0]] by
    cases created
    decide +kernel)
  obtain ⟨r', adjoints, -⟩ := Outcome.map_eq_ok.mp (show
    ((adjoint [.scalar 2, .column [7, 8]]
      [[.scalar 1, .scalar 2, .scalar 3, .scalar 4, .scalar 5]] (f₀, ())).1.map
        (·.sensitivities)) = .ok [[.scalar 188, .column [0, 0]]] by
    cases created
    decide +kernel)
  have setting : f₀.plan.Setting _ _ _ (fun _ => True) () := setting_of_create
    Graph.built_sharing created (Graph.stateless_sharing.oblivious _ _) trivial
  have fitting := (checkInputs_eq_ok setting.layout rfl).mp (accepted_of_forward forwards).1
  have supplies := setting.layout.supplies fitting
  obtain ⟨ydot, xbar, at_d, at_e, -, -, same⟩ := adjoint_transposes_forward Graph.built_sharing
    created setting.oblivious Graph.stateless_sharing.forwardDirectionwise.splits
    Graph.stateless_sharing.adjointSplits trivial (Graph.transposed_sharing supplies) .fresh .fresh
    trivial trivial forwards adjoints (d := 0) (e := 0) rfl rfl
  exact ⟨f₀, r, r', ydot, xbar, created, forwards, adjoints, at_d, at_e, same⟩

end Program

end Cotangent
