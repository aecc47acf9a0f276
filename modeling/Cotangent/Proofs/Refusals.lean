import Mathlib
import Cotangent.Proofs.Layout
import Cotangent.Proofs.PostOrder

/-! Why a graph is not compiled. The stack of the search is a path of ever older nodes, none of them
placed, and an operand of a node on it is still to be looked at, is placed, or lies on the path above.
So a node that is looked at for the last time has placed operands, no handle is unknown, and a step
leaves the order that the recursion would give as it was: the search ends after the steps it is given
with that order, or at the first node of it that has a fault. -/
namespace Cotangent

variable {α σ : Type}

namespace Placement

/-! ### One step -/

/-- One step of the search: an operand is placed and passed over or put on the path, and a node without
further operands is dropped if it is placed, and placed if not. -/
inductive Step (g : Graph α σ) :
    List (Frame α σ) → Placement α σ → List (Frame α σ) → Placement α σ → Prop
  | skip {id c : NodeId} {n : Node α σ} {left : List NodeId} {stack : List (Frame α σ)}
    {p : Placement α σ} (placed : (p.find? c).isSome = true) :
    Step g (⟨id, n, c :: left⟩ :: stack) p (⟨id, n, left⟩ :: stack) p
  | descend {id c : NodeId} {n m : Node α σ} {left : List NodeId} {stack : List (Frame α σ)}
    {p : Placement α σ} (new : p.find? c = none) (known : g.node? c = some m) :
    Step g (⟨id, n, c :: left⟩ :: stack) p (⟨c, m, m.children⟩ :: ⟨id, n, left⟩ :: stack) p
  | drop {id : NodeId} {n : Node α σ} {stack : List (Frame α σ)} {p : Placement α σ}
    (placed : (p.find? id).isSome = true) :
    Step g (⟨id, n, []⟩ :: stack) p stack p
  | finish {id : NodeId} {n : Node α σ} {stack : List (Frame α σ)} {p p' : Placement α σ}
    (new : p.find? id = none) (finished : p.finish id n = .ok p') :
    Step g (⟨id, n, []⟩ :: stack) p stack p'

variable {g : Graph α σ} {p p' : Placement α σ} {stack stack' : List (Frame α σ)} {f : Frame α σ}
  {id c : NodeId} {n m : Node α σ} {left : List NodeId} {cs : List Nat} {fuel : Nat}

/-- The placed nodes, in the order of their positions. -/
def order (p : Placement α σ) : List NodeId := p.entries.toList.map (·.node)

theorem order_push : (p.push id n cs).order = p.order ++ [id] := by simp [order, push]

theorem Valid.mem_order (valid : Valid g p) : id ∈ p.order ↔ (p.find? id).isSome = true := by
  rw [Option.isSome_iff_exists]
  exact Plan.mem_nodes_iff valid id

theorem Valid.notMem_order (valid : Valid g p) : id ∉ p.order ↔ p.find? id = none := by
  rw [valid.mem_order, Option.not_isSome_iff_eq_none]

theorem search_step (step : Step g stack p stack' p') (fuel : Nat) :
    search g (fuel + 1) stack p = search g fuel stack' p' := by
  cases step with
  | skip placed => rw [search, if_pos placed]
  | descend new known =>
    rw [search, if_neg (Option.not_isSome_iff_eq_none.mpr new), Graph.node_eq_ok.mpr known]
  | drop placed => rw [search, if_pos placed]
  | finish new finished =>
    rw [search, if_neg (Option.not_isSome_iff_eq_none.mpr new), finished]

/-- What holds of the path and the placement during a search. -/
structure Searching (g : Graph α σ) (stack : List (Frame α σ)) (p : Placement α σ) : Prop where
  valid : Valid g p
  known : ∀ f ∈ stack, g.node? f.id = some f.node
  new : ∀ f ∈ stack, f.id ∉ p.order
  /-- Nodes further up on the path are older. -/
  older : stack.Pairwise fun f f' => f.id.index < f'.id.index
  left_sub : ∀ f ∈ stack, ∀ c ∈ f.left, c ∈ f.node.children
  /-- Operands that are looked at are placed or on the path. -/
  seen : ∀ f ∈ stack, ∀ c ∈ f.node.children, c ∈ f.left ∨ c ∈ p.order ∨ c ∈ stack.map (·.id)

theorem Searching.start (valid : Valid g p) (known : g.node? id = some n) (new : id ∉ p.order) :
    Searching g [⟨id, n, n.children⟩] p where
  valid := valid
  known := by simpa using known
  new := by simpa using new
  older := List.pairwise_singleton _ _
  left_sub := by simp
  seen := by simp +contextual

/-- An operand of the node on top exists and is older than the path. -/
theorem Searching.operand (searching : Searching g (⟨id, n, c :: left⟩ :: stack) p) (sound : g.Sound) :
    c.index < id.index ∧ (∀ f ∈ stack, c.index < f.id.index) ∧ ∃ m, g.node? c = some m := by
  have known : g.node? id = some n := searching.known ⟨id, n, c :: left⟩ List.mem_cons_self
  have member : c ∈ n.children :=
    searching.left_sub ⟨id, n, c :: left⟩ List.mem_cons_self c List.mem_cons_self
  have older := (sound id n known).child_lt c member
  refine ⟨older, fun f below => ?_, (g.node?_eq_some_iff_lt c).mpr
    (older.trans ((g.node?_eq_some_iff_lt id).mp ⟨n, known⟩))⟩
  exact older.trans ((List.pairwise_cons.mp searching.older).1 f below)

/-- The operands of a node that is looked at for the last time are placed. -/
theorem Searching.placed (searching : Searching g (⟨id, n, []⟩ :: stack) p) (sound : g.Sound) :
    ∃ cs, n.children.mapM p.find = .ok cs := by
  refine Outcome.mapM_ok_of_all fun c member => ?_
  have there : c ∈ p.order := by
    have known : g.node? id = some n := searching.known ⟨id, n, []⟩ List.mem_cons_self
    have younger := (sound id n known).child_lt c member
    rcases searching.seen ⟨id, n, []⟩ List.mem_cons_self c member with left | placed | path
    · cases left
    · exact placed
    · -- nothing on the path is older than the node on top
      rcases List.mem_cons.mp path with same | below
      · exact absurd (same ▸ younger) (lt_irrefl _)
      · obtain ⟨f, there, rfl⟩ := List.mem_map.mp below
        exact absurd younger ((List.pairwise_cons.mp searching.older).1 f there).not_gt
  obtain ⟨k, found⟩ := Option.isSome_iff_exists.mp (searching.valid.mem_order.mp there)
  exact ⟨k, find_eq_ok.mpr found⟩

theorem Searching.skip (searching : Searching g (⟨id, n, c :: left⟩ :: stack) p)
    (placed : c ∈ p.order) : Searching g (⟨id, n, left⟩ :: stack) p where
  valid := searching.valid
  known := List.forall_mem_cons.mpr (List.forall_mem_cons.mp searching.known)
  new := List.forall_mem_cons.mpr (List.forall_mem_cons.mp searching.new)
  older := List.pairwise_cons.mpr (List.pairwise_cons.mp searching.older)
  left_sub := by
    obtain ⟨top, below⟩ := List.forall_mem_cons.mp searching.left_sub
    exact List.forall_mem_cons.mpr ⟨fun c member => top c (List.mem_cons_of_mem _ member), below⟩
  seen := by
    obtain ⟨top, below⟩ := List.forall_mem_cons.mp searching.seen
    refine List.forall_mem_cons.mpr ⟨fun c' member => ?_, below⟩
    rcases top c' member with left | seen
    · exact (List.mem_cons.mp left).elim (fun same => .inr (.inl (same ▸ placed))) .inl
    · exact .inr seen

theorem Searching.descend (searching : Searching g (⟨id, n, c :: left⟩ :: stack) p)
    (sound : g.Sound) (new : c ∉ p.order) (known : g.node? c = some m) :
    Searching g (⟨c, m, m.children⟩ :: ⟨id, n, left⟩ :: stack) p where
  valid := searching.valid
  known := by
    obtain ⟨top, below⟩ := List.forall_mem_cons.mp searching.known
    exact List.forall_mem_cons.mpr ⟨known, List.forall_mem_cons.mpr ⟨top, below⟩⟩
  new := by
    obtain ⟨top, below⟩ := List.forall_mem_cons.mp searching.new
    exact List.forall_mem_cons.mpr ⟨new, List.forall_mem_cons.mpr ⟨top, below⟩⟩
  older := by
    obtain ⟨top, below, -⟩ := searching.operand sound
    exact List.pairwise_cons.mpr ⟨List.forall_mem_cons.mpr ⟨top, below⟩,
      List.pairwise_cons.mpr (List.pairwise_cons.mp searching.older)⟩
  left_sub := by
    obtain ⟨top, below⟩ := List.forall_mem_cons.mp searching.left_sub
    refine List.forall_mem_cons.mpr ⟨fun _ member => member, List.forall_mem_cons.mpr ⟨?_, below⟩⟩
    exact fun c' member => top c' (List.mem_cons_of_mem c member)
  seen := by
    obtain ⟨top, below⟩ := List.forall_mem_cons.mp searching.seen
    refine List.forall_mem_cons.mpr ⟨fun _ => .inl, List.forall_mem_cons.mpr ⟨?_, ?_⟩⟩
    · intro c' member
      rcases top c' member with left | placed | path
      · rcases List.mem_cons.mp left with rfl | left
        · exact .inr (.inr List.mem_cons_self)
        · exact .inl left
      · exact .inr (.inl placed)
      · exact .inr (.inr (List.mem_cons_of_mem c path))
    · exact fun f member c' operand =>
        (below f member c' operand).imp_right (.imp_right (List.mem_cons_of_mem c))

theorem Searching.finish (searching : Searching g (⟨id, n, []⟩ :: stack) p)
    (placed : List.Forall₂ (fun c j => p.find? c = some j) n.children cs) :
    Searching g stack (p.push id n cs) := by
  obtain ⟨known, known'⟩ := List.forall_mem_cons.mp searching.known
  obtain ⟨new, new'⟩ := List.forall_mem_cons.mp searching.new
  obtain ⟨older, older'⟩ := List.pairwise_cons.mp searching.older
  refine ⟨searching.valid.push known (searching.valid.notMem_order.mp new) placed, known',
    fun f member => ?_, older', (List.forall_mem_cons.mp searching.left_sub).2,
    fun f member c operand => ?_⟩
  · rw [order_push, List.mem_append, List.mem_singleton, not_or]
    exact ⟨new' f member, fun same => lt_irrefl _ (same ▸ older f member)⟩
  · rw [order_push]
    rcases (List.forall_mem_cons.mp searching.seen).2 f member c operand with left | placed | path
    · exact .inl left
    · exact .inr (.inl (List.mem_append_left _ placed))
    · rcases List.mem_cons.mp path with rfl | path
      · exact .inr (.inl List.mem_concat_self)
      · exact .inr (.inr path)

/-- A step keeps what holds during a search. -/
theorem Searching.step (searching : Searching g stack p) (sound : g.Sound)
    (step : Step g stack p stack' p') : Searching g stack' p' := by
  cases step with
  | skip placed => exact searching.skip (searching.valid.mem_order.mpr placed)
  | descend new known =>
    exact searching.descend sound (searching.valid.notMem_order.mpr new) known
  | drop placed =>
    -- a node of the path is never placed before it is finished
    exact absurd (searching.valid.mem_order.mpr placed) (searching.new _ List.mem_cons_self)
  | finish new finished =>
    obtain ⟨-, -, cs, rfl, placed⟩ := finish_eq_ok finished
    exact searching.finish placed

/-- A node with placed operands is placed unless it has a fault. -/
theorem finish_eq (known : g.node? id = some n) (found : n.children.mapM p.find = .ok cs) :
    p.finish id n = match g.nodeFault? id with
      | some e => .error e
      | none => .ok (p.push id n cs) := by
  obtain ⟨kind, children, shape⟩ := n
  unfold finish Graph.nodeFault?
  simp only [known] at found ⊢
  cases kind with
  | symbol name => rfl
  | constant | apply =>
    rw [found, Outcome.ok_bind, push?, checkRoom]
    dsimp only
    split <;> rfl

/-- A search that is not at its end takes a step, or the node on top has a fault. -/
theorem Searching.cases (searching : Searching g (f :: stack) p) (sound : g.Sound) :
    (∃ stack' p', Step g (f :: stack) p stack' p') ∨
    ∃ e, f.left = [] ∧ g.nodeFault? f.id = some e ∧
      ∀ fuel, search g (fuel + 1) (f :: stack) p = .error e := by
  obtain ⟨id, n, _ | ⟨c, left⟩⟩ := f
  · obtain ⟨cs, found⟩ := searching.placed sound
    have new := searching.valid.notMem_order.mp (searching.new _ List.mem_cons_self)
    have finished := finish_eq (searching.known _ List.mem_cons_self) found
    dsimp only at new finished ⊢
    cases fault : g.nodeFault? id with
    | none => exact .inl ⟨stack, _, .finish new (finished.trans (by rw [fault]))⟩
    | some e =>
      rw [fault] at finished
      refine .inr ⟨e, rfl, rfl, fun fuel => ?_⟩
      rw [search, if_neg (Option.not_isSome_iff_eq_none.mpr new), finished]
  · cases found : p.find? c with
    | some k => exact .inl ⟨_, _, .skip (by rw [found]; rfl)⟩
    | none =>
      obtain ⟨-, -, m, known⟩ := searching.operand sound
      exact .inl ⟨_, _, .descend found known⟩

/-! ### All steps -/

/-- The order in which the recursion goes on: for every node of the path what its remaining operands add,
then the node. -/
def pending (g : Graph α σ) (stack : List (Frame α σ)) (done : List NodeId) : List NodeId :=
  stack.foldl (fun done f => f.left.foldl g.visit done ++ [f.id]) done

theorem prefix_pending (sound : g.Sound) (stack : List (Frame α σ)) (done : List NodeId) :
    done <+: pending g stack done :=
  foldl_keeps (P := fun _ d => done <+: d) (List.prefix_refl done) fun _ f _ d _ kept =>
    kept.trans ((Graph.prefix_foldl_visit sound f.left d).trans (List.prefix_append _ _))

/-- A step leaves the order as it is, and places nothing but a node without a fault. -/
theorem Searching.pending_step (searching : Searching g stack p) (sound : g.Sound)
    (step : Step g stack p stack' p') : pending g stack' p'.order = pending g stack p.order ∧
      ∃ added, p'.order = p.order ++ added ∧ ∀ x ∈ added, g.nodeFault? x = none := by
  cases step with
  | skip placed =>
    refine ⟨?_, [], by simp, by simp⟩
    simp only [pending, List.foldl_cons]
    rw [Graph.visit_of_mem (searching.valid.mem_order.mpr placed)]
  | descend new known =>
    refine ⟨?_, [], by simp, by simp⟩
    simp only [pending, List.foldl_cons]
    rw [Graph.visit_eq sound known (searching.valid.notMem_order.mpr new)]
  | drop placed =>
    exact absurd (searching.valid.mem_order.mpr placed) (searching.new _ List.mem_cons_self)
  | @finish id n _ _ _ new finished =>
    obtain ⟨cs, found⟩ := searching.placed sound
    have decided := finish_eq (searching.known _ List.mem_cons_self) found
    rw [finished] at decided
    cases fault : g.nodeFault? id with
    | some e =>
      rw [fault] at decided
      cases decided
    | none =>
      rw [fault, Except.ok.injEq] at decided
      rw [decided, order_push]
      exact ⟨rfl, [id], rfl, by simpa using fault⟩

/-- The nodes that are not placed and not on the path. -/
def unmet (g : Graph α σ) (stack : List (Frame α σ)) (p : Placement α σ) : Finset Nat :=
  (Finset.range g.size).filter fun k => ⟨k⟩ ∉ p.order ∧ ⟨k⟩ ∉ stack.map (·.id)

/-- The number of operands of a node. -/
def operands (g : Graph α σ) (k : Nat) : Nat := ((g.node? ⟨k⟩).map (·.children.length)).getD 0

/-- The steps still to come: one for every node not met and each of its operands, one for every node of
the path and what it has left. -/
def work (g : Graph α σ) (stack : List (Frame α σ)) (p : Placement α σ) : Nat :=
  ∑ k ∈ unmet g stack p, (operands g k + 1) + (stack.map fun f => f.left.length + 1).sum

theorem operands_eq (known : g.node? id = some n) : operands g id.index = n.children.length := by
  rw [operands, show (⟨id.index⟩ : NodeId) = id from rfl, known]
  rfl

/-- A node that joins the path takes its share of the work with it. -/
theorem Searching.sum_unmet_descend (searching : Searching g (⟨id, n, c :: left⟩ :: stack) p)
    (sound : g.Sound) (new : c ∉ p.order) (known : g.node? c = some m) (f : Nat → Nat) :
    ∑ k ∈ unmet g (⟨c, m, m.children⟩ :: ⟨id, n, left⟩ :: stack) p, f k + f c.index =
      ∑ k ∈ unmet g (⟨id, n, c :: left⟩ :: stack) p, f k := by
  obtain ⟨top, below, -⟩ := searching.operand sound
  have apart : c ∉ stack.map (·.id) := by
    intro member
    obtain ⟨f, there, same⟩ := List.mem_map.mp member
    exact lt_irrefl _ (same ▸ below f there)
  have apart' : c ≠ id := fun same => lt_irrefl _ (same ▸ top)
  have member : c.index ∈ unmet g (⟨id, n, c :: left⟩ :: stack) p :=
    Finset.mem_filter.mpr ⟨Finset.mem_range.mpr ((g.node?_eq_some_iff_lt c).mp ⟨m, known⟩),
      new, fun path => (List.mem_cons.mp path).elim apart' apart⟩
  have less : unmet g (⟨c, m, m.children⟩ :: ⟨id, n, left⟩ :: stack) p =
      (unmet g (⟨id, n, c :: left⟩ :: stack) p).erase c.index := by
    ext k
    have same : (⟨k⟩ : NodeId) = c ↔ k = c.index := by cases c; simp
    simp only [unmet, Finset.mem_filter, Finset.mem_erase, List.map_cons, List.mem_cons, same]
    tauto
  rw [less]
  exact Finset.sum_erase_add _ _ member

theorem Searching.work_step (searching : Searching g stack p) (sound : g.Sound)
    (step : Step g stack p stack' p') : work g stack' p' < work g stack p := by
  cases step with
  | @skip id c n left stack _ placed =>
    have same : unmet g (⟨id, n, c :: left⟩ :: stack) p = unmet g (⟨id, n, left⟩ :: stack) p := rfl
    simp only [work, same, List.map_cons, List.sum_cons, List.length_cons]
    omega
  | descend new known =>
    have missing := searching.valid.notMem_order.mpr new
    have share := searching.sum_unmet_descend sound missing known fun k => operands g k + 1
    rw [operands_eq known] at share
    simp only [work, List.map_cons, List.sum_cons, List.length_cons]
    omega
  | drop placed =>
    exact absurd (searching.valid.mem_order.mpr placed) (searching.new _ List.mem_cons_self)
  | @finish id n _ _ _ new finished =>
    obtain ⟨-, -, cs, rfl, -⟩ := finish_eq_ok finished
    have same : unmet g stack' (p.push id n cs) = unmet g (⟨id, n, []⟩ :: stack') p := by
      ext k
      simp only [unmet, order_push, Finset.mem_filter, List.map_cons, List.mem_cons,
        List.mem_append, List.not_mem_nil, or_false, not_or]
      tauto
    simp only [work, same, List.map_cons, List.sum_cons, List.length_nil]
    omega

theorem sum_operands (g : Graph α σ) : ∑ k ∈ Finset.range g.size, (operands g k + 1) = steps g := by
  have listed : g.nodes.toList.map (·.children.length) = (List.range g.size).map (operands g) := by
    refine List.ext_getElem (by simp [Graph.size]) fun k inside _ => ?_
    have small : k < g.nodes.size := by simpa using inside
    simp [operands, Graph.node?, small]
  rw [Finset.sum_add_distrib, Finset.sum_const, Finset.card_range, smul_eq_mul, mul_one, steps,
    List.length_flatMap, listed]
  rfl

/-- The steps that a search is given are enough for all nodes at once. -/
theorem work_start (known : g.node? id = some n) :
    work g [⟨id, n, n.children⟩] p ≤ steps g := by
  have all := sum_operands g
  have part : unmet g [⟨id, n, n.children⟩] p ⊆ (Finset.range g.size).erase id.index := by
    intro k member
    obtain ⟨inside, -, apart⟩ := Finset.mem_filter.mp member
    refine Finset.mem_erase.mpr ⟨fun same => apart ?_, inside⟩
    exact List.mem_singleton.mpr (congrArg NodeId.mk same)
  have less := Finset.sum_le_sum_of_subset (f := fun k => operands g k + 1) part
  have share := Finset.sum_erase_add _ (fun k => operands g k + 1)
    (Finset.mem_range.mpr ((g.node?_eq_some_iff_lt id).mp ⟨n, known⟩))
  rw [operands_eq known] at share
  simp only [work, List.map_cons, List.map_nil, List.sum_cons, List.sum_nil]
  omega

/-- The outcome of placing the nodes of an order: their first fault, or a placement of all of them. -/
def Decides (g : Graph α σ) (fault : Option Error) (order : List NodeId)
    (outcome : Except Error (Placement α σ)) : Prop :=
  match fault with
  | some e => outcome = .error e
  | none => ∃ p, outcome = .ok p ∧ Valid g p ∧ p.order = order

variable {fault fault' : Option Error} {order order' : List NodeId}
  {outcome : Except Error (Placement α σ)}

theorem decides_done (valid : Valid g p) : Decides g none p.order (.ok p) := ⟨p, rfl, valid, rfl⟩

theorem decides_self (valid : Valid g p) :
    Decides g (g.firstFault? p.order p.order) p.order (.ok p) := by
  rw [Graph.firstFault?_self]
  exact decides_done valid

theorem Decides.of_ok (decides : Decides g fault order (.ok p)) :
    fault = none ∧ Valid g p ∧ p.order = order := by
  cases fault with
  | some e => cases decides
  | none =>
    obtain ⟨p', same, valid, order⟩ := decides
    cases same
    exact ⟨rfl, valid, order⟩

/-- One placement after the other has the faults of the first, then those of the second. -/
theorem Decides.bind {next : Placement α σ → Except Error (Placement α σ)}
    (first : Decides g fault order outcome)
    (second : ∀ p, Valid g p → p.order = order → Decides g fault' order' (next p)) :
    Decides g (fault.or fault') order' (outcome >>= next) := by
  cases fault with
  | some e =>
    obtain rfl : outcome = .error e := first
    rfl
  | none =>
    obtain ⟨p, rfl, valid, order⟩ := first
    exact second p valid order

/-- A search with enough steps looks at nodes in the order of the recursion. -/
theorem Searching.decides (searching : Searching g stack p) (sound : g.Sound)
    (enough : work g stack p ≤ fuel) :
    Decides g (g.firstFault? p.order (pending g stack p.order)) (pending g stack p.order)
      (search g fuel stack p) := by
  induction fuel generalizing stack p with
  | zero =>
    cases stack with
    | nil => exact decides_self searching.valid
    | cons f stack =>
      simp only [work, List.map_cons, List.sum_cons] at enough
      omega
  | succ fuel ih =>
    cases stack with
    | nil => exact decides_self searching.valid
    | cons f stack =>
      rcases searching.cases sound with ⟨stack', p', step⟩ | ⟨e, last, fault, failed⟩
      · obtain ⟨same, added, order, clean⟩ := searching.pending_step sound step
        have less := searching.work_step sound step
        have grown : p.order ++ added <+: p'.order := order ▸ List.prefix_rfl
        have within := grown.trans (prefix_pending sound stack' p'.order)
        rw [search_step step, ← same, Graph.firstFault?_later within clean, ← order]
        exact ih (searching.step sound step) (by omega)
      · have within : p.order ++ [f.id] <+: pending g (f :: stack) p.order := by
          rw [pending, List.foldl_cons, last, List.foldl_nil]
          exact prefix_pending sound stack (p.order ++ [f.id])
        rw [Graph.firstFault?_here within fault]
        exact failed fuel

/-! ### The run of the compiler -/

/-- The search from an output looks at what a visit of it adds. -/
theorem searchFrom_decides (valid : Valid g p) (sound : g.Sound) (o : NodeId) :
    Decides g (g.outputFault? p.order o) (g.visit p.order o) (searchFrom g p o) := by
  rw [Graph.outputFault?, searchFrom, Graph.node]
  cases known : g.node? o with
  | none => rfl
  | some n =>
    dsimp only
    rw [Outcome.ok_bind]
    by_cases placed : o ∈ p.order
    · rw [if_pos (valid.mem_order.mp placed), Graph.visit_of_mem placed]
      exact decides_self valid
    · rw [if_neg (mt valid.mem_order.mpr placed), Graph.visit_eq sound known placed]
      exact (Searching.start valid known placed).decides sound (work_start known)

theorem search_outputs (valid : Valid g p) (sound : g.Sound) (outputs : List NodeId) :
    Decides g (g.outputsFault? p.order outputs) (outputs.foldl g.visit p.order)
      (outputs.foldlM (searchFrom g) p) := by
  induction outputs generalizing p with
  | nil => exact decides_done valid
  | cons o rest ih =>
    rw [Graph.outputsFault?, List.foldlM_cons, List.foldl_cons]
    exact (searchFrom_decides valid sound o).bind fun q valid' order => order ▸ ih valid'

/-- An input is placed unless it has a fault. -/
theorem pushInput_decides (valid : Valid g p) (sound : g.Sound) (id : NodeId) :
    Decides g (g.inputFault? p.order id) (p.order ++ [id]) (pushInput g p (id, p.order.length)) := by
  rw [Graph.inputFault?, pushInput, Graph.node]
  cases known : g.node? id with
  | none => rfl
  | some n =>
    dsimp only
    rw [Outcome.ok_bind]
    by_cases symbol : n.kind.isSymbol = true
    · rw [symbol]
      by_cases again : id ∈ p.order
      · simp only [again, valid.mem_order.mp again]
        rfl
      · have new := valid.notMem_order.mp again
        have leaf := (sound id n known).leaf_of_symbol symbol
        rw [new, push?, checkRoom, if_neg again]
        by_cases room : n.shape.elements < wordLimit
        · rw [if_pos room, if_pos room]
          exact ⟨_, rfl, valid.push known new (by simp [leaf]), order_push⟩
        · rw [if_neg room, if_neg room]
          rfl
    · rw [Bool.not_eq_true] at symbol
      rw [symbol]
      rfl

theorem push_inputs (valid : Valid g p) (sound : g.Sound) (inputs : List NodeId) :
    Decides g (g.inputsFault? p.order inputs) (p.order ++ inputs)
      ((inputs.zipIdx p.order.length).foldlM (pushInput g) p) := by
  induction inputs generalizing p with
  | nil =>
    rw [List.append_nil]
    exact decides_done valid
  | cons id rest ih =>
    rw [Graph.inputsFault?, List.zipIdx_cons, List.foldlM_cons]
    refine (pushInput_decides valid sound id).bind fun q valid' order => ?_
    have later := ih valid'
    rwa [order, List.length_append, List.length_singleton, List.append_assoc,
      List.singleton_append] at later

/-- Neither exit for unknown handles is open: the operand in turn is a node, and where none is left all
operands are placed. -/
structure Resolved (g : Graph α σ) (stack : List (Frame α σ)) (p : Placement α σ) : Prop where
  operand : ∀ id n c left below, stack = ⟨id, n, c :: left⟩ :: below → ∃ m, g.node c = .ok m
  placed : ∀ id n below, stack = ⟨id, n, []⟩ :: below → ∃ cs, n.children.mapM p.find = .ok cs

theorem Searching.resolved (searching : Searching g stack p) (sound : g.Sound) :
    Resolved g stack p := by
  refine ⟨fun id n c left below same => ?_, fun id n below same => ?_⟩
  · subst same
    obtain ⟨-, -, m, known⟩ := searching.operand sound
    exact ⟨m, Graph.node_eq_ok.mpr known⟩
  · subst same
    exact searching.placed sound

end Placement

namespace Plan

open Placement

variable {g : Graph α σ} {inputs outputs : List NodeId} {stack stack' : List (Frame α σ)}
  {p p' q r : Placement α σ} {o : NodeId} {n : Node α σ}

/-- The paths and placements that compiling goes through: a search from an output starts when the inputs
are placed and the outputs before it are done, and takes one step after the other. -/
inductive Compiling (g : Graph α σ) (inputs outputs : List NodeId) :
    List (Frame α σ) → Placement α σ → Prop
  | start {q p : Placement α σ} {before after : List NodeId} {o : NodeId} {n : Node α σ}
    (front : inputs.zipIdx.foldlM (pushInput g) (.empty g) = .ok q)
    (split : outputs = before ++ o :: after) (earlier : before.foldlM (searchFrom g) q = .ok p)
    (known : g.node? o = some n) (new : p.find? o = none) :
    Compiling g inputs outputs [⟨o, n, n.children⟩] p
  | step {stack stack' : List (Frame α σ)} {p p' : Placement α σ}
    (reached : Compiling g inputs outputs stack p) (step : Step g stack p stack' p') :
    Compiling g inputs outputs stack' p'

theorem place_inputs (sound : g.Sound) (inputs : List NodeId) :
    Decides g (g.inputsFault? [] inputs) inputs
      (inputs.zipIdx.foldlM (pushInput g) (.empty g)) := push_inputs (valid_empty g) sound inputs

/-- What holds during a search holds whenever the compiler searches. -/
theorem Compiling.searching (compiling : Compiling g inputs outputs stack p) (sound : g.Sound) :
    Searching g stack p := by
  induction compiling with
  | start front split earlier known new =>
    obtain ⟨-, valid, -⟩ := (front ▸ place_inputs sound inputs).of_ok
    obtain ⟨-, valid', -⟩ := (earlier ▸ search_outputs valid sound _).of_ok
    exact .start valid' known (valid'.notMem_order.mpr new)
  | step _ step ih => exact ih.step sound step

/-- What is placed in the end: the inputs, then what the visits of the outputs add. -/
theorem place_decides (sound : g.Sound) (inputs outputs : List NodeId) :
    Decides g (g.refusal? inputs outputs) (outputs.foldl g.visit inputs)
      (inputs.zipIdx.foldlM (pushInput g) (.empty g) >>= outputs.foldlM (searchFrom g)) :=
  (place_inputs sound inputs).bind fun _ valid order => order ▸ search_outputs valid sound outputs

/-- Every output has a position in the end. -/
theorem bind_outputs (sound : g.Sound)
    (placed : (inputs.zipIdx.foldlM (pushInput g) (.empty g) >>= outputs.foldlM (searchFrom g)) =
      .ok r) : ∃ ks, outputs.mapM r.find = .ok ks := by
  obtain ⟨clean, valid, order⟩ := (placed ▸ place_decides sound inputs outputs).of_ok
  have admits := (Graph.refusal?_eq_none_iff sound).mp clean
  refine Outcome.mapM_ok_of_all fun o output => ?_
  obtain ⟨n, known⟩ := admits.known o output
  have member : o ∈ r.order := order ▸ Graph.mem_foldl_visit sound known output
  obtain ⟨k, found⟩ := Option.isSome_iff_exists.mp (valid.mem_order.mp member)
  exact ⟨k, find_eq_ok.mpr found⟩

/-- A graph is compiled unless inputs or outputs have a fault, which then is the error. -/
theorem compile_eq (sound : g.Sound) (inputs outputs : List NodeId) :
    match g.refusal? inputs outputs with
    | some e => compile g inputs outputs = .error e
    | none => ∃ p, compile g inputs outputs = .ok p := by
  have split : compile g inputs outputs =
      (inputs.zipIdx.foldlM (pushInput g) (.empty g) >>= outputs.foldlM (searchFrom g)) >>=
        fun r => outputs.mapM r.find >>= fun ks =>
          .ok ⟨g, r.entries, r.position, List.range inputs.length, ks⟩ := by
    rw [compile]
    cases inputs.zipIdx.foldlM (pushInput g) (.empty g) <;> rfl
  have decides := place_decides sound inputs outputs
  rw [split]
  cases fault : g.refusal? inputs outputs with
  | some e =>
    rw [fault] at decides
    have failed : (inputs.zipIdx.foldlM (pushInput g) (.empty g) >>=
        outputs.foldlM (searchFrom g)) = .error e := decides
    dsimp only
    rw [failed, Outcome.error_bind]
  | none =>
    rw [fault] at decides
    obtain ⟨r, placed, -⟩ := decides
    obtain ⟨ks, bound⟩ := bind_outputs sound placed
    dsimp only
    rw [placed, Outcome.ok_bind, bound]
    exact ⟨_, rfl⟩

theorem compile_eq_error_iff (sound : g.Sound) {e : Error} :
    compile g inputs outputs = .error e ↔ g.refusal? inputs outputs = some e := by
  have decided := compile_eq sound inputs outputs
  cases fault : g.refusal? inputs outputs with
  | some e' =>
    rw [fault] at decided
    rw [decided, Except.error.injEq, Option.some.injEq]
  | none =>
    rw [fault] at decided
    obtain ⟨p, compiled⟩ := decided
    rw [compiled]
    exact ⟨nofun, nofun⟩

/-- Compiling ends with a plan exactly when inputs and outputs fit each other. Otherwise the error is
their first fault: that of the first input with one, else of the first output with one, and for an
output that is a node, of the first node in depth-first post-order that nothing before has met. The
search never runs out of steps, and handles without a node can only be found among inputs and outputs:
whenever the search is at an operand it is a node, when it is done with the operands of a node they are
placed, and in the end all outputs are. -/
theorem compile_decides (built : g.Built) (inputs outputs : List NodeId) :
    ((∃ p, compile g inputs outputs = .ok p) ↔ g.Admits inputs outputs) ∧
    (∀ e, compile g inputs outputs = .error e ↔ g.refusal? inputs outputs = some e) ∧
    (∀ text, compile g inputs outputs ≠ .error (.internal text)) ∧
    (∀ stack p, Compiling g inputs outputs stack p → Resolved g stack p) ∧
    ∀ r, (inputs.zipIdx.foldlM (pushInput g) (.empty g) >>= outputs.foldlM (searchFrom g)) = .ok r →
      ∃ ks, outputs.mapM r.find = .ok ks := by
  have sound := built.sound
  refine ⟨?_, fun e => compile_eq_error_iff sound, fun text failed => ?_, fun stack p compiling =>
    (compiling.searching sound).resolved sound, fun r => bind_outputs sound⟩
  · have decided := compile_eq sound inputs outputs
    rw [← Graph.refusal?_eq_none_iff sound]
    cases fault : g.refusal? inputs outputs with
    | some e =>
      rw [fault] at decided
      rw [decided]
      exact ⟨nofun, nofun⟩
    | none =>
      rw [fault] at decided
      exact iff_of_true decided rfl
  · have fault := (compile_eq_error_iff sound).mp failed
    rcases Graph.isFault_of_refusal? fault with ⟨_, same⟩ | same <;> cases same

/-- The last output of the graph with sharing needs the symbol `x`, which has to be declared. -/
theorem compile_decides_sharing :
    Graph.sharing.Admits [⟨0⟩] [⟨5⟩] ∧
      Graph.sharing.refusal? [⟨1⟩] [⟨5⟩] = some (.graph (.freeVariable "x" ⟨0⟩)) :=
  ⟨(compile_decides Graph.built_sharing [⟨0⟩] [⟨5⟩]).1.mp ⟨_, rfl⟩,
    ((compile_decides Graph.built_sharing [⟨1⟩] [⟨5⟩]).2.1 _).mp rfl⟩

/-- A declared symbol that is the only output is refused if there is no room for its value. -/
theorem compile_large_symbol (name : String) {shape : Shape} (large : wordLimit ≤ shape.elements) :
    let g : Graph α σ := (Graph.empty.symbol name shape).2
    let x : NodeId := ⟨0⟩
    g.Built ∧ (∃ n, g.node? x = some n ∧ n.kind.isSymbol = true) ∧
      (∀ id n, g.Reaches x id → g.node? id = some n → id ∈ [x]) ∧
      compile g [x] [x] = .error .sizeOverflow := by
  intro g x
  have built : g.Built := .symbol .empty name shape
  have known : g.node? x = some ⟨.symbol name, [], shape⟩ := rfl
  have fault : g.refusal? [x] [x] = some .sizeOverflow := by
    simp [Graph.refusal?, Graph.inputsFault?, Graph.inputFault?, known, NodeKind.isSymbol,
      large.not_gt]
  refine ⟨built, ⟨_, known, rfl⟩, fun id n _ held => ?_, (compile_eq_error_iff built.sound).mpr fault⟩
  have inside : id.index < 1 := (g.node?_eq_some_iff_lt id).mp ⟨n, held⟩
  exact List.mem_singleton.mpr (congrArg NodeId.mk (Nat.lt_one_iff.mp inside))

/-- One such shape is a single column. -/
theorem compile_large_symbol_column :
    let g : Graph Int Unit := (Graph.empty.symbol "x" (1152921504606846976, 1)).2
    let x : NodeId := ⟨0⟩
    g.Built ∧ (∃ n, g.node? x = some n ∧ n.kind.isSymbol = true) ∧
      (∀ id n, g.Reaches x id → g.node? id = some n → id ∈ [x]) ∧
      compile g [x] [x] = .error .sizeOverflow :=
  compile_large_symbol "x" (by decide)

end Plan

end Cotangent
