import Cotangent.Plan.Sweep
import Cotangent.Proofs.Layout
import Cotangent.Proofs.Recursion

/-! A walk over a plan computes what recursion over the graph does. A step that reads the places of
the operands and writes its own may be any sweep's; operands stand before it, so what it reads is
already what the recursion gives, and the first step that fails is the first node of the plan for
which the recursion fails.

Operations are called in the state that earlier calls left. They are oblivious when this state, as
long as it satisfies an invariant that every call keeps, does not show in what they answer. -/
namespace Cotangent

variable {α σ β : Type}

/-- What the operation answers depends on its arguments only. -/
structure Operation.Oblivious (inv : σ → Prop) (op : Operation α σ) : Prop where
  evaluate : ∀ xs, (op.evaluate xs).Oblivious inv
  forwardBatch : ∀ xs y seeds, (op.forwardBatch xs y seeds).Oblivious inv
  adjointBatch : ∀ xs y seeds, (op.adjointBatch xs y seeds).Oblivious inv

/-- A primitive has no state to depend on. -/
theorem Primitive.oblivious (inv : σ → Prop) (p : Primitive α) :
    Operation.Oblivious inv p.operation where
  evaluate _ := .ofExcept _
  forwardBatch _ _ seeds := .mapM seeds fun _ => .ofExcept _
  adjointBatch _ _ seeds := .mapM seeds fun _ => .ofExcept _

/-- So it is for every operation that some output needs. -/
def Graph.Oblivious (g : Graph α σ) (outputs : List NodeId) (inv : σ → Prop) : Prop :=
  ∀ id n op, g.Applied outputs id n op → op.Oblivious inv

theorem Graph.Stateless.oblivious {g : Graph α σ} (stateless : g.Stateless)
    (outputs : List NodeId) (inv : σ → Prop) : g.Oblivious outputs inv := by
  intro id n op applied
  obtain ⟨p, rfl⟩ := stateless id n op applied.known applied.kind
  exact p.oblivious inv

/-- An oblivious call answers what it answers in any other state, and leaves the numbers alone. -/
theorem Sweep.post_call {act : Slots α → Run σ β} {inv : σ → Prop} {s : Slots α} {w w₀ : σ}
    (oblivious : (act s).Oblivious inv) (hw : inv w) (hw₀ : inv w₀) :
    Run.Post (Sweep.call act) (s, w)
      (fun x t => (act s w₀).1 = .ok x ∧ t.1 = s ∧ inv t.2)
      (fun x t => (act s w₀).1 = .error x ∧ t.1 = s ∧ inv t.2) := by
  obtain ⟨same, kept, -⟩ := oblivious w w₀ ⟨hw, hw₀⟩
  simp only [Run.Post, Sweep.call]
  rcases ran : act s w with ⟨x | x, w'⟩ <;> rw [ran] at same kept <;> exact ⟨same.symm, rfl, kept⟩

namespace Plan

variable {g : Graph α σ} {inputs outputs : List NodeId} {p : Plan α σ}

theorem getElem?_placed {i : Nat} {x : Entry α σ × Nat} :
    p.placed[i]? = some x ↔ p.entries[i]? = some x.1 ∧ x.2 = i := by
  rw [placed, getElem?_zipIdx_iff, Array.getElem?_toList]

/-- The positions of the operands of an entry hold the operands. -/
theorem Layout.operands (layout : p.Layout g inputs outputs) {k : Nat} {e : Entry α σ}
    {n : Node α σ} (at_k : p.entries[k]? = some e) (known : g.node? e.node = some n) :
    e.kind = n.kind ∧ e.shape = n.shape ∧ List.Forall₂ (fun c j =>
      j < k ∧ ∃ e', p.entries[j]? = some e' ∧ e'.node = c) n.children e.children := by
  obtain ⟨n', known', kind, shape, operands⟩ := layout.entry k e at_k
  cases known.symm.trans known'
  exact ⟨kind, shape, operands.imp fun c j h => ⟨h.2, (layout.find?_iff c j).mp h.1⟩⟩

theorem Layout.known (layout : p.Layout g inputs outputs) {k : Nat} {e : Entry α σ}
    (at_k : p.entries[k]? = some e) : ∃ n, g.node? e.node = some n := by
  obtain ⟨n, known, -⟩ := layout.entry k e at_k
  exact ⟨n, known⟩

/-- An entry is there for an input or for some output. -/
theorem Layout.origin (layout : p.Layout g inputs outputs) {k : Nat} {e : Entry α σ}
    (at_k : p.entries[k]? = some e) : e.node ∈ inputs ∨ ∃ o ∈ outputs, g.Reaches o e.node :=
  (layout.mem_iff e.node).mp (List.mem_map_of_mem (Array.mem_toList_iff.mpr
    (Array.mem_of_getElem? at_k)))

/-- An entry that applies an operation is there for some output, since inputs are symbols. -/
theorem Layout.applied (layout : p.Layout g inputs outputs) {k : Nat} {e : Entry α σ}
    {n : Node α σ} {op : Operation α σ} (at_k : p.entries[k]? = some e)
    (known : g.node? e.node = some n) (what : e.kind = .apply op) :
    g.Applied outputs e.node n op := by
  refine ⟨?_, known, (layout.operands at_k known).1 ▸ what⟩
  rcases layout.origin at_k with declared | needed
  · obtain ⟨i, at_i⟩ := List.mem_iff_getElem?.mp declared
    have here := (layout.find?_iff e.node k).mpr ⟨e, at_k, rfl⟩
    cases here.symm.trans (layout.front i e.node at_i)
    have symbol := (layout.symbol_iff k e at_k).mpr (List.getElem?_eq_some_iff.mp at_i).1
    simp [what, NodeKind.isSymbol] at symbol
  · exact needed

/-- The recursion for the node of an entry, when the places of its operands are right. -/
theorem Layout.recurse_eq (layout : p.Layout g inputs outputs) (sound : g.Sound)
    {rule : NodeId → Node α σ → List β → Except Error β} {read : Nat → β} {k : Nat}
    {e : Entry α σ} {n : Node α σ} (at_k : p.entries[k]? = some e)
    (known : g.node? e.node = some n)
    (done : ∀ (j : Nat) e', j < k → p.entries[j]? = some e' →
      g.recurse rule e'.node = .ok (read j)) :
    n.children.mapM (g.recurse rule) = .ok (e.children.map read) ∧
      g.recurse rule e.node = rule e.node n (e.children.map read) := by
  obtain ⟨-, -, operands⟩ := layout.operands at_k known
  have right : n.children.mapM (g.recurse rule) = .ok (e.children.map read) := by
    rw [Outcome.mapM_eq_ok, List.forall₂_map_right_iff]
    refine operands.imp ?_
    intro c j h
    obtain ⟨less, e', at_j, rfl⟩ := h
    exact done j e' less at_j
  rw [Graph.recurse_eq sound known, right]
  exact ⟨rfl, rfl⟩

/-- A walk whose steps follow a rule gives every place what the recursion gives its node, or stops at
the first node for which the recursion fails. What a step keeps may speak of its place. -/
theorem post_walk_at {τ : Type} (layout : p.Layout g inputs outputs) (sound : g.Sound)
    (rule : NodeId → Node α σ → List β → Except Error β) (read : τ → Nat → β)
    {step : Entry α σ × Nat → Run τ Unit} (I F : Nat → τ → Prop) {s : τ}
    (follows : ∀ (k : Nat) e n s, p.entries[k]? = some e → g.node? e.node = some n → I k s →
      Run.Post (step (e, k)) s
        (fun _ t => I (k + 1) t ∧ rule e.node n (e.children.map (read s)) = .ok (read t k) ∧
          ∀ j, j ≠ k → read t j = read s j)
        (fun x t => F k t ∧ rule e.node n (e.children.map (read s)) = .error x))
    (start : I 0 s) :
    Run.Post (p.placed.forM step) s
      (fun _ t => I p.entries.size t ∧ ∀ (k : Nat) e, p.entries[k]? = some e →
        g.recurse rule e.node = .ok (read t k))
      (fun x t => ∃ (k : Nat) (e : Entry α σ), p.entries[k]? = some e ∧ F k t ∧
        g.recurse rule e.node = .error x ∧ ∀ (j : Nat) e', j < k → p.entries[j]? = some e' →
          ∃ y, g.recurse rule e'.node = .ok y) := by
  -- the places behind the walk are right, so what the next step reads is right
  refine Run.Post.forM (fun i s => I i s ∧ ∀ (k : Nat) e, k < i → p.entries[k]? = some e →
    g.recurse rule e.node = .ok (read s k)) ⟨start, fun k e less => absurd less (by omega)⟩
    ?_ ?_
  · rintro i ⟨e, i'⟩ t at_i ⟨holds, done⟩
    obtain ⟨at_i, rfl⟩ := getElem?_placed.mp at_i
    obtain ⟨n, known⟩ := layout.known at_i
    have here := (layout.recurse_eq sound at_i known fun j e' => done j e').2
    refine (follows _ e n t at_i known holds).imp ?_ ?_
    · rintro _ t' ⟨holds', right, others⟩
      refine ⟨holds', ?_⟩
      intro j e' less at_j
      rcases Nat.lt_succ_iff_lt_or_eq.mp less with earlier | rfl
      · rw [others j (Nat.ne_of_lt earlier)]
        exact done j e' earlier at_j
      · cases at_i.symm.trans at_j
        rw [here, right]
    · rintro x t' ⟨holds', wrong⟩
      exact ⟨_, e, at_i, holds', here.trans wrong, fun j e' earlier at_j =>
        ⟨_, done j e' earlier at_j⟩⟩
  · rintro t ⟨holds, done⟩
    rw [placed, List.length_zipIdx, Array.length_toList] at holds done
    exact ⟨holds, fun k e at_k => done k e (Array.getElem?_eq_some_iff.mp at_k).1 at_k⟩

/-- Where the walk keeps one invariant, it fails as the recursion fails on the nodes of the plan in
order. -/
theorem post_walk (layout : p.Layout g inputs outputs) (sound : g.Sound)
    {rule : NodeId → Node α σ → List β → Except Error β} {read : Slots α → Nat → β}
    {step : Entry α σ × Nat → Sweep α σ Unit} {I : Slots α × σ → Prop} {s : Slots α × σ}
    (follows : ∀ (k : Nat) e n s, p.entries[k]? = some e → g.node? e.node = some n → I s →
      Run.Post (step (e, k)) s
        (fun _ t => I t ∧ rule e.node n (e.children.map (read s.1)) = .ok (read t.1 k) ∧
          ∀ j, j ≠ k → read t.1 j = read s.1 j)
        (fun x t => I t ∧ rule e.node n (e.children.map (read s.1)) = .error x))
    (start : I s) :
    Run.Post (p.placed.forM step) s
      (fun _ t => I t ∧ ∀ (k : Nat) e, p.entries[k]? = some e →
        g.recurse rule e.node = .ok (read t.1 k))
      (fun x t => I t ∧ p.entries.toList.mapM (fun e => g.recurse rule e.node) = .error x) := by
  refine (post_walk_at layout sound rule (fun s => read s.1) (fun _ => I) (fun _ => I)
    follows start).imp (fun _ _ => id) ?_
  rintro x t ⟨k, e, at_k, holds, failed, earlier⟩
  refine ⟨holds, Outcome.mapM_error_at (Array.getElem?_toList .. ▸ at_k) failed ?_⟩
  intro j e' less at_j
  exact earlier j e' less (Array.getElem?_toList .. ▸ at_j)

end Plan

end Cotangent
