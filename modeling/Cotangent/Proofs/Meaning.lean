import Cotangent.Proofs.Directions
import Cotangent.Proofs.History

/-! A program means its graph. What it answers for values and sensitivities of its outputs is what
recursion over the graph gives, sharing and order of the plan notwithstanding, and it answers
exactly when the recursion does. -/
namespace Cotangent

variable {α σ : Type}

namespace Plan

variable {g : Graph α σ} {inputs outputs : List NodeId} {p : Plan α σ} {w : σ}
  {xs : List (DenseMatrix α)} {id : NodeId}

theorem Layout.input_at (layout : p.Layout g inputs outputs) {i : Nat}
    (at_i : inputs[i]? = some id) :
    ∃ e n, p.entries[i]? = some e ∧ g.node? id = some n ∧ e.shape = n.shape ∧
      n.kind.isSymbol = true := by
  obtain ⟨e, at_k, rfl⟩ := (layout.find?_iff _ i).mp (layout.front i id at_i)
  obtain ⟨n, known⟩ := layout.known at_k
  obtain ⟨kind, shape, -⟩ := layout.operands at_k known
  have inside := (List.getElem?_eq_some_iff.mp at_i).1
  exact ⟨e, n, at_k, known, shape, kind ▸ (layout.symbol_iff i e at_k).mpr inside⟩

/-- Fitting matrices are supplied in the shapes of the inputs. -/
theorem Layout.supplies (layout : p.Layout g inputs outputs) (fitting : p.Fitting p.inputs xs) :
    g.Supplies (Graph.supplied inputs xs) := by
  intro id n m known found
  rw [layout.inputs_eq] at fitting
  obtain ⟨length, fits⟩ := List.forall₂_iff_get.mp fitting
  obtain ⟨inside, rfl⟩ := List.getElem?_eq_some_iff.mp found
  rw [List.length_range] at length
  have front : inputs.idxOf id < inputs.length := length ▸ inside
  have at_i : inputs[inputs.idxOf id]? = some id := by simp [front]
  obtain ⟨e, n', at_k, known', shape, -⟩ := layout.input_at at_i
  cases known.symm.trans known'
  obtain ⟨e', at_k', fit⟩ := fits (inputs.idxOf id) (by simpa using front) inside
  simp only [List.get_eq_getElem, List.getElem_range] at at_k' fit
  cases at_k.symm.trans at_k'
  exact fit.trans shape

/-- A declared input is a symbol. -/
theorem Layout.symbol_of_mem (layout : p.Layout g inputs outputs) (declared : id ∈ inputs) :
    ∃ n name, g.node? id = some n ∧ n.kind = .symbol name := by
  obtain ⟨i, at_i⟩ := List.mem_iff_getElem?.mp declared
  obtain ⟨e, n, -, known, -, symbol⟩ := layout.input_at at_i
  cases kind : n.kind with
  | symbol name => exact ⟨n, name, known, kind⟩
  | constant | apply => simp [kind, NodeKind.isSymbol] at symbol

theorem Layout.lt_size (layout : p.Layout g inputs outputs) {e : Entry α σ}
    (member : e ∈ p.entries.toList) : e.node.index < g.size := by
  obtain ⟨k, at_k⟩ := List.mem_iff_getElem?.mp member
  exact (g.node?_eq_some_iff_lt _).mp (layout.known (Array.getElem?_toList .. ▸ at_k))

/-- What the places of a plan read, its outputs have. -/
theorem Layout.mapM_outputs {β : Type} {rule : NodeId → Except Error β} {read : Nat → β}
    (layout : p.Layout g inputs outputs)
    (right : ∀ (k : Nat) e, p.entries[k]? = some e → rule e.node = .ok (read k)) :
    outputs.mapM rule = .ok (p.outputs.map read) := by
  rw [Outcome.mapM_eq_ok, List.forall₂_map_right_iff]
  refine layout.outputs_at.imp ?_
  intro o k found
  obtain ⟨e, at_k, rfl⟩ := (layout.find?_iff o k).mp found
  exact right k e at_k

end Plan

namespace Program

variable {g : Graph α σ} {inputs outputs : List NodeId} {p : Plan α σ} {inv : σ → Prop}
  {w w₀ : σ} {f f₀ : Program α σ} {xs : List (DenseMatrix α)} {seeds : List (List (DenseMatrix α))}

theorem supplies_directions (setting : p.Setting g inputs outputs inv w₀)
    (seeding : ∀ direction ∈ seeds, p.Fitting p.inputs direction) :
    ∀ seed ∈ seeds.map (Graph.supplied inputs), g.Supplies seed := by
  intro seed member
  obtain ⟨direction, along, rfl⟩ := List.mem_map.mp member
  exact setting.layout.supplies (seeding direction along)

variable [Scalar α]

/-- Rows that are right list the sensitivities along every direction. -/
theorem tangent_of_rows (setting : p.Setting g inputs outputs inv w₀)
    (splits : g.ForwardSplits outputs inv) (fitting : p.Fitting p.inputs xs)
    (seeding : ∀ direction ∈ seeds, p.Fitting p.inputs direction) {s : Slots α}
    (current : s.Current p w₀ (Graph.supplied inputs xs))
    (rows : ∀ (k : Nat) e, p.entries[k]? = some e → g.recurse (g.rowRule w₀
      (Graph.supplied inputs xs) (seeds.map (Graph.supplied inputs))) e.node =
        .ok (s.row seeds.length k))
    {d : Nat} {direction : List (DenseMatrix α)} (at_d : seeds[d]? = some direction) (k : Nat)
    (e : Entry α σ) (at_k : p.entries[k]? = some e) :
    g.tangent w₀ (Graph.supplied inputs xs) (Graph.supplied inputs direction) e.node =
      .ok (s.forward d k) := by
  obtain ⟨few, rfl⟩ := List.getElem?_eq_some_iff.mp at_d
  have along : List.Forall₂ (fun seed m => g.tangent w₀ (Graph.supplied inputs xs) seed e.node =
      .ok m) (seeds.map (Graph.supplied inputs)) (s.row seeds.length k) := by
    rcases setting.layout.origin at_k with declared | needed
    · obtain ⟨n, name, known, kind⟩ := setting.layout.symbol_of_mem declared
      exact (Graph.row_leaf_iff setting.sound known (by simp [kind]) _).mp (rows k e at_k)
    · exact Graph.tangents_of_row setting.sound splits setting.state
        (setting.layout.supplies fitting) (supplies_directions setting seeding) needed
        ⟨_, setting.layout.current current at_k⟩ (rows k e at_k)
  have entry := (List.forall₂_iff_get.mp along).2 d (by simpa using few)
    (by simpa [Slots.row] using few)
  simpa [Slots.row] using entry

end Program

end Cotangent
