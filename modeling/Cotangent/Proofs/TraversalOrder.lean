import Cotangent.Plan.CursorSearch
import Cotangent.Proofs.Refusals

/-! The stack of the compiler against the recursion. The stack is a path of ever older nodes that are not
placed, so a node that is put on it is new, and it is placed when it leaves. The nodes put on the stack are
therefore those that the recursion adds, each of them once, and a search has one turn for every node and one
for every operand. -/
namespace Cotangent

variable {α σ : Type} {g : Graph α σ} {inputs outputs : List NodeId}

namespace Placement

variable {p p' : Placement α σ} {journal : Journal α σ} {stack stack' : List (Frame α σ)} {id c root : NodeId}
  {n m : Node α σ} {left : List NodeId} {cs : List Nat} {fuel : Nat}

/-- A stack, its top first, is a path down the operands of a node, along strictly smaller handles and
through nodes that have no position yet. -/
structure IsPath (g : Graph α σ) (stack : List (NodeId × Nat)) (p : Placement α σ) : Prop where
  linked : stack.IsChain fun above below => g.Operand below.1 above.1
  decreasing : stack.Pairwise fun above below => above.1.index < below.1.index
  distinct : (stack.map (·.1)).Nodup
  new : ∀ frame ∈ stack, p.find? frame.1 = none

/-- A node on the path with the number of its operands looked at. -/
def cursor (f : Frame α σ) : NodeId × Nat := (f.id, f.node.children.length - f.left.length)

/-- The turns that a node takes: one for every operand, and one to leave the stack. -/
def share (g : Graph α σ) (id : NodeId) : Nat := operands g id.index + 1

/-- A search after some turns and with the journal that it has kept. -/
structure Noting (g : Graph α σ) (inputs : List NodeId) (stack : List (Frame α σ)) (p : Placement α σ)
    (journal : Journal α σ) : Prop where
  searching : Searching g stack p
  suffix : ∀ f ∈ stack, f.left <:+ f.node.children
  linked : (stack.map (·.id)).IsChain fun above below => g.Operand below above
  /-- The nodes put on the stack are still there or placed. -/
  pushed : ∃ fresh, p.order = inputs ++ fresh ∧ journal.pushed.Perm (stack.map (·.id) ++ fresh)
  count : journal.turns.length + (stack.map fun f => f.left.length + 1).sum =
    (journal.pushed.map (share g)).sum
  turns : ∀ turn ∈ journal.turns, IsPath g turn.1 turn.2
  dropped : journal.dropped = []

namespace Noting

theorem isPath (noting : Noting g inputs stack p journal) : IsPath g (stack.map cursor) p := by
  have searching := noting.searching
  have names : (stack.map cursor).map (·.1) = stack.map (·.id) := by
    rw [List.map_map]
    rfl
  constructor
  case linked => exact (List.isChain_map Prod.fst).mp (names ▸ noting.linked)
  case decreasing => exact List.pairwise_map.mpr searching.older
  case distinct =>
    rw [names]
    exact List.pairwise_map.mpr (searching.older.imp fun less same => less.ne (congrArg NodeId.index same))
  case new =>
    intro frame member
    obtain ⟨f, there, rfl⟩ := List.mem_map.mp member
    exact searching.valid.notMem_order.mp (searching.new f there)

/-- A turn is noted with the path at its beginning. -/
theorem turns_turn (noting : Noting g inputs stack p journal) :
    ∀ turn ∈ (journal.turn (stack.map cursor) p).turns, IsPath g turn.1 turn.2 :=
  List.forall_mem_cons.mpr ⟨noting.isPath, noting.turns⟩

/-- An operand that is placed is passed over. -/
theorem skip (noting : Noting g inputs (⟨id, n, c :: left⟩ :: stack) p journal)
    (placed : (p.find? c).isSome = true) : Noting g inputs (⟨id, n, left⟩ :: stack) p
      (journal.turn ((⟨id, n, c :: left⟩ :: stack).map cursor) p) := by
  have searching := noting.searching
  obtain ⟨top, below⟩ := List.forall_mem_cons.mp noting.suffix
  constructor
  case searching => exact searching.skip (searching.valid.mem_order.mpr placed)
  case suffix => exact List.forall_mem_cons.mpr ⟨(List.suffix_cons c left).trans top, below⟩
  case linked => exact noting.linked
  case pushed => exact noting.pushed
  case count =>
    have count := noting.count
    simp only [Journal.turn, List.map_cons, List.sum_cons, List.length_cons] at count ⊢
    omega
  case turns => exact noting.turns_turn
  case dropped => exact noting.dropped

/-- An operand that is not placed goes on the stack. -/
theorem descend (noting : Noting g inputs (⟨id, n, c :: left⟩ :: stack) p journal) (sound : g.Sound)
    (new : p.find? c = none) (known : g.node? c = some m) :
    Noting g inputs (⟨c, m, m.children⟩ :: ⟨id, n, left⟩ :: stack) p
      ((journal.turn ((⟨id, n, c :: left⟩ :: stack).map cursor) p).push c) := by
  have searching := noting.searching
  obtain ⟨top, below⟩ := List.forall_mem_cons.mp noting.suffix
  obtain ⟨fresh, order, pushed⟩ := noting.pushed
  constructor
  case searching => exact searching.descend sound (searching.valid.notMem_order.mpr new) known
  case suffix =>
    exact List.forall_mem_cons.mpr ⟨List.suffix_rfl,
      List.forall_mem_cons.mpr ⟨(List.suffix_cons c left).trans top, below⟩⟩
  case linked =>
    obtain ⟨below, -⟩ := List.forall_mem_cons.mp searching.known
    have operand : g.Operand id c := ⟨n, below, top.subset List.mem_cons_self⟩
    exact List.isChain_cons_cons.mpr ⟨operand, noting.linked⟩
  case pushed => exact ⟨fresh, order, pushed.cons c⟩
  case count =>
    have count := noting.count
    have own : share g c = m.children.length + 1 := congrArg (· + 1) (operands_eq known)
    simp only [Journal.turn, Journal.push, List.map_cons, List.sum_cons, List.length_cons, own]
      at count ⊢
    omega
  case turns => exact noting.turns_turn
  case dropped => exact noting.dropped

/-- A node whose operands are looked at leaves the stack and is placed. -/
theorem finish (noting : Noting g inputs (⟨id, n, []⟩ :: stack) p journal)
    (placed : List.Forall₂ (fun c j => p.find? c = some j) n.children cs) :
    Noting g inputs stack (p.push id n cs)
      (journal.turn ((⟨id, n, []⟩ :: stack).map cursor) p) := by
  obtain ⟨fresh, order, pushed⟩ := noting.pushed
  constructor
  case searching => exact noting.searching.finish placed
  case suffix => exact (List.forall_mem_cons.mp noting.suffix).2
  case linked => exact noting.linked.tail
  case pushed =>
    have moved : (id :: (stack.map (·.id) ++ fresh)).Perm (stack.map (·.id) ++ (fresh ++ [id])) := by
      rw [← List.append_assoc]
      exact (List.perm_append_singleton id _).symm
    exact ⟨fresh ++ [id], by rw [order_push, order, List.append_assoc], pushed.trans moved⟩
  case count =>
    have count := noting.count
    simp only [Journal.turn, List.map_cons, List.sum_cons, List.length_cons, List.length_nil]
      at count ⊢
    omega
  case turns => exact noting.turns_turn
  case dropped => exact noting.dropped

/-- The cursor of a frame is at the first operand not looked at yet. -/
theorem operand_at_cursor {f : Frame α σ} (suffix : f.left <:+ f.node.children) :
    f.node.children[(cursor f).2]? = f.left.head? := by
  obtain ⟨before, split⟩ := suffix
  rw [cursor, ← split, List.length_append, Nat.add_sub_cancel,
    List.getElem?_append_right before.length.le_refl, Nat.sub_self, List.head?_eq_getElem?]

/-- A turn of the search with cursors, told by what is left of the operands. -/
theorem searchNoted_cons {f : Frame α σ} (known : g.node? f.id = some f.node)
    (suffix : f.left <:+ f.node.children) (below : List (NodeId × Nat)) (fuel : Nat) :
    searchNoted g (fuel + 1) (cursor f :: below) (p, journal) =
      let noted := journal.turn (cursor f :: below) p
      match f.left with
      | c :: left =>
        let passed := cursor ⟨f.id, f.node, left⟩ :: below
        if (p.find? c).isSome then searchNoted g fuel passed (p, noted)
        else searchNoted g fuel ((c, 0) :: passed) (p, noted.push c)
      | [] =>
        if (p.find? f.id).isSome then searchNoted g fuel below (p, noted.drop f.id)
        else p.finish f.id f.node >>= fun p => searchNoted g fuel below (p, noted) := by
  have operand := operand_at_cursor suffix
  obtain ⟨id, n, left⟩ := f
  change searchNoted g (fuel + 1) ((id, _) :: below) (p, journal) = _
  rw [searchNoted, Graph.node_eq_ok.mpr known, Outcome.ok_bind]
  cases left with
  | nil =>
    simp only [cursor, List.head?_nil] at operand ⊢
    rw [operand]
  | cons c left =>
    have next : n.children.length - (c :: left).length + 1 = n.children.length - left.length := by
      have enough := suffix.length_le
      simp only [List.length_cons] at enough ⊢
      omega
    simp only [cursor, List.head?_cons] at operand ⊢
    rw [operand, next]

/-- A step of the search is a turn of the search with cursors. -/
theorem step (noting : Noting g inputs stack p journal) (sound : g.Sound)
    (step : Step g stack p stack' p') :
    ∃ journal', Noting g inputs stack' p' journal' ∧
      ∀ fuel, searchNoted g (fuel + 1) (stack.map cursor) (p, journal) =
        searchNoted g fuel (stack'.map cursor) (p', journal') := by
  have searching := noting.searching
  cases step with
  | @skip id c n left stack _ placed =>
    refine ⟨_, noting.skip placed, fun fuel => ?_⟩
    rw [List.map_cons, searchNoted_cons (searching.known _ List.mem_cons_self)
      (noting.suffix _ List.mem_cons_self)]
    exact if_pos placed
  | @descend id c n m left stack _ new known =>
    refine ⟨_, noting.descend sound new known, fun fuel => ?_⟩
    have first : cursor ⟨c, m, m.children⟩ = (c, 0) := by rw [cursor, Nat.sub_self]
    rw [List.map_cons, searchNoted_cons (searching.known _ List.mem_cons_self)
      (noting.suffix _ List.mem_cons_self), List.map_cons, List.map_cons, first]
    exact if_neg (Option.not_isSome_iff_eq_none.mpr new)
  | drop placed =>
    exact absurd (searching.valid.mem_order.mpr placed) (searching.new _ List.mem_cons_self)
  | @finish id n _ _ _ new finished =>
    obtain ⟨-, -, cs, rfl, placed⟩ := finish_eq_ok finished
    refine ⟨_, noting.finish placed, fun fuel => ?_⟩
    rw [List.map_cons, searchNoted_cons (searching.known _ List.mem_cons_self)
      (noting.suffix _ List.mem_cons_self)]
    dsimp only
    rw [if_neg (Option.not_isSome_iff_eq_none.mpr new), finished, Outcome.ok_bind]

/-- A search that ends has put every node on the stack that it has placed. -/
theorem run (noting : Noting g inputs stack p journal) (sound : g.Sound)
    (found : search g fuel stack p = .ok p') :
    ∃ journal', Noting g inputs [] p' journal' ∧ ∀ extra,
      searchNoted g (fuel + extra) (stack.map cursor) (p, journal) = .ok (p', journal') := by
  induction fuel generalizing stack p journal with
  | zero =>
    cases stack with
    | nil =>
      cases found
      exact ⟨journal, noting, fun extra => by rw [List.map_nil, searchNoted]⟩
    | cons f stack => cases found
  | succ fuel ih =>
    cases stack with
    | nil =>
      cases found
      exact ⟨journal, noting, fun extra => by rw [List.map_nil, searchNoted]⟩
    | cons f stack =>
      rcases noting.searching.cases sound with ⟨stack', p₁, step⟩ | ⟨e, -, -, failed⟩
      · rw [search_step step] at found
        obtain ⟨journal₁, noting₁, turn⟩ := noting.step sound step
        obtain ⟨journal', ended, rest⟩ := ih noting₁ found
        refine ⟨journal', ended, fun extra => ?_⟩
        rw [Nat.add_right_comm, turn, rest]
      · rw [failed fuel] at found
        cases found

/-- Between the searches the next root goes on the empty stack. -/
theorem start (noting : Noting g inputs [] p journal) (known : g.node? root = some n)
    (new : p.find? root = none) :
    Noting g inputs [⟨root, n, n.children⟩] p (journal.push root) := by
  have valid := noting.searching.valid
  obtain ⟨fresh, order, pushed⟩ := noting.pushed
  constructor
  case searching => exact .start valid known (valid.notMem_order.mpr new)
  case suffix => exact List.forall_mem_singleton.mpr List.suffix_rfl
  case linked => exact List.isChain_singleton root
  case pushed => exact ⟨fresh, order, pushed.cons root⟩
  case count =>
    have count := noting.count
    have own : share g root = n.children.length + 1 := congrArg (· + 1) (operands_eq known)
    simp only [Journal.push, List.map_cons, List.map_nil, List.sum_cons, List.sum_nil, own] at count ⊢
    omega
  case turns => exact noting.turns
  case dropped => exact noting.dropped

/-- A search from one output. -/
theorem searchFrom (noting : Noting g inputs [] p journal) (sound : g.Sound)
    (found : searchFrom g p root = .ok p') :
    ∃ journal', Noting g inputs [] p' journal' ∧
      ∀ extra, searchFromNoted extra g (p, journal) root = .ok (p', journal') := by
  obtain ⟨n, node, found⟩ := Outcome.bind_eq_ok.mp found
  by_cases placed : (p.find? root).isSome = true
  · rw [if_pos placed, Except.ok.injEq] at found
    subst found
    refine ⟨journal, noting, fun extra => ?_⟩
    rw [searchFromNoted, node, Outcome.ok_bind]
    exact if_pos placed
  · rw [if_neg placed] at found
    have new := Option.not_isSome_iff_eq_none.mp placed
    obtain ⟨journal', ended, run⟩ := (noting.start (Graph.node_eq_ok.mp node) new).run sound found
    refine ⟨journal', ended, fun extra => ?_⟩
    rw [searchFromNoted, node, Outcome.ok_bind, if_neg placed, ← run extra, List.map_cons,
      List.map_nil, cursor, Nat.sub_self]

theorem searches (noting : Noting g inputs [] p journal) (sound : g.Sound)
    (found : outputs.foldlM (Placement.searchFrom g) p = .ok p') :
    ∃ journal', Noting g inputs [] p' journal' ∧
      ∀ extra, outputs.foldlM (searchFromNoted extra g) (p, journal) = .ok (p', journal') := by
  induction outputs generalizing p journal with
  | nil =>
    cases found
    exact ⟨journal, noting, fun _ => rfl⟩
  | cons root rest ih =>
    obtain ⟨p₁, first, later⟩ := Outcome.bind_eq_ok.mp found
    obtain ⟨journal₁, noting₁, first⟩ := noting.searchFrom sound first
    obtain ⟨journal', ended, later⟩ := ih noting₁ later
    refine ⟨journal', ended, fun extra => ?_⟩
    rw [List.foldlM_cons, first extra]
    exact later extra

/-- Before the first search the inputs are placed and nothing is noted. -/
theorem blank (valid : Valid g p) (order : p.order = inputs) : Noting g inputs [] p .blank where
  searching := ⟨valid, nofun, nofun, .nil, nofun, nofun⟩
  suffix := nofun
  linked := .nil
  pushed := ⟨[], by rw [order, List.append_nil], .nil⟩
  count := rfl
  turns := nofun
  dropped := rfl

end Noting

end Placement

namespace Plan

open Placement

/-- The stack of the compiler does what the recursion does. Behind the inputs the plan has what the visits
of the outputs add, in their order. At every turn the stack is a path of distinct nodes along operands, each
strictly older than the one below it and none of them placed. So no node leaves the stack because it was
placed in the meantime, the nodes put on the stack are those behind the inputs, each of them once, and the
searches end: they take one turn for every such node and one for each of its operands, however many
they are allowed. -/
theorem traversal_refines_recursion {p : Plan α σ} (built : g.Built)
    (compiled : compile g inputs outputs = .ok p) :
    ∃ (fresh : List NodeId) (journal : Journal α σ),
      outputs.foldl g.visit inputs = inputs ++ fresh ∧
      p.entries.toList.map (·.node) = inputs ++ fresh ∧
      (∀ extra, compileNoted extra g inputs outputs = .ok (p, journal)) ∧
      (∀ turn ∈ journal.turns, IsPath g turn.1 turn.2) ∧
      journal.dropped = [] ∧
      journal.pushed.Nodup ∧ journal.pushed.Perm fresh ∧
      journal.turns.length = (fresh.map (share g)).sum := by
  have sound := built.sound
  obtain ⟨q, front, r, rest, ks, found, rfl⟩ := compile_eq_ok compiled
  have outputs_found : outputs.mapM r.find = .ok ks :=
    Outcome.mapM_eq_ok.mpr (found.imp fun _ _ => find_eq_ok.mpr)
  obtain ⟨-, valid, order⟩ := (front ▸ place_inputs sound inputs).of_ok
  obtain ⟨-, -, visited⟩ := (rest ▸ search_outputs valid sound outputs).of_ok
  rw [order] at visited
  obtain ⟨journal, ended, noted⟩ := (Noting.blank valid order).searches sound rest
  obtain ⟨fresh, placed, pushed⟩ := ended.pushed
  have distinct : (inputs ++ fresh).Nodup := placed ▸ nodup_nodes ended.searching.valid
  have visits : outputs.foldl g.visit inputs = inputs ++ fresh := visited.symm.trans placed
  have noted : ∀ extra, compileNoted extra g inputs outputs =
      .ok (⟨g, r.entries, r.position, List.range inputs.length, ks⟩, journal) := by
    intro extra
    rw [compileNoted, front, Outcome.ok_bind, noted extra, Outcome.ok_bind]
    dsimp only
    rw [outputs_found]
    rfl
  have count : journal.turns.length = (fresh.map (share g)).sum := by
    have count := ended.count
    rw [List.map_nil, List.sum_nil, Nat.add_zero] at count
    exact count.trans (pushed.map _).sum_eq
  exact ⟨fresh, journal, visits, placed, noted, ended.turns, ended.dropped,
    pushed.nodup_iff.mpr (List.nodup_append.mp distinct).2.1, pushed, count⟩

/-- In the graph with sharing the product is output twice, and the square before it and by itself. -/
theorem traversal_refines_recursion_sharing :
    ∃ p journal, (∀ extra, compileNoted extra Graph.sharing [⟨0⟩, ⟨1⟩] [⟨5⟩, ⟨3⟩, ⟨5⟩, ⟨0⟩, ⟨2⟩] =
        .ok (p, journal)) ∧
      p.entries.toList.map (·.node) = [⟨0⟩, ⟨1⟩, ⟨3⟩, ⟨2⟩, ⟨4⟩, ⟨5⟩] ∧ journal.dropped = [] := by
  obtain ⟨p, compiled⟩ : ∃ p, compile Graph.sharing [⟨0⟩, ⟨1⟩] [⟨5⟩, ⟨3⟩, ⟨5⟩, ⟨0⟩, ⟨2⟩] = .ok p :=
    ⟨_, rfl⟩
  obtain ⟨-, journal, -, -, noted, -, dropped, -⟩ :=
    traversal_refines_recursion Graph.built_sharing compiled
  have listed : p.entries.toList.map (·.node) = [⟨0⟩, ⟨1⟩, ⟨3⟩, ⟨2⟩, ⟨4⟩, ⟨5⟩] := by
    cases compiled
    rfl
  exact ⟨p, journal, noted, listed, dropped⟩

end Plan

end Cotangent
