import Mathlib.Data.List.Basic
import Cotangent.Capacity
import Cotangent.Proofs.Arena

/-! Post-order by recursion. A visit of a node adds what the node reaches and nothing before has reached,
operands first and from left to right, and the node itself last. Together with the declared inputs the
visits of all outputs say in which order nodes are looked at, and so which of their faults is the first;
there is none exactly when inputs and outputs fit each other. -/
namespace Cotangent.Graph

variable {α σ : Type} {g : Graph α σ} {done inputs outputs : List NodeId} {id c x : NodeId}
  {n : Node α σ}

/-- What is met after a visit of a node, if some nodes are met already. -/
def visit (g : Graph α σ) (done : List NodeId) (id : NodeId) : List NodeId :=
  match g.node? id with
  | none => done
  | some n =>
    if id ∈ done then done
    else
      n.children.foldl
        (fun done c => if _older : c.index < id.index then visit g done c else done) done ++ [id]
termination_by id.index

theorem visit_of_mem (met : id ∈ done) : g.visit done id = done := by
  rw [visit]
  split
  · rfl
  · exact if_pos met

theorem visit_eq (sound : g.Sound) (known : g.node? id = some n) (new : id ∉ done) :
    g.visit done id = n.children.foldl g.visit done ++ [id] := by
  rw [visit, known]
  refine (if_neg new).trans (congrArg (· ++ [id]) (List.foldl_ext _ _ done fun done c member => ?_))
  exact dif_pos ((sound id n known).child_lt c member)

theorem mem_visit (sound : g.Sound) (known : g.node? id = some n) : id ∈ g.visit done id := by
  by_cases met : id ∈ done
  · rwa [visit_of_mem met]
  · simp [visit_eq sound known met]

/-! ### What a visit adds -/

/-- A visit keeps what is met and adds nodes that are not younger. -/
theorem exists_fresh (sound : g.Sound) (done : List NodeId) (id : NodeId) :
    ∃ fresh, g.visit done id = done ++ fresh ∧ ∀ x ∈ fresh, x.index ≤ id.index := by
  induction h : id.index using Nat.strongRecOn generalizing done id with
  | _ k ih =>
    cases known : g.node? id with
    | none => exact ⟨[], by rw [visit, known, List.append_nil], by simp⟩
    | some n =>
      by_cases met : id ∈ done
      · exact ⟨[], by rw [visit_of_mem met, List.append_nil], by simp⟩
      · obtain ⟨fresh, added, bound⟩ : ∃ fresh, n.children.foldl g.visit done = done ++ fresh ∧
            ∀ x ∈ fresh, x.index ≤ k := by
          refine foldl_keeps (P := fun _ d => ∃ fresh, d = done ++ fresh ∧ ∀ x ∈ fresh, x.index ≤ k)
            ⟨[], by simp, by simp⟩ ?_
          rintro seen c rest _ split ⟨fresh, rfl, bound⟩
          have older : c.index < k := h ▸ (sound id n known).child_lt c (by simp [split])
          obtain ⟨more, added, bound'⟩ := ih c.index older (done ++ fresh) c rfl
          exact ⟨fresh ++ more, by rw [added, List.append_assoc],
            List.forall_mem_append.mpr ⟨bound, fun x member => (bound' x member).trans older.le⟩⟩
        refine ⟨fresh ++ [id], by rw [visit_eq sound known met, added, List.append_assoc], ?_⟩
        exact List.forall_mem_append.mpr ⟨bound, by simp [h]⟩

theorem prefix_foldl_visit (sound : g.Sound) (cs done : List NodeId) :
    done <+: cs.foldl g.visit done := by
  refine foldl_keeps (P := fun _ d => done <+: d) (List.prefix_refl done) fun _ c _ d _ kept => ?_
  obtain ⟨fresh, added, -⟩ := exists_fresh sound d c
  exact added ▸ kept.trans (List.prefix_append d fresh)

theorem mem_foldl_visit (sound : g.Sound) (known : g.node? id = some n) {cs : List NodeId}
    (member : id ∈ cs) : id ∈ cs.foldl g.visit done := by
  obtain ⟨before, after, rfl⟩ := List.append_of_mem member
  rw [List.foldl_append, List.foldl_cons]
  exact (prefix_foldl_visit sound after _).subset (mem_visit sound known)

/-- A visit puts a node at the end when the root reaches it, it is not met yet, and its operands are.
What these steps keep, a visit keeps. -/
theorem visit_keeps {P : List NodeId → Prop} (sound : g.Sound) {root : NodeId}
    (step : ∀ done id n, P done → g.Reaches root id → g.node? id = some n → id ∉ done →
      (∀ c ∈ n.children, c ∈ done) → P (done ++ [id])) (start : P done) : P (g.visit done root) := by
  induction h : root.index using Nat.strongRecOn generalizing root done with
  | _ k ih =>
    cases known : g.node? root with
    | none => rwa [visit, known]
    | some n =>
      by_cases met : root ∈ done
      · rwa [visit_of_mem met]
      · have operands : P (n.children.foldl g.visit done) ∧
            (∀ c ∈ n.children, c ∈ n.children.foldl g.visit done) ∧
            ∀ x ∈ n.children.foldl g.visit done, x ∈ done ∨ x.index < k := by
          refine foldl_keeps (P := fun seen d => P d ∧ (∀ c ∈ seen, c ∈ d) ∧
            ∀ x ∈ d, x ∈ done ∨ x.index < k) ⟨start, by simp, fun x => .inl⟩ ?_
          rintro seen c rest d split ⟨kept, there, bound⟩
          have member : c ∈ n.children := by simp [split]
          have older : c.index < k := h ▸ (sound root n known).child_lt c member
          obtain ⟨m, hm⟩ := (g.node?_eq_some_iff_lt c).mpr
            ((h ▸ older).trans ((g.node?_eq_some_iff_lt root).mp ⟨n, known⟩))
          obtain ⟨fresh, added, bound'⟩ := exists_fresh sound d c
          refine ⟨ih c.index older (fun done id m kept path => step done id m kept
            (.head ⟨n, known, member⟩ path)) kept rfl, ?_, ?_⟩
          · refine List.forall_mem_append.mpr ⟨fun x earlier => ?_, ?_⟩
            · exact added ▸ List.mem_append_left fresh (there x earlier)
            · exact List.forall_mem_singleton.mpr (mem_visit sound hm)
          · rw [added]
            exact List.forall_mem_append.mpr
              ⟨bound, fun x member => .inr ((bound' x member).trans_lt older)⟩
        obtain ⟨kept, there, bound⟩ := operands
        rw [visit_eq sound known met]
        refine step _ root n kept .refl known (fun again => ?_) there
        rcases bound root again with earlier | younger
        · exact met earlier
        · exact younger.ne h

/-- The operands of what is met are met. -/
def Complete (g : Graph α σ) (done : List NodeId) : Prop :=
  ∀ x ∈ done, ∀ c, g.Operand x c → c ∈ done

theorem Complete.mem_of_reaches (complete : g.Complete done) (met : id ∈ done)
    (path : g.Reaches id x) : x ∈ done := by
  induction path with
  | refl => exact met
  | tail _ operand ih => exact complete _ ih _ operand

theorem Complete.visit (complete : g.Complete done) (sound : g.Sound) (root : NodeId) :
    g.Complete (g.visit done root) := by
  refine visit_keeps sound (fun done id n complete _ known _ there => ?_) complete
  refine List.forall_mem_append.mpr ⟨fun x member c operand => ?_, ?_⟩
  · exact List.mem_append_left _ (complete x member c operand)
  · refine List.forall_mem_singleton.mpr fun c operand => ?_
    obtain ⟨m, same, member⟩ := operand
    cases known.symm.trans same
    exact List.mem_append_left _ (there c member)

/-- What a visit adds is new and reached. -/
theorem exists_reached (sound : g.Sound) (done : List NodeId) (root : NodeId) :
    ∃ fresh, g.visit done root = done ++ fresh ∧ ∀ x ∈ fresh, x ∉ done ∧ g.Reaches root x := by
  refine visit_keeps sound (P := fun d => ∃ fresh, d = done ++ fresh ∧
    ∀ x ∈ fresh, x ∉ done ∧ g.Reaches root x) ?_ ⟨[], by simp, by simp⟩
  rintro _ id n ⟨fresh, rfl, reached⟩ path - new -
  refine ⟨fresh ++ [id], by rw [List.append_assoc], List.forall_mem_append.mpr ⟨reached, ?_⟩⟩
  exact List.forall_mem_singleton.mpr ⟨fun earlier => new (List.mem_append_left _ earlier), path⟩

/-- After a visit exactly what was met before and what the root reaches is met. -/
theorem mem_visit_iff (sound : g.Sound) (complete : g.Complete done) {root : NodeId} {m : Node α σ}
    (known : g.node? root = some m) : x ∈ g.visit done root ↔ x ∈ done ∨ g.Reaches root x := by
  constructor
  · obtain ⟨fresh, added, reached⟩ := exists_reached sound done root
    rw [added]
    exact fun member => (List.mem_append.mp member).imp_right fun new => (reached x new).2
  · rintro (earlier | path)
    · exact (prefix_foldl_visit sound [root] done).subset earlier
    · exact (complete.visit sound root).mem_of_reaches (mem_visit sound known) path

/-! ### Faults -/

/-- What is wrong with a declared input after others: it is no node, no symbol, declared before, or has no
room. -/
def inputFault? (g : Graph α σ) (before : List NodeId) (id : NodeId) : Option Error :=
  match g.node? id with
  | none => some (.graph (.unknownNode id))
  | some n =>
    if n.kind.isSymbol = false then some (.graph (.inputNotSymbol before.length id))
    else if id ∈ before then some (.graph (.duplicateInput id))
    else if n.shape.elements < wordLimit then none
    else some .sizeOverflow

/-- What is wrong with a node that is met and no input: it is a symbol or has no room. -/
def nodeFault? (g : Graph α σ) (id : NodeId) : Option Error :=
  match g.node? id with
  | none => none
  | some n =>
    match n.kind with
    | .symbol name => some (.graph (.freeVariable name id))
    | _ => if n.shape.elements < wordLimit then none else some .sizeOverflow

/-- What is wrong with the first faulty node of an order, if some nodes of it are done. -/
def firstFault? (g : Graph α σ) (done order : List NodeId) : Option Error :=
  (order.drop done.length).findSome? g.nodeFault?

/-- What is wrong with an output: it is no node, or what is wrong with the first faulty node that a visit
of it adds. -/
def outputFault? (g : Graph α σ) (done : List NodeId) (o : NodeId) : Option Error :=
  match g.node? o with
  | none => some (.graph (.unknownNode o))
  | some _ => g.firstFault? done (g.visit done o)

/-- The first fault of inputs, from left to right. -/
def inputsFault? (g : Graph α σ) : List NodeId → List NodeId → Option Error
  | _, [] => none
  | before, id :: rest => (g.inputFault? before id).or (g.inputsFault? (before ++ [id]) rest)

/-- The first fault of outputs, from left to right, each without what was met before it. -/
def outputsFault? (g : Graph α σ) : List NodeId → List NodeId → Option Error
  | _, [] => none
  | done, o :: rest => (g.outputFault? done o).or (g.outputsFault? (g.visit done o) rest)

/-- The first fault of declared inputs and outputs. -/
def refusal? (g : Graph α σ) (inputs outputs : List NodeId) : Option Error :=
  (g.inputsFault? [] inputs).or (g.outputsFault? inputs outputs)

/-- Nodes without a fault make no difference. -/
theorem firstFault?_later {added order : List NodeId} (within : done ++ added <+: order)
    (clean : ∀ x ∈ added, g.nodeFault? x = none) :
    g.firstFault? done order = g.firstFault? (done ++ added) order := by
  obtain ⟨rest, rfl⟩ := within
  rw [firstFault?, firstFault?, List.drop_left, List.append_assoc, List.drop_left,
    List.findSome?_append, List.findSome?_eq_none_iff.mpr clean, Option.none_or]

theorem firstFault?_here {order : List NodeId} {e : Error} (within : done ++ [id] <+: order)
    (fault : g.nodeFault? id = some e) : g.firstFault? done order = some e := by
  obtain ⟨rest, rfl⟩ := within
  rw [firstFault?, List.append_assoc, List.drop_left, List.singleton_append, List.findSome?_cons,
    fault]

theorem firstFault?_self : g.firstFault? done done = none := by
  rw [firstFault?, List.drop_length, List.findSome?_nil]

/-- Inputs and outputs fit each other: inputs are symbols and distinct, outputs are nodes, the symbols
that they reach are inputs, and there is room for all values. -/
structure Admits (g : Graph α σ) (inputs outputs : List NodeId) : Prop where
  symbol : ∀ id ∈ inputs, ∃ n, g.node? id = some n ∧ n.kind.isSymbol = true
  distinct : inputs.Nodup
  known : ∀ o ∈ outputs, ∃ n, g.node? o = some n
  declared : ∀ o ∈ outputs, ∀ id n, g.Reaches o id → g.node? id = some n →
    n.kind.isSymbol = true → id ∈ inputs
  room : ∀ id n, (id ∈ inputs ∨ ∃ o ∈ outputs, g.Reaches o id) → g.node? id = some n →
    n.shape.elements < wordLimit

theorem inputFault?_eq_none_iff : g.inputFault? done id = none ↔
    id ∉ done ∧ ∃ n, g.node? id = some n ∧ n.kind.isSymbol = true ∧ n.shape.elements < wordLimit := by
  unfold inputFault?
  cases g.node? id with
  | none => simp
  | some n =>
    by_cases symbol : n.kind.isSymbol = true <;> by_cases again : id ∈ done <;>
      simp [symbol, again]

theorem inputsFault?_eq_none_iff : g.inputsFault? done inputs = none ↔
    inputs.Nodup ∧ ∀ id ∈ inputs, id ∉ done ∧
      ∃ n, g.node? id = some n ∧ n.kind.isSymbol = true ∧ n.shape.elements < wordLimit := by
  induction inputs generalizing done with
  | nil => simp [inputsFault?]
  | cons id rest ih =>
    rw [inputsFault?, Option.or_eq_none_iff, inputFault?_eq_none_iff, ih, List.nodup_cons,
      List.forall_mem_cons]
    constructor
    · rintro ⟨first, distinct, later⟩
      refine ⟨⟨fun again => ?_, distinct⟩, first, fun c member => ⟨fun earlier => ?_, (later c member).2⟩⟩
      · exact (later id again).1 (List.mem_append_right _ List.mem_cons_self)
      · exact (later c member).1 (List.mem_append_left _ earlier)
    · rintro ⟨⟨once, distinct⟩, first, later⟩
      refine ⟨first, distinct, fun c member => ⟨fun earlier => ?_, (later c member).2⟩⟩
      rcases List.mem_append.mp earlier with before | here
      · exact (later c member).1 before
      · exact once (List.mem_singleton.mp here ▸ member)

theorem nodeFault?_eq_none_iff : g.nodeFault? id = none ↔
    ∀ n, g.node? id = some n → n.kind.isSymbol = false ∧ n.shape.elements < wordLimit := by
  unfold nodeFault?
  cases g.node? id with
  | none => simp
  | some n =>
    obtain ⟨kind, children, shape⟩ := n
    cases kind <;> simp [NodeKind.isSymbol]

theorem outputsFault?_eq_none_iff (sound : g.Sound) (complete : g.Complete done) :
    g.outputsFault? done outputs = none ↔ (∀ o ∈ outputs, ∃ n, g.node? o = some n) ∧
      ∀ o ∈ outputs, ∀ id, g.Reaches o id → id ∈ done ∨ g.nodeFault? id = none := by
  induction outputs generalizing done with
  | nil => simp [outputsFault?]
  | cons o rest ih =>
    obtain ⟨fresh, added, reached⟩ := exists_reached sound done o
    rw [outputsFault?, Option.or_eq_none_iff, ih (complete.visit sound o), List.forall_mem_cons,
      List.forall_mem_cons]
    have first : g.outputFault? done o = none ↔
        (∃ n, g.node? o = some n) ∧ ∀ x ∈ fresh, g.nodeFault? x = none := by
      unfold outputFault?
      cases g.node? o with
      | none => simp
      | some n => simp [firstFault?, added, List.findSome?_eq_none_iff]
    rw [first]
    constructor
    · rintro ⟨⟨⟨n, known⟩, clean⟩, known', later⟩
      have met {id : NodeId} (member : id ∈ g.visit done o) : id ∈ done ∨ g.nodeFault? id = none :=
        (List.mem_append.mp (added ▸ member)).imp_right (clean id)
      refine ⟨⟨⟨n, known⟩, known'⟩, fun id path => ?_, fun o' member id path => ?_⟩
      · exact met ((mem_visit_iff sound complete known).mpr (.inr path))
      · exact (later o' member id path).elim met .inr
    · rintro ⟨⟨known, known'⟩, here, later⟩
      refine ⟨⟨known, fun x member => ?_⟩, known', fun o' member id path => ?_⟩
      · obtain ⟨new, path⟩ := reached x member
        exact (here x path).resolve_left new
      · exact (later o' member id path).imp_left fun earlier =>
          added ▸ List.mem_append_left fresh earlier

/-- A fault is one of the graph, or that of a value without room. -/
def IsFault (e : Error) : Prop := (∃ fault, e = .graph fault) ∨ e = .sizeOverflow

variable {e : Error}

theorem isFault_of_inputsFault? (fault : g.inputsFault? done inputs = some e) : IsFault e := by
  induction inputs generalizing done with
  | nil => cases fault
  | cons id rest ih =>
    rcases Option.or_eq_some_iff.mp fault with here | ⟨-, later⟩
    · unfold inputFault? at here
      unfold IsFault
      grind
    · exact ih later

theorem isFault_of_nodeFault? (fault : g.nodeFault? id = some e) : IsFault e := by
  unfold nodeFault? at fault
  unfold IsFault
  grind

theorem isFault_of_outputsFault? (fault : g.outputsFault? done outputs = some e) : IsFault e := by
  induction outputs generalizing done with
  | nil => cases fault
  | cons o rest ih =>
    rcases Option.or_eq_some_iff.mp fault with here | ⟨-, later⟩
    · unfold outputFault? at here
      split at here
      · exact .inl ⟨_, (Option.some.inj here).symm⟩
      · obtain ⟨id, -, fault⟩ := List.exists_of_findSome?_eq_some here
        exact isFault_of_nodeFault? fault
    · exact ih later

theorem isFault_of_refusal? (refused : g.refusal? inputs outputs = some e) : IsFault e := by
  rcases Option.or_eq_some_iff.mp refused with first | ⟨-, later⟩
  · exact isFault_of_inputsFault? first
  · exact isFault_of_outputsFault? later

theorem complete_of_symbols (sound : g.Sound)
    (symbols : ∀ id ∈ inputs, ∃ n, g.node? id = some n ∧ n.kind.isSymbol = true) :
    g.Complete inputs := by
  rintro x member c ⟨n, known, operand⟩
  obtain ⟨m, same, symbol⟩ := symbols x member
  cases known.symm.trans same
  rw [(sound x n known).leaf_of_symbol symbol] at operand
  cases operand

/-- Inputs and outputs have no fault exactly when they fit each other. -/
theorem refusal?_eq_none_iff (sound : g.Sound) :
    g.refusal? inputs outputs = none ↔ g.Admits inputs outputs := by
  rw [refusal?, Option.or_eq_none_iff, inputsFault?_eq_none_iff]
  constructor
  · rintro ⟨⟨distinct, fits⟩, clean⟩
    have symbols : ∀ id ∈ inputs, ∃ n, g.node? id = some n ∧ n.kind.isSymbol = true := by
      intro id member
      obtain ⟨-, n, known, symbol, -⟩ := fits id member
      exact ⟨n, known, symbol⟩
    obtain ⟨known, clean⟩ :=
      (outputsFault?_eq_none_iff sound (complete_of_symbols sound symbols)).mp clean
    have roomy {id : NodeId} {n : Node α σ} (member : id ∈ inputs) (held : g.node? id = some n) :
        n.shape.elements < wordLimit := by
      obtain ⟨-, m, same, -, room⟩ := fits id member
      cases held.symm.trans same
      exact room
    refine ⟨symbols, distinct, known, fun o output id n path held symbol => ?_, fun id n => ?_⟩
    · refine (clean o output id path).resolve_right fun none => ?_
      rw [(nodeFault?_eq_none_iff.mp none n held).1] at symbol
      cases symbol
    · rintro (input | ⟨o, output, path⟩) held
      · exact roomy input held
      · rcases clean o output id path with input | none
        · exact roomy input held
        · exact (nodeFault?_eq_none_iff.mp none n held).2
  · intro admits
    refine ⟨⟨admits.distinct, fun id member => ⟨List.not_mem_nil, ?_⟩⟩, ?_⟩
    · obtain ⟨n, known, symbol⟩ := admits.symbol id member
      exact ⟨n, known, symbol, admits.room id n (.inl member) known⟩
    · refine (outputsFault?_eq_none_iff sound (complete_of_symbols sound admits.symbol)).mpr
        ⟨admits.known, fun o output id path => ?_⟩
      refine or_iff_not_imp_left.mpr fun undeclared => nodeFault?_eq_none_iff.mpr fun n known => ⟨?_, ?_⟩
      · exact Bool.eq_false_iff.mpr fun symbol =>
          undeclared (admits.declared o output id n path known symbol)
      · exact admits.room id n (.inr ⟨o, output, path⟩) known

end Cotangent.Graph
