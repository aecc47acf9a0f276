import Mathlib
import Cotangent.Factor.Reach
import Cotangent.Proofs.Computation

/-! A search lists what its starts lead to. While it runs, the vertices that it has met are the
finished ones and those on its stack; the stack is a path, and what a vertex of the path has looked
at is finished or lies on the path above it. Without cycles the latter is the next vertex of the
path, so a vertex is finished after all its successors. The steps that a search is given are as many
as there are vertices and successors to look at. -/
namespace Cotangent.Reach

/-- Every vertex stands before its successors, and they are all there. -/
def Ordered (next : Nat → List Nat) : List Nat → Prop
  | [] => True
  | v :: rest => (∀ w ∈ next v, w ∈ rest) ∧ Ordered next rest

/-- A stack of frames is a path, and what a frame has looked at is finished or comes next on the
path. -/
def Path (next : Nat → List Nat) (finished : List Nat) : Option Nat → List Frame → Prop
  | _, [] => True
  | above, ⟨v, left⟩ :: stack =>
    (∀ w ∈ next v, w ∈ left ∨ w ∈ finished ∨ above = some w) ∧ (∀ w ∈ left, w ∈ next v) ∧
      Path next finished (some v) stack

/-- An order of the vertices below `n` that no edge goes down in. -/
structure Acyclic (next : Nat → List Nat) (rank : Nat → Nat) (n : Nat) : Prop where
  rises : ∀ v, ∀ w ∈ next v, rank v < rank w
  inside : ∀ v, ∀ w ∈ next v, w < n

/-- The vertices met so far: those on the stack and the finished ones. -/
def seen (stack : List Frame) (s : State) : List Nat := stack.map (·.vertex) ++ s.finished

/-- A search from some starts, over marks that did not hold its stamp. -/
structure Searching (next : Nat → List Nat) (rank : Nat → Nat) (stamp : Nat) (starts : List Nat)
    (old : Array Nat) (stack : List Frame) (s : State) : Prop where
  size : s.mark.size = old.size
  met : ∀ v < old.size, s.met stamp v = true ↔ v ∈ seen stack s
  nodup : (seen stack s).Nodup
  inside : ∀ v ∈ seen stack s, v < old.size
  reached : ∀ v ∈ seen stack s,
    ∃ start ∈ starts, Relation.ReflTransGen (fun a b => b ∈ next a) start v
  ordered : Ordered next s.finished
  path : Path next s.finished none stack
  rising : (stack.map (·.vertex)).Pairwise fun v u => rank u < rank v
  marks : ∀ v : Nat, s.mark[v]? = old[v]? ∨ s.mark[v]? = some stamp

variable {next : Nat → List Nat} {rank : Nat → Nat} {stamp n v w fuel : Nat} {starts left : List Nat}
  {old : Array Nat} {stack : List Frame} {s : State}

theorem met_meet (inside : w < s.mark.size) :
    (s.meet stamp w).met stamp v = true ↔ v = w ∨ s.met stamp v = true := by
  simp only [State.met, State.meet, decide_eq_true_eq, Array.getD_eq_getD_getElem?,
    Array.getElem?_setIfInBounds]
  by_cases same : w = v
  · subst same
    simp [inside]
  · simp [same, Ne.symm same]

/-- Finished vertices stay finished while more are added. -/
theorem Path.mono {finished finished' : List Nat} (more : ∀ v ∈ finished, v ∈ finished') :
    ∀ {above : Option Nat} {stack : List Frame}, Path next finished above stack →
      Path next finished' above stack
  | _, [], _ => trivial
  | _, ⟨_, _⟩ :: _, ⟨looked, edges, below⟩ =>
    ⟨fun w edge => (looked w edge).imp_right (Or.imp_left (more w)), edges, below.mono more⟩

/-- A vertex that leaves the stack is finished for the frame below it. -/
theorem Path.finish {finished : List Nat} (path : Path next finished (some v) stack) :
    Path next (v :: finished) none stack := by
  cases stack with
  | nil => trivial
  | cons frame stack =>
    obtain ⟨looked, edges, below⟩ := path
    refine ⟨fun w edge => ?_, edges, below.mono fun _ => List.mem_cons_of_mem v⟩
    rcases looked w edge with ahead | done | same
    · exact .inl ahead
    · exact .inr (.inl (List.mem_cons_of_mem v done))
    · cases same
      exact .inr (.inl List.mem_cons_self)

namespace Searching

/-- A frame with nothing left is finished. -/
theorem pop (searching : Searching next rank stamp starts old (⟨v, []⟩ :: stack) s) :
    Searching next rank stamp starts old stack { s with finished := v :: s.finished } := by
  have same : (seen stack { s with finished := v :: s.finished }).Perm
      (seen (⟨v, []⟩ :: stack) s) := by
    simp [seen]
  obtain ⟨looked, -, below⟩ := searching.path
  exact {
    size := searching.size
    met := fun u inside => (searching.met u inside).trans same.mem_iff.symm
    nodup := same.nodup_iff.mpr searching.nodup
    inside := fun u member => searching.inside u (same.mem_iff.mp member)
    reached := fun u member => searching.reached u (same.mem_iff.mp member)
    ordered := ⟨fun w edge => by simpa using looked w edge, searching.ordered⟩
    path := below.finish
    rising := (List.pairwise_cons.mp searching.rising).2
    marks := searching.marks }

/-- A successor that is met already is finished: an edge back into the stack would go down. -/
theorem skip (acyclic : Acyclic next rank old.size)
    (searching : Searching next rank stamp starts old (⟨v, w :: left⟩ :: stack) s)
    (met : s.met stamp w = true) :
    Searching next rank stamp starts old (⟨v, left⟩ :: stack) s := by
  obtain ⟨looked, edges, below⟩ := searching.path
  have edge : w ∈ next v := edges w (by simp)
  have up := acyclic.rises v w edge
  have finished : w ∈ s.finished := by
    have either := (searching.met w (acyclic.inside v w edge)).mp met
    rcases List.mem_append.mp either with waiting | finished
    · rcases List.mem_cons.mp waiting with same | lower
      · exact absurd (congrArg rank same) (Nat.ne_of_gt up)
      · exact absurd ((List.pairwise_cons.mp searching.rising).1 w lower) (Nat.lt_asymm up)
    · exact finished
  refine { searching with
    path := ⟨fun u member => ?_, fun u ahead => edges u (by simp [ahead]), below⟩ }
  rcases looked u member with ahead | finished' | above
  · rcases List.mem_cons.mp ahead with rfl | ahead
    · exact .inr (.inl finished)
    · exact .inl ahead
  · exact .inr (.inl finished')
  · cases above

/-- A new vertex goes on the stack, above a path that has an edge to it. -/
theorem meets {stack' : List Frame} (searching : Searching next rank stamp starts old stack s)
    (same : stack'.map (·.vertex) = stack.map (·.vertex)) (inside : w < old.size)
    (new : ¬ s.met stamp w = true)
    (led : ∃ start ∈ starts, Relation.ReflTransGen (fun a b => b ∈ next a) start w)
    (below : Path next s.finished (some w) stack')
    (up : ∀ u ∈ stack.map (·.vertex), rank u < rank w) :
    Searching next rank stamp starts old (⟨w, next w⟩ :: stack') (s.meet stamp w) := by
  have more : seen (⟨w, next w⟩ :: stack') (s.meet stamp w) = w :: seen stack s := by
    simp [seen, same, State.meet]
  constructor
  case size => simpa [State.meet] using searching.size
  case met =>
    intro u within
    rw [more, List.mem_cons, met_meet (searching.size.symm ▸ inside), searching.met u within]
  case nodup =>
    rw [more]
    exact List.nodup_cons.mpr ⟨mt (searching.met w inside).mpr new, searching.nodup⟩
  case inside =>
    rw [more]
    exact List.forall_mem_cons.mpr ⟨inside, searching.inside⟩
  case reached =>
    rw [more]
    exact List.forall_mem_cons.mpr ⟨led, searching.reached⟩
  case ordered => exact searching.ordered
  case path => exact ⟨fun u ahead => .inl ahead, fun u ahead => ahead, below⟩
  case rising =>
    rw [List.map_cons, same]
    exact List.pairwise_cons.mpr ⟨up, searching.rising⟩
  case marks =>
    intro u
    simp only [State.meet, Array.getElem?_setIfInBounds]
    by_cases same : w = u
    · subst same
      simp [searching.size, inside]
    · simpa [same] using searching.marks u

/-- A successor that is new goes on the stack. -/
theorem push (acyclic : Acyclic next rank old.size)
    (searching : Searching next rank stamp starts old (⟨v, w :: left⟩ :: stack) s)
    (new : ¬ s.met stamp w = true) :
    Searching next rank stamp starts old (⟨w, next w⟩ :: ⟨v, left⟩ :: stack) (s.meet stamp w) := by
  obtain ⟨looked, edges, below⟩ := searching.path
  have edge : w ∈ next v := edges w (by simp)
  have step := acyclic.rises v w edge
  obtain ⟨start, given, chain⟩ := searching.reached v (by simp [seen])
  refine searching.meets rfl (acyclic.inside v w edge) new ⟨start, given, chain.tail edge⟩
    ⟨fun u member => ?_, fun u ahead => edges u (by simp [ahead]), below⟩ fun u member => ?_
  · rcases looked u member with ahead | finished | above
    · rcases List.mem_cons.mp ahead with rfl | ahead
      · exact .inr (.inr rfl)
      · exact .inl ahead
    · exact .inr (.inl finished)
    · cases above
  · rcases List.mem_cons.mp member with rfl | lower
    · exact step
    · exact ((List.pairwise_cons.mp searching.rising).1 u lower).trans step

end Searching

/-! ## Enough steps -/

/-- The vertices that the search has not met. -/
def unmet (stamp : Nat) (s : State) : Finset Nat :=
  (Finset.range s.mark.size).filter fun v => ¬ s.met stamp v = true

/-- The steps still to come: one for every vertex not met and each of its successors, one for every
frame and what it has left. -/
def work (next : Nat → List Nat) (stamp : Nat) (stack : List Frame) (s : State) : Nat :=
  ∑ v ∈ unmet stamp s, ((next v).length + 1) + (stack.map fun f => f.left.length + 1).sum

/-- A vertex that is met takes its share of the work with it. -/
theorem sum_unmet_meet (inside : w < s.mark.size) (new : ¬ s.met stamp w = true) (f : Nat → Nat) :
    ∑ v ∈ unmet stamp (s.meet stamp w), f v + f w = ∑ v ∈ unmet stamp s, f v := by
  have less : unmet stamp (s.meet stamp w) = (unmet stamp s).erase w := by
    ext v
    simp only [unmet, Finset.mem_filter, Finset.mem_range, Finset.mem_erase, met_meet inside, not_or]
    simp only [State.meet, Array.size_setIfInBounds]
    exact and_left_comm
  rw [less]
  exact Finset.sum_erase_add _ _ (by simp [unmet, inside, new])

/-! A step of a search is a step less to come. -/

theorem work_pop : work next stamp (⟨v, []⟩ :: stack) s =
    work next stamp stack { s with finished := v :: s.finished } + 1 := by
  simp only [work, List.map_cons, List.sum_cons, List.length_nil]
  change _ = ∑ v ∈ unmet stamp s, _ + _ + 1
  omega

theorem work_skip : work next stamp (⟨v, w :: left⟩ :: stack) s =
    work next stamp (⟨v, left⟩ :: stack) s + 1 := by
  simp only [work, List.map_cons, List.sum_cons, List.length_cons]
  omega

theorem work_push (inside : w < s.mark.size) (new : ¬ s.met stamp w = true) :
    work next stamp (⟨v, w :: left⟩ :: stack) s =
      work next stamp (⟨w, next w⟩ :: ⟨v, left⟩ :: stack) (s.meet stamp w) + 1 := by
  have share := sum_unmet_meet inside new fun v => (next v).length + 1
  simp only [work, List.map_cons, List.sum_cons, List.length_cons]
  omega

theorem work_pos (frame : Frame) (stack : List Frame) (s : State) :
    0 < work next stamp (frame :: stack) s := by
  simp only [work, List.map_cons, List.sum_cons]
  omega

/-- A search with enough steps finishes all that it has met. -/
theorem Searching.visited (acyclic : Acyclic next rank old.size)
    (searching : Searching next rank stamp starts old stack s) (enough : work next stamp stack s ≤ fuel) :
    Searching next rank stamp starts old [] (visit next stamp fuel stack s) ∧
      ∀ v ∈ seen stack s, v ∈ (visit next stamp fuel stack s).finished := by
  fun_induction visit next stamp fuel stack s with
  | case1 stack s =>
    cases stack with
    | nil => exact ⟨searching, fun _ member => by simpa [seen] using member⟩
    | cons frame stack => exact absurd enough (Nat.not_le.mpr (work_pos frame stack s))
  | case2 fuel s => exact ⟨searching, fun _ member => by simpa [seen] using member⟩
  | case3 fuel v stack s ih =>
    rw [work_pop] at enough
    obtain ⟨ended, kept⟩ := ih searching.pop (Nat.le_of_succ_le_succ enough)
    refine ⟨ended, fun u member => kept u ?_⟩
    simp only [seen, List.map_cons, List.mem_append, List.mem_cons] at member ⊢
    tauto
  | case4 fuel v w left stack s met ih =>
    rw [work_skip] at enough
    exact ih (searching.skip acyclic met) (Nat.le_of_succ_le_succ enough)
  | case5 fuel v w left stack s new ih =>
    have edge : w ∈ next v := searching.path.2.1 w (by simp)
    have inside : w < s.mark.size := searching.size.symm ▸ acyclic.inside v w edge
    rw [work_push inside new] at enough
    obtain ⟨ended, kept⟩ := ih (searching.push acyclic new) (Nat.le_of_succ_le_succ enough)
    exact ⟨ended, fun u member => kept u (List.mem_cons_of_mem w member)⟩

/-- The steps that a search is given are enough for all vertices at once. -/
theorem sum_unmet_lt (next : Nat → List Nat) (stamp : Nat) (s : State) :
    ∑ v ∈ unmet stamp s, ((next v).length + 1) < steps next s.mark.size := by
  have all : ∑ v ∈ Finset.range s.mark.size, ((next v).length + 1) + 1 =
      steps next s.mark.size := by
    rw [Finset.sum_add_distrib, Finset.sum_const, Finset.card_range, smul_eq_mul, mul_one, steps,
      List.length_flatMap]
    rfl
  have part := Finset.sum_le_sum_of_subset (f := fun v => (next v).length + 1)
    (Finset.filter_subset (fun v => ¬ s.met stamp v = true) (Finset.range s.mark.size))
  rw [unmet]
  omega

/-- A start that is not met yet, and the steps it is given. -/
theorem Searching.first (searching : Searching next rank stamp starts old [] s) (given : v ∈ starts)
    (inside : v < old.size) (new : ¬ s.met stamp v = true) :
    Searching next rank stamp starts old [⟨v, next v⟩] (s.meet stamp v) ∧
      work next stamp [⟨v, next v⟩] (s.meet stamp v) ≤ steps next old.size := by
  have within : v < s.mark.size := searching.size.symm ▸ inside
  refine ⟨searching.meets rfl inside new ⟨v, given, .refl⟩ trivial (by simp), ?_⟩
  have share := sum_unmet_meet within new fun v => (next v).length + 1
  have bound := sum_unmet_lt next stamp s
  rw [searching.size] at bound
  simp only [work, List.map_cons, List.map_nil, List.sum_cons, List.sum_nil]
  omega

/-- A search from one more start. -/
theorem Searching.started (acyclic : Acyclic next rank old.size)
    (searching : Searching next rank stamp starts old [] s) (given : v ∈ starts)
    (inside : v < old.size) :
    Searching next rank stamp starts old [] (fromStart next stamp (steps next old.size) s v) ∧
      ∀ u ∈ v :: s.finished, u ∈ (fromStart next stamp (steps next old.size) s v).finished := by
  unfold fromStart
  split
  next met =>
    have finished : v ∈ s.finished := by simpa [seen] using (searching.met v inside).mp met
    exact ⟨searching, List.forall_mem_cons.mpr ⟨finished, fun _ member => member⟩⟩
  next new =>
    obtain ⟨first, enough⟩ := searching.first given inside new
    exact first.visited acyclic enough

/-- Before a search, fresh marks. -/
theorem searching_start (fresh : ∀ v < old.size, old[v]? ≠ some stamp) :
    Searching next rank stamp starts old [] ⟨old, []⟩ := by
  constructor
  case met =>
    intro v within
    have other := fresh v within
    rw [Array.getElem?_eq_getElem within] at other
    simpa [State.met, seen, within] using fun same => other (congrArg some same)
  case ordered => trivial
  case path => trivial
  all_goals simp [seen]

/-- A search from fresh marks, without a cycle: it lists what its starts lead to, each vertex once
and before its successors. -/
theorem searching_reach (acyclic : Acyclic next rank old.size)
    (inside : ∀ v ∈ starts, v < old.size) (fresh : ∀ v < old.size, old[v]? ≠ some stamp) :
    Searching next rank stamp starts old [] (reach next stamp starts old) ∧
      ∀ v ∈ starts, v ∈ (reach next stamp starts old).finished := by
  unfold reach
  refine foldl_keeps
    (P := fun done s => Searching next rank stamp starts old [] s ∧ ∀ v ∈ done, v ∈ s.finished)
    ⟨searching_start fresh, by simp⟩ ?_
  rintro done v rest s split ⟨searching, kept⟩
  have given : v ∈ starts := by simp [split]
  obtain ⟨searching', kept'⟩ := searching.started acyclic given (inside v given)
  refine ⟨searching', fun u member => kept' u ?_⟩
  rcases List.mem_append.mp member with earlier | here
  · exact List.mem_cons_of_mem v (kept u earlier)
  · exact List.mem_cons.mpr (.inl (List.mem_singleton.mp here))

end Cotangent.Reach
