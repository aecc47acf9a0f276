import Mathlib.Data.List.Forall2
import Cotangent.Error

/-! How computations are taken apart. An outcome of two steps is one of the first or one of the
second; an outcome for a list is a list of outcomes or the first failure. A computation with a state
is judged by what holds after it, success and failure apart, or by whether it can tell two states
from each other. -/
namespace Cotangent

/-- A list with positions has every member at its position. -/
theorem getElem?_zipIdx_iff {β : Type} {xs : List β} {i : Nat} {x : β × Nat} :
    xs.zipIdx[i]? = some x ↔ xs[i]? = some x.1 ∧ x.2 = i := by
  rw [List.getElem?_zipIdx, Nat.zero_add, Option.map_eq_some_iff]
  constructor
  · rintro ⟨y, at_i, rfl⟩
    exact ⟨at_i, rfl⟩
  · rintro ⟨at_i, position⟩
    exact ⟨x.1, at_i, Prod.ext rfl position.symm⟩

/-- An element that is written after it is read. -/
theorem setIfInBounds_eq_modify {β : Type} {xs : Array β} {i : Nat} {x : β} (held : xs[i]? = some x)
    (f : β → β) : xs.setIfInBounds i (f x) = xs.modify i f := by
  obtain ⟨inside, rfl⟩ := Array.getElem?_eq_some_iff.mp held
  refine Array.ext_getElem? ?_
  intro j
  rw [Array.getElem?_setIfInBounds, Array.getElem?_modify]
  by_cases same : i = j
  · subst same
    simp [inside]
  · simp [same]

section Fold

variable {β γ δ : Type} {f : γ → β → γ} {g : δ → β → δ} {a : γ} {b : δ}

/-- Two folds over one list keep a relation that speaks of the elements done. -/
theorem foldl_relates (xs : List β) {R : List β → γ → δ → Prop} (start : R [] a b)
    (step : ∀ done x rest a b, xs = done ++ x :: rest → R done a b →
      R (done ++ [x]) (f a x) (g b x)) : R xs (xs.foldl f a) (xs.foldl g b) := by
  suffices ∀ rest done a b, xs = done ++ rest → R done a b →
      R xs (rest.foldl f a) (rest.foldl g b) from this xs [] a b rfl start
  intro rest
  induction rest with
  | nil =>
    intro done a b split reached
    rw [split, List.append_nil]
    exact reached
  | cons x rest ih =>
    intro done a b split reached
    exact ih (done ++ [x]) (f a x) (g b x) (by simpa using split)
      (step done x rest a b split reached)

/-- A fold keeps an invariant that speaks of the elements done. -/
theorem foldl_keeps {xs : List β} {P : List β → γ → Prop} (start : P [] a)
    (step : ∀ done x rest a, xs = done ++ x :: rest → P done a → P (done ++ [x]) (f a x)) :
    P xs (xs.foldl f a) :=
  foldl_relates xs (g := fun (_ : Unit) _ => ()) (b := ()) (R := fun done a _ => P done a) start
    fun done x rest a _ split reached => step done x rest a split reached

/-- A loop in which no element is refused is a plain one. -/
theorem foldlM_eq_some {xs : List β} {h : γ → β → Option γ} {P : List β → γ → Prop} (start : P [] a)
    (step : ∀ done x rest a, xs = done ++ x :: rest → P done a →
      h a x = some (f a x) ∧ P (done ++ [x]) (f a x)) : xs.foldlM h a = some (xs.foldl f a) := by
  suffices ∀ rest done a, xs = done ++ rest → P done a →
      rest.foldlM h a = some (rest.foldl f a) from this xs [] a rfl start
  intro rest
  induction rest with
  | nil => exact fun _ _ _ _ => rfl
  | cons x rest ih =>
    intro done a split reached
    obtain ⟨here, kept⟩ := step done x rest a split reached
    rw [List.foldlM_cons, here]
    exact ih (done ++ [x]) (f a x) (by simpa using split) kept

/-- The element in turn is none of those done. -/
theorem notMem_of_split {xs done rest : List β} {x : β} (nodup : xs.Nodup)
    (split : xs = done ++ x :: rest) : x ∉ done := by
  rw [split] at nodup
  exact fun earlier => (List.nodup_append.mp nodup).2.2 x earlier x List.mem_cons_self rfl

end Fold

namespace Outcome

variable {ε β γ : Type}

/-- A member of the first of two lists that match pairwise has a partner. -/
theorem exists_of_forall₂ {R : β → γ → Prop} {xs : List β} {ys : List γ} {x : β}
    (h : List.Forall₂ R xs ys) (member : x ∈ xs) : ∃ y ∈ ys, R x y := by
  induction h with
  | nil => cases member
  | @cons a b _ _ related _ ih =>
    rcases List.mem_cons.mp member with rfl | later
    · exact ⟨b, List.mem_cons_self, related⟩
    · obtain ⟨y, hy, hr⟩ := ih later
      exact ⟨y, List.mem_cons_of_mem b hy, hr⟩

/-- What stands at a place of the first of two lists that match pairwise has a partner there. -/
theorem exists_at_of_forall₂ {R : β → γ → Prop} {xs : List β} {ys : List γ} {x : β} {i : Nat}
    (h : List.Forall₂ R xs ys) (at_i : xs[i]? = some x) : ∃ y, ys[i]? = some y ∧ R x y := by
  obtain ⟨inside, rfl⟩ := List.getElem?_eq_some_iff.mp at_i
  have inside' : i < ys.length := h.length_eq ▸ inside
  exact ⟨ys[i], List.getElem?_eq_getElem inside', h.get inside inside'⟩

theorem bind_eq_ok {x : Except ε β} {f : β → Except ε γ} {c : γ} :
    x >>= f = .ok c ↔ ∃ b, x = .ok b ∧ f b = .ok c := by
  cases x <;> simp [bind, Except.bind]

theorem bind_eq_error {x : Except ε β} {f : β → Except ε γ} {e : ε} :
    x >>= f = .error e ↔ x = .error e ∨ ∃ b, x = .ok b ∧ f b = .error e := by
  cases x <;> simp [bind, Except.bind]

theorem map_eq_ok {x : Except ε β} {f : β → γ} {c : γ} :
    x.map f = .ok c ↔ ∃ b, x = .ok b ∧ f b = c := by
  cases x <;> simp [Except.map]

theorem map_eq_error {x : Except ε β} {f : β → γ} {e : ε} : x.map f = .error e ↔ x = .error e := by
  cases x <;> simp [Except.map]

@[simp] theorem ok_bind (b : β) (f : β → Except ε γ) : (Except.ok b >>= f) = f b := rfl

@[simp] theorem error_bind (e : ε) (f : β → Except ε γ) :
    ((Except.error e : Except ε β) >>= f) = .error e := rfl

/-- A list of successes. -/
theorem mapM_eq_ok {f : β → Except ε γ} {xs : List β} {ys : List γ} :
    xs.mapM f = .ok ys ↔ List.Forall₂ (fun x y => f x = .ok y) xs ys := by
  induction xs generalizing ys with
  | nil => simp [pure, Except.pure, eq_comm]
  | cons x xs ih =>
    simp only [List.mapM_cons, bind_eq_ok, List.forall₂_cons_left_iff]
    constructor
    · rintro ⟨y, hy, ys', hys, same⟩
      cases same
      exact ⟨y, ys', hy, ih.mp hys, rfl⟩
    · rintro ⟨y, ys', hy, hys, rfl⟩
      exact ⟨y, hy, ys', ih.mpr hys, rfl⟩

/-- A list fails exactly when one of its members does. -/
theorem mapM_eq_error {f : β → Except ε γ} {xs : List β} :
    (∃ e, xs.mapM f = .error e) ↔ ∃ x ∈ xs, ∃ e, f x = .error e := by
  induction xs with
  | nil => simp [pure, Except.pure]
  | cons x xs ih =>
    cases hx : f x with
    | error e => simp [hx]
    | ok y =>
      cases hxs : xs.mapM f with
      | error e => simpa [hx, hxs] using ih.mp ⟨e, hxs⟩
      | ok ys =>
        have none := mt ih.mpr (by simp [hxs])
        simpa [hx, hxs, pure, Except.pure] using none

/-- A check of every member. -/
theorem forM_eq_ok {f : β → Except ε Unit} {xs : List β} {u : Unit} :
    xs.forM f = .ok u ↔ ∀ x ∈ xs, f x = .ok () := by
  induction xs with
  | nil => simp [pure, Except.pure]
  | cons x xs ih =>
    change (f x >>= fun _ => xs.forM f) = .ok u ↔ _
    rw [bind_eq_ok, List.forall_mem_cons]
    constructor
    · rintro ⟨_, hx, hxs⟩
      exact ⟨hx, ih.mp hxs⟩
    · rintro ⟨hx, hxs⟩
      exact ⟨(), hx, ih.mpr hxs⟩

/-- A check of one member. -/
theorem forM_single (f : β → Except ε Unit) (x : β) : [x].forM f = f x := by
  change (f x >>= fun _ => .ok ()) = f x
  cases f x <;> rfl

/-- A check that refuses a list refuses one of its members. -/
theorem exists_of_forM_error {f : β → Except ε Unit} {xs : List β} {e : ε}
    (refused : xs.forM f = .error e) : ∃ x ∈ xs, f x = .error e := by
  induction xs with
  | nil => cases refused
  | cons x xs ih =>
    change (f x >>= fun _ => xs.forM f) = .error e at refused
    cases first : f x with
    | error e' =>
      rw [first] at refused
      cases refused
      exact ⟨x, List.mem_cons_self, first⟩
    | ok _ =>
      rw [first] at refused
      obtain ⟨y, member, fails⟩ := ih refused
      exact ⟨y, List.mem_cons_of_mem x member, fails⟩

theorem mapM_ok_of_all {f : β → Except ε γ} {xs : List β} (all : ∀ x ∈ xs, ∃ y, f x = .ok y) :
    ∃ ys, xs.mapM f = .ok ys := by
  cases done : xs.mapM f with
  | ok ys => exact ⟨ys, rfl⟩
  | error e =>
    obtain ⟨x, member, e', failed⟩ := mapM_eq_error.mp ⟨e, done⟩
    obtain ⟨y, succeeded⟩ := all x member
    rw [succeeded] at failed
    cases failed

theorem mapM_ok_of_mem {f : β → Except ε γ} {xs : List β} {ys : List γ} {x : β}
    (done : xs.mapM f = .ok ys) (member : x ∈ xs) : ∃ y, f x = .ok y := by
  obtain ⟨y, -, hy⟩ := exists_of_forall₂ (mapM_eq_ok.mp done) member
  exact ⟨y, hy⟩

/-- The first failure decides, whatever comes after it. -/
theorem mapM_first_error {f : β → Except ε γ} {xs : List β} {ys : List γ} {x : β} {e : ε}
    (done : xs.mapM f = .ok ys) (fails : f x = .error e) (rest : List β) :
    (xs ++ x :: rest).mapM f = .error e := by
  simp [done, fails]

/-- What the first failure of a list is: all members before it succeed. -/
theorem mapM_error_at {f : β → Except ε γ} {xs : List β} {i : Nat} {x : β} {e : ε}
    (at_i : xs[i]? = some x) (fails : f x = .error e)
    (done : ∀ (j : Nat) y, j < i → xs[j]? = some y → ∃ z, f y = .ok z) : xs.mapM f = .error e := by
  obtain ⟨inside, rfl⟩ := List.getElem?_eq_some_iff.mp at_i
  rw [← List.take_append_drop i xs, List.drop_eq_getElem_cons inside]
  cases before : (xs.take i).mapM f with
  | ok ys => exact mapM_first_error before fails _
  | error e' =>
    obtain ⟨y, member, e'', failed⟩ := mapM_eq_error.mp ⟨e', before⟩
    obtain ⟨j, less, rfl⟩ := List.mem_take_iff_getElem.mp member
    obtain ⟨z, succeeded⟩ := done j _ (by omega) (List.getElem?_eq_getElem (by omega))
    rw [succeeded] at failed
    cases failed

theorem mapM_congr {f f' : β → Except ε γ} {xs : List β} (same : ∀ x ∈ xs, f x = f' x) :
    xs.mapM f = xs.mapM f' := by
  induction xs with
  | nil => rfl
  | cons x xs ih =>
    rw [List.mapM_cons, List.mapM_cons, same x (by simp),
      ih fun y member => same y (List.mem_cons_of_mem x member)]

/-- Outcomes for a list when every member has one. -/
theorem exists_mapM {Q : γ → Prop} {f : β → Except ε γ} {xs : List β}
    (each : ∀ x ∈ xs, ∃ y, f x = .ok y ∧ Q y) :
    ∃ ys, xs.mapM f = .ok ys ∧ ys.length = xs.length ∧ ∀ y ∈ ys, Q y := by
  induction xs with
  | nil => exact ⟨[], rfl, rfl, nofun⟩
  | cons x xs ih =>
    obtain ⟨y, first, holds⟩ := each x List.mem_cons_self
    obtain ⟨ys, others, length, all⟩ := ih fun x' member => each x' (List.mem_cons_of_mem x member)
    refine ⟨y :: ys, ?_, by simp [length], List.forall_mem_cons.mpr ⟨holds, all⟩⟩
    rw [List.mapM_cons, first, others]
    rfl

theorem mapM_range {f : Nat → Except ε γ} {g : β → Except ε γ} {xs : List β}
    (same : ∀ (d : Nat) x, xs[d]? = some x → f d = g x) : (List.range xs.length).mapM f = xs.mapM g := by
  induction xs generalizing f with
  | nil => rfl
  | cons x xs ih =>
    have others : (List.range xs.length).mapM (f ∘ Nat.succ) = xs.mapM g :=
      ih fun d y at_d => same (d + 1) y at_d
    rw [List.length_cons, List.range_succ_eq_map, List.mapM_cons, List.mapM_cons, List.mapM_map,
      same 0 x rfl, others]

/-- Steps whose first parts all succeed. -/
theorem mapM_bind {δ : Type} {f : β → Except ε γ} {g : γ → Except ε δ} {xs : List β}
    {ys : List γ} (done : xs.mapM f = .ok ys) : (xs.mapM fun x => f x >>= g) = ys.mapM g := by
  induction xs generalizing ys with
  | nil =>
    cases done
    rfl
  | cons x xs ih =>
    rw [List.mapM_cons] at done
    obtain ⟨y, here, done⟩ := bind_eq_ok.mp done
    obtain ⟨rest, others, done⟩ := bind_eq_ok.mp done
    cases done
    rw [List.mapM_cons, List.mapM_cons, here, ih others]
    rfl

/-- What every successful step keeps, a successful fold keeps. -/
theorem foldlM_keeps {P : β → Prop} {f : β → γ → Except ε β} {xs : List γ}
    (step : ∀ b x b', x ∈ xs → P b → f b x = .ok b' → P b') {b b' : β} (start : P b)
    (done : xs.foldlM f b = .ok b') : P b' := by
  induction xs generalizing b with
  | nil =>
    cases done
    exact start
  | cons x xs ih =>
    obtain ⟨c, hc, rest⟩ := bind_eq_ok.mp done
    exact ih (fun b y b' member => step b y b' (List.mem_cons_of_mem x member))
      (step b x c (by simp) start hc) rest

/-- A loop that goes on wherever another does. -/
theorem foldlM_imp {f g : β → γ → Except ε β} {xs : List γ} {b b' : β}
    (each : ∀ x ∈ xs, ∀ b b', f b x = .ok b' → g b x = .ok b') (done : xs.foldlM f b = .ok b') :
    xs.foldlM g b = .ok b' := by
  induction xs generalizing b with
  | nil => exact done
  | cons x xs ih =>
    obtain ⟨here, later⟩ := List.forall_mem_cons.mp each
    obtain ⟨c, first, rest⟩ := bind_eq_ok.mp done
    rw [List.foldlM_cons, here b c first, ok_bind]
    exact ih later rest

/-- A loop of steps that do not fail as long as an invariant holds, which they keep. -/
theorem foldlM_eq_ok_of_keeps {P : β → Prop} {f : β → γ → Except ε β} {g : β → γ → β} {xs : List γ}
    {b : β} (each : ∀ x ∈ xs, ∀ b, P b → f b x = .ok (g b x) ∧ P (g b x)) (start : P b) :
    xs.foldlM f b = .ok (xs.foldl g b) ∧ P (xs.foldl g b) := by
  induction xs generalizing b with
  | nil => exact ⟨rfl, start⟩
  | cons x xs ih =>
    obtain ⟨here, later⟩ := List.forall_mem_cons.mp each
    obtain ⟨turn, kept⟩ := here b start
    rw [List.foldlM_cons, turn, ok_bind, List.foldl_cons]
    exact ih later kept

/-- A loop of steps that do not fail. -/
theorem foldlM_eq_ok {f : β → γ → Except ε β} {g : β → γ → β} {xs : List γ} {b : β}
    (each : ∀ x ∈ xs, ∀ b, f b x = .ok (g b x)) : xs.foldlM f b = .ok (xs.foldl g b) :=
  (foldlM_eq_ok_of_keeps (P := fun _ => True) (fun x member b _ => ⟨each x member b, trivial⟩)
    trivial).1

/-- A loop over the first numbers goes through or stops at a failure, and till then keeps what every
turn keeps. -/
theorem foldlM_range_cases {P : Nat → β → Prop} {Q : ε → Prop} {f : β → Nat → Except ε β} {n : Nat}
    {b : β} (start : P 0 b)
    (step : ∀ k < n, ∀ b, P k b → (∃ b', f b k = .ok b' ∧ P (k + 1) b') ∨
      ∃ e, f b k = .error e ∧ Q e) :
    (∃ b', (List.range n).foldlM f b = .ok b' ∧ P n b') ∨
      ∃ e, (List.range n).foldlM f b = .error e ∧ Q e := by
  induction n with
  | zero => exact .inl ⟨b, rfl, start⟩
  | succ n ih =>
    rw [List.range_succ, List.foldlM_append]
    rcases ih fun k less => step k (Nat.lt_succ_of_lt less) with ⟨c, before, kept⟩ | ⟨e, before, stop⟩
    · rw [before, ok_bind, List.foldlM_cons]
      rcases step n n.lt_succ_self c kept with ⟨d, turn, kept⟩ | ⟨e, turn, stop⟩
      · exact .inl ⟨d, by rw [turn]; rfl, kept⟩
      · exact .inr ⟨e, by rw [turn]; rfl, stop⟩
    · exact .inr ⟨e, by rw [before]; rfl, stop⟩

end Outcome

namespace Run

variable {σ β γ : Type}

/-- Two steps that answer. -/
theorem ok_of_bind {act : Run σ β} {next : β → Run σ γ} {s : σ} {x : γ}
    (answered : ((act >>= next) s).1 = .ok x) :
    ∃ b, (act s).1 = .ok b ∧ (next b (act s).2).1 = .ok x := by
  rw [bind_apply] at answered
  rcases ran : act s with ⟨_ | b, t⟩ <;> rw [ran] at answered
  · cases answered
  · exact ⟨b, rfl, answered⟩

/-- A first step that answers. -/
theorem bind_of_first {act : Run σ β} {next : β → Run σ γ} {s : σ} {x : β}
    (answered : (act s).1 = .ok x) : ((act >>= next) s).1 = (next x (act s).2).1 := by
  rw [bind_apply]
  rcases ran : act s with ⟨_ | _, t⟩ <;> rw [ran] at answered <;> cases answered
  rfl

/-- A first step that fails. -/
theorem error_of_first {act : Run σ β} {next : β → Run σ γ} {s : σ} {e : Error}
    (failed : (act s).1 = .error e) : ((act >>= next) s).1 = .error e := by
  rw [bind_apply]
  rcases ran : act s with ⟨_ | _, t⟩ <;> rw [ran] at failed <;> cases failed
  rfl

/-- Steps that stay where they are. -/
theorem mapM_stay {act : β → Run σ γ} {f : β → Except Error γ} {xs : List β} {s : σ}
    (stay : ∀ x ∈ xs, act x s = (f x, s)) : xs.mapM act s = (xs.mapM f, s) := by
  induction xs with
  | nil => rfl
  | cons x xs ih =>
    have others := ih fun y member => stay y (List.mem_cons_of_mem x member)
    rw [List.mapM_cons, List.mapM_cons, bind_apply, stay x List.mem_cons_self]
    cases f x with
    | error e => rfl
    | ok y =>
      change (xs.mapM act >>= fun ys => pure (y :: ys)) s = _
      rw [bind_apply, others]
      cases xs.mapM f <;> rfl

/-- Steps of which the first settles the state, if it succeeds. -/
theorem mapM_settled {act : β → Run σ γ} {f : β → Except Error γ} {xs : List β} {s s' : σ}
    (more : xs ≠ []) (first : ∀ x ∈ xs, act x s = (f x, s'))
    (again : ∀ x ∈ xs, ∀ y, f x = .ok y → ∀ x ∈ xs, act x s' = (f x, s')) :
    xs.mapM act s = (xs.mapM f, s') := by
  obtain ⟨x, rest, rfl⟩ := List.exists_cons_of_ne_nil more
  rw [List.mapM_cons, List.mapM_cons, bind_apply, first x List.mem_cons_self]
  cases here : f x with
  | error e => rfl
  | ok y =>
    have others : rest.mapM act s' = (rest.mapM f, s') := mapM_stay fun x' member =>
      again x List.mem_cons_self y here x' (List.mem_cons_of_mem x member)
    change (rest.mapM act >>= fun ys => pure (y :: ys)) s' = _
    rw [bind_apply, others]
    cases rest.mapM f <;> rfl

/-- Steps after some that succeed. -/
theorem forM_append {f : β → Run σ Unit} {xs ys : List β} {s s' : σ}
    (before : xs.forM f s = (.ok (), s')) : (xs ++ ys).forM f s = ys.forM f s' := by
  have split : (xs ++ ys).forM f = xs.forM f >>= fun _ => ys.forM f := List.forM_append
  rw [split, bind_apply, before]

/-- One step. -/
theorem forM_singleton (f : β → Run σ Unit) (x : β) : [x].forM f = f x := by
  have last : [x].forM f = f x >>= fun _ => pure () := rfl
  rw [last, bind_pure_unit]

/-- One more step. -/
theorem forM_range_succ (f : Nat → Run σ Unit) (k : Nat) :
    (List.range (k + 1)).forM f = (List.range k).forM f >>= fun _ => f k := by
  have joined : (List.range k ++ [k]).forM f = (List.range k).forM f >>= fun _ => [k].forM f :=
    List.forM_append
  rw [List.range_succ, joined, forM_singleton]

theorem ofExcept_ok_bind (x : β) (next : β → Run σ γ) : (ofExcept (.ok x) >>= next) = next x := rfl

theorem ofExcept_error_bind (e : Error) (next : β → Run σ γ) (s : σ) :
    (ofExcept (.error e) >>= next) s = (.error e, s) := rfl

/-- A last step without effect. -/
theorem after_last {δ : Type} (act : Run σ γ) (f : γ → Except Error δ) (s : σ) :
    ((act >>= fun x => ofExcept (f x)) s).2 = (act s).2 := by
  rw [bind_apply]
  rcases act s with ⟨_ | _, _⟩ <;> rfl

theorem after_map {δ : Type} (act : Run σ γ) (f : γ → δ) (s : σ) : ((f <$> act) s).2 = (act s).2 :=
  after_last act (fun x => .ok (f x)) s

/-- What holds after a computation: one thing of a result, another of an error. -/
def Post (act : Run σ β) (s : σ) (done : β → σ → Prop) (failed : Error → σ → Prop) : Prop :=
  match act s with
  | (.ok x, s) => done x s
  | (.error e, s) => failed e s

namespace Post

variable {act : Run σ β} {s : σ} {done done' : β → σ → Prop} {failed failed' : Error → σ → Prop}

theorem imp (h : Post act s done failed) (hd : ∀ x s, done x s → done' x s)
    (hf : ∀ e s, failed e s → failed' e s) : Post act s done' failed' := by
  rcases ran : act s with ⟨_ | _, _⟩ <;> simp only [Post, ran] at h ⊢
  · exact hf _ _ h
  · exact hd _ _ h

theorem any : Post act s (fun _ _ => True) (fun _ _ => True) := by
  rcases ran : act s with ⟨_ | _, _⟩ <;> simp only [Post, ran]

theorem and (h : Post act s done failed) (h' : Post act s done' failed') :
    Post act s (fun x s => done x s ∧ done' x s) (fun e s => failed e s ∧ failed' e s) := by
  rcases ran : act s with ⟨_ | _, _⟩ <;> simp only [Post, ran] at h h' ⊢ <;> exact ⟨h, h'⟩

theorem bind {next : β → Run σ γ} {last : γ → σ → Prop} (h : Post act s done failed)
    (hn : ∀ x s, done x s → Post (next x) s last failed) : Post (act >>= next) s last failed := by
  rcases ran : act s with ⟨_ | _, _⟩ <;> simp only [Post, bind_apply, ran] at h ⊢
  · exact h
  · exact hn _ _ h

theorem map {P : σ → Prop} (h : Post act s (fun _ => P) fun _ => P) (form : β → γ) :
    Post (form <$> act) s (fun _ => P) fun _ => P :=
  h.bind fun _ _ reached => reached

/-- A first step that cannot fail. -/
theorem bind_sure {next : β → Run σ γ} {last : γ → σ → Prop} (h : Post act s done fun _ _ => False)
    (hn : ∀ x s, done x s → Post (next x) s last failed) : Post (act >>= next) s last failed :=
  bind (h.imp (fun _ _ => id) fun _ _ => False.elim) hn

/-- A first step that is a check. -/
theorem check (x : Except Error γ) {next : γ → Run σ β} (refused : ∀ e, x = .error e → failed e s)
    (passed : ∀ c, x = .ok c → Post (next c) s done failed) :
    Post (ofExcept x >>= next) s done failed := by
  cases x with
  | error e => exact refused e rfl
  | ok c => exact passed c rfl

theorem of_ok {x : β} {t : σ} (h : Post act s done failed) (ran : act s = (.ok x, t)) :
    done x t := by
  simpa only [Post, ran] using h

theorem result {x : β} (h : Post act s done failed) (ran : (act s).1 = .ok x) :
    done x (act s).2 :=
  h.of_ok (Prod.ext ran rfl)

theorem of_error {e : Error} {t : σ} (h : Post act s done failed) (ran : act s = (.error e, t)) :
    failed e t := by
  simpa only [Post, ran] using h

/-- What holds after success and failure holds in any case. -/
theorem always {P : σ → Prop} (h : Post act s (fun _ => P) fun _ => P) : P (act s).2 := by
  rcases ran : act s with ⟨_ | _, _⟩ <;> simpa only [Post, ran] using h

/-- A step for every element of a list, with an invariant that counts the elements done. -/
theorem forM {f : β → Run σ Unit} {done : Unit → σ → Prop} (I : Nat → σ → Prop) {xs : List β}
    (start : I 0 s)
    (step : ∀ i x s, xs[i]? = some x → I i s → Post (f x) s (fun _ => I (i + 1)) failed)
    (last : ∀ t, I xs.length t → done () t) : Post (forM xs f) s done failed := by
  induction xs generalizing I s with
  | nil => exact last s start
  | cons x xs ih =>
    rw [List.forM_cons]
    refine bind (step 0 x s rfl start) ?_
    intro _ s reached
    exact ih (fun i => I (i + 1)) reached (fun i y s at_i => step (i + 1) y s at_i) last

end Post

/-- Related states give one outcome and lead to related states. -/
def Respects (R : σ → σ → Prop) (act : Run σ β) : Prop :=
  ∀ s t, R s t → (act s).1 = (act t).1 ∧ R (act s).2 (act t).2

namespace Respects

variable {R : σ → σ → Prop}

theorem ofExcept (outcome : Except Error β) : Respects R (ofExcept outcome) :=
  fun _ _ h => ⟨rfl, h⟩

theorem pure (x : β) : Respects R (pure x : Run σ β) := fun _ _ h => ⟨rfl, h⟩

theorem bind {act : Run σ β} {next : β → Run σ γ} (ha : Respects R act)
    (hn : ∀ x, Respects R (next x)) : Respects R (act >>= next) := by
  intro s t h
  obtain ⟨same, reached⟩ := ha s t h
  simp only [bind_apply]
  rcases hs : act s with ⟨x, s'⟩
  rcases ht : act t with ⟨y, t'⟩
  rw [hs, ht] at same reached
  cases same
  cases x with
  | error e => exact ⟨rfl, reached⟩
  | ok x => exact hn x s' t' reached

theorem map {act : Run σ β} (ha : Respects R act) (form : β → γ) : Respects R (form <$> act) :=
  ha.bind fun x => pure (form x)

theorem forM {f : β → Run σ Unit} (xs : List β) (h : ∀ x ∈ xs, Respects R (f x)) :
    Respects R (forM xs f) := by
  induction xs with
  | nil => exact fun _ _ related => ⟨rfl, related⟩
  | cons x xs ih =>
    rw [List.forM_cons]
    exact (h x (by simp)).bind fun _ => ih fun y hy => h y (List.mem_cons_of_mem x hy)

theorem mapM {act : β → Run σ γ} (xs : List β) (h : ∀ x, Respects R (act x)) :
    Respects R (xs.mapM act) := by
  induction xs with
  | nil => exact pure []
  | cons x xs ih =>
    rw [List.mapM_cons]
    exact (h x).bind fun y => ih.bind fun ys => pure (y :: ys)

end Respects

theorem Post.of_respects {R : σ → σ → Prop} {act : Run σ β} {s : σ} (respects : Respects R act)
    (related : R s s) : Post act s (fun _ t => R t t) (fun _ t => R t t) := by
  have reached := (respects s s related).2
  rcases ran : act s with ⟨_ | _, _⟩ <;> rw [ran] at reached <;>
    simpa only [Post, ran] using reached

/-- Two computations have one outcome, and if it is a result, related states after it. -/
def Agree (act act' : Run σ β) (s t : σ) (after : σ → σ → Prop) : Prop :=
  match act s, act' t with
  | (.ok x, s'), (.ok y, t') => x = y ∧ after s' t'
  | (.error e, _), (.error e', _) => e = e'
  | _, _ => False

namespace Agree

variable {act act' : Run σ β} {s t : σ} {after last : σ → σ → Prop}

theorem outcome (h : Agree act act' s t after) : (act s).1 = (act' t).1 := by
  rcases hs : act s with ⟨_ | _, _⟩ <;> rcases ht : act' t with ⟨_ | _, _⟩ <;>
    simp only [Agree, hs, ht] at h
  · rw [h]
  · rw [h.1]

theorem bind {next next' : β → Run σ γ} (h : Agree act act' s t after)
    (hn : ∀ x s t, after s t → Agree (next x) (next' x) s t last) :
    Agree (act >>= next) (act' >>= next') s t last := by
  rcases hs : act s with ⟨_ | _, _⟩ <;> rcases ht : act' t with ⟨_ | _, _⟩ <;>
    simp only [Agree, hs, ht, bind_apply] at h ⊢
  · exact h
  · obtain ⟨rfl, reached⟩ := h
    exact hn _ _ _ reached

theorem map (h : Agree act act' s t after) (form : β → γ) :
    Agree (form <$> act) (form <$> act') s t after :=
  h.bind fun _ _ _ reached => ⟨rfl, reached⟩

theorem of_respects {R : σ → σ → Prop} (respects : Respects R act) (related : R s t) :
    Agree act act s t R := by
  obtain ⟨same, reached⟩ := respects s t related
  rcases hs : act s with ⟨_ | _, _⟩ <;> rcases ht : act t with ⟨_ | _, _⟩ <;>
    rw [hs, ht] at same reached <;> cases same <;> simp only [Agree, hs, ht]
  exact ⟨trivial, reached⟩

/-- A first step with one outcome, which leaves the states alone. -/
theorem check (x : Except Error β) {next next' : β → Run σ γ}
    (hn : ∀ b, x = .ok b → Agree (next b) (next' b) s t last) :
    Agree (ofExcept x >>= next) (ofExcept x >>= next') s t last := by
  cases x with
  | error e => exact rfl
  | ok b => exact hn b rfl

theorem of_outcome (same : (act s).1 = (act' t).1) : Agree act act' s t fun _ _ => True := by
  rcases hs : act s with ⟨_ | _, _⟩ <;> rcases ht : act' t with ⟨_ | _, _⟩ <;>
    rw [hs, ht] at same <;> cases same <;> simp only [Agree, hs, ht]
  exact ⟨trivial, trivial⟩

/-- Two computations agree when what is known of each leaves no choice. -/
theorem of_post {done done' : β → σ → Prop} {failed failed' : Error → σ → Prop}
    (h : Post act s done failed) (h' : Post act' t done' failed')
    (same : ∀ x y s t, done x s → done' y t → x = y ∧ after s t)
    (alike : ∀ e e' s t, failed e s → failed' e' t → e = e')
    (apart : ∀ x e s t, ¬ (done x s ∧ failed' e t))
    (apart' : ∀ x e s t, ¬ (failed e s ∧ done' x t)) : Agree act act' s t after := by
  rcases hs : act s with ⟨_ | _, _⟩ <;> rcases ht : act' t with ⟨_ | _, _⟩ <;>
    simp only [Agree, Post, hs, ht] at h h' ⊢
  · exact alike _ _ _ _ h h'
  · exact apart' _ _ _ _ ⟨h, h'⟩
  · exact apart _ _ _ _ ⟨h, h'⟩
  · exact same _ _ _ _ h h'

end Agree

/-- A computation follows another: where it succeeds the other one does, with a related result, and
where it fails there is an excuse for it or the other one fails in the same way. -/
def Follows {τ : Type} (act : Run σ β) (act' : Run τ γ) (s : σ) (t : τ) (excuse : Error → Prop)
    (both : β → γ → σ → τ → Prop) : Prop :=
  Post act s (fun x s' => ∃ y t', act' t = (.ok y, t') ∧ both x y s' t')
    (fun e _ => excuse e ∨ (act' t).1 = .error e)

namespace Follows

variable {τ δ ε : Type} {act : Run σ β} {act' : Run τ γ} {s : σ} {t : τ} {excuse : Error → Prop}
  {both both' : β → γ → σ → τ → Prop}

theorem imp (h : Follows act act' s t excuse both)
    (relates : ∀ x y s t, both x y s t → both' x y s t) : Follows act act' s t excuse both' :=
  Post.imp h (fun _ _ ⟨y, t', ran, holds⟩ => ⟨y, t', ran, relates _ _ _ _ holds⟩) fun _ _ => id

theorem excused {excuse' : Error → Prop} (h : Follows act act' s t excuse both)
    (more : ∀ e, excuse e → excuse' e) : Follows act act' s t excuse' both :=
  Post.imp h (fun _ _ => id) fun e _ => Or.imp_left (more e)

/-- What is known of both computations is known where they succeed together. -/
theorem and_post {done : β → σ → Prop} {done' : γ → τ → Prop} {failed : Error → σ → Prop}
    {failed' : Error → τ → Prop} (h : Follows act act' s t excuse both) (p : Post act s done failed)
    (p' : Post act' t done' failed') :
    Follows act act' s t excuse fun x y s t => both x y s t ∧ done x s ∧ done' y t := by
  refine (Post.and h p).imp ?_ fun _ _ h => h.1
  rintro x s' ⟨⟨y, t', ran, holds⟩, left⟩
  exact ⟨y, t', ran, holds, left, p'.of_ok ran⟩

theorem bind {next : β → Run σ δ} {next' : γ → Run τ ε} {last : δ → ε → σ → τ → Prop}
    (h : Follows act act' s t excuse both)
    (hn : ∀ x y s t, both x y s t → Follows (next x) (next' y) s t excuse last) :
    Follows (act >>= next) (act' >>= next') s t excuse last := by
  refine Post.bind (Post.imp h (fun _ _ => id) fun e _ => Or.imp_right error_of_first) ?_
  rintro x s' ⟨y, t', ran, holds⟩
  have rest : (act' >>= next') t = next' y t' := by rw [bind_apply, ran]
  unfold Follows at hn
  rw [rest]
  exact hn x y s' t' holds

/-- Two computations that cannot fail. -/
theorem of_sure {done : β → σ → Prop} {done' : γ → τ → Prop}
    (h : Post act s done fun _ _ => False) (h' : Post act' t done' fun _ _ => False) :
    Follows act act' s t excuse fun x y s t => done x s ∧ done' y t := by
  refine h.imp ?_ fun _ _ => False.elim
  intro x s' holds
  rcases ran : act' t with ⟨_ | y, t'⟩
  · exact (h'.of_error ran).elim
  · exact ⟨y, t', rfl, holds, h'.of_ok ran⟩

/-- Every computation follows itself. -/
theorem itself {act : Run σ β} {done : β → σ → Prop} {failed : Error → σ → Prop}
    (h : Post act s done failed) :
    Follows act act s s excuse fun x y s t => (x = y ∧ s = t) ∧ done x s := by
  unfold Follows
  rcases ran : act s with ⟨_ | x, s'⟩ <;> simp only [Post, ran]
  · exact .inr trivial
  · exact ⟨x, s', rfl, ⟨rfl, rfl⟩, h.of_ok ran⟩

/-- Steps for the elements of one list, with a relation that counts the elements done. -/
theorem forM {f : δ → Run σ Unit} {f' : δ → Run τ Unit} (R : Nat → σ → τ → Prop) {xs : List δ}
    (start : R 0 s t) (step : ∀ i x s t, xs[i]? = some x → R i s t →
      Follows (f x) (f' x) s t excuse fun _ _ => R (i + 1)) :
    Follows (forM xs f) (forM xs f') s t excuse fun _ _ => R xs.length := by
  induction xs generalizing R s t with
  | nil => exact ⟨(), t, rfl, start⟩
  | cons x xs ih =>
    rw [List.forM_cons, List.forM_cons]
    refine bind (step 0 x s t rfl start) ?_
    intro _ _ s t reached
    exact ih (fun i => R (i + 1)) reached fun i y s t at_i => step (i + 1) y s t at_i

end Follows

/-- The outcome does not depend on the state as long as the state satisfies the invariant, and the
invariant is kept. -/
def Oblivious (inv : σ → Prop) (act : Run σ β) : Prop := act.Respects fun s t => inv s ∧ inv t

/-- Oblivious computations for a list answer as each would alone. -/
theorem outcome_mapM {inv : σ → Prop} {act : β → Run σ γ} (oblivious : ∀ x, (act x).Oblivious inv)
    (xs : List β) {w : σ} (hw : inv w) : (xs.mapM act w).1 = xs.mapM fun x => (act x w).1 := by
  induction xs generalizing w with
  | nil => rfl
  | cons x xs ih =>
    rw [List.mapM_cons, List.mapM_cons, bind_apply]
    obtain ⟨-, kept, -⟩ := oblivious x w w ⟨hw, hw⟩
    rcases ran : act x w with ⟨e | y, w'⟩
    · rfl
    · rw [ran] at kept
      have rest := ih kept
      rw [Outcome.mapM_congr fun x' _ => (oblivious x' w' w ⟨kept, hw⟩).1] at rest
      rw [Outcome.ok_bind, ← rest]
      change ((xs.mapM act >>= fun ys => pure (y :: ys)) w').1 = _
      rw [bind_apply]
      rcases xs.mapM act w' with ⟨e | ys, w''⟩ <;> rfl

end Run

end Cotangent
