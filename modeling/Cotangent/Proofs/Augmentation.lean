import Cotangent.Proofs.Computation
import Cotangent.Proofs.Levels

/-! One depth-first search for an exchange. Levels rise by one along the search, so a path never
comes back to a column or a row it has passed. A search that succeeds therefore moves each column of
its path once and adds one matched column; a search that fails changes no pair and takes the level
from columns only that no row of the next level can help. -/
namespace Cotangent.Matching

variable {rows : Nat → List Nat} {nrows ncols : Nat} {m m' m₁ : Matching}
  {levels levels' levels₁ : Levels} {c i j k l fuel : Nat}

/-- A row tried from column `j`, where `go` searches from the column of the row. -/
def tryRow (go : Nat → Matching × Levels → Bool × Matching × Levels) (j : Nat)
    (acc : Bool × Matching × Levels) (i : Nat) : Bool × Matching × Levels :=
  if acc.1 then acc
  else if level acc.2.2 (acc.2.1.levelIndex i) = (level acc.2.2 j).map (· + 1) then
    match acc.2.1.col? i with
    | none => (true, acc.2.1.pair j i, acc.2.2)
    | some c =>
      let (found, m, levels) := go c acc.2
      (found, if found then m.pair j i else m, levels)
  else acc

theorem augment_succ (fuel j : Nat) (s : Matching × Levels) :
    augment rows (fuel + 1) j s =
      let (done, m, levels) := (rows j).foldl (tryRow (augment rows fuel) j) (false, s)
      (done, m, if done then levels else levels.setIfInBounds j none) := rfl

/-! ### What a search does to levels -/

/-- Only column `j` and columns of levels above `l` lose their level. -/
structure Faded (n j l : Nat) (levels levels' : Levels) : Prop where
  size : levels'.size = levels.size
  fades : ∀ k, level levels' k = level levels k ∨
    level levels' k = none ∧ k < n ∧ (k = j ∨ ∃ l', l < l' ∧ level levels k = some l')

/-- A column that lost its level has no row left at the next level. -/
def DeadEnds (rows : Nat → List Nat) (m : Matching) (levels levels' : Levels) : Prop :=
  ∀ k l, level levels k = some l → level levels' k = none →
    ∀ i ∈ rows k, level levels (m.levelIndex i) = some (l + 1) →
      level levels' (m.levelIndex i) = none

theorem Faded.refl (n j l : Nat) (levels : Levels) : Faded n j l levels levels :=
  ⟨rfl, fun _ => .inl rfl⟩

theorem Faded.extends {n : Nat} (faded : Faded n j l levels levels') : Extends levels' levels := by
  intro k l' known
  rcases faded.fades k with same | ⟨lost, -⟩
  · exact same ▸ known
  · rw [lost] at known
    cases known

theorem Extends.of_none (more : Extends levels' levels) (unknown : level levels k = none) :
    level levels' k = none := by
  cases known : level levels' k with
  | none => rfl
  | some l => rw [more k l known] at unknown; cases unknown

/-- A search one level higher fades no more than the search that starts it. -/
theorem Faded.trans {n : Nat} (faded : Faded n j l levels levels₁)
    (next : Faded n c (l + 1) levels₁ levels') (above : level levels₁ c = some (l + 1)) :
    Faded n j l levels levels' where
  size := next.size.trans faded.size
  fades k := by
    rcases next.fades k with same | ⟨lost, inside, rfl | ⟨l', less, known⟩⟩
    · rw [same]
      exact faded.fades k
    · exact .inr ⟨lost, inside, .inr ⟨l + 1, by omega, faded.extends _ _ above⟩⟩
    · exact .inr ⟨lost, inside, .inr ⟨l', by omega, faded.extends _ _ known⟩⟩

theorem Faded.keeps {n : Nat} (faded : Faded n c (l + 1) levels levels')
    (above : level levels c = some (l + 1)) (here : level levels j = some l) :
    level levels' j = some l := by
  rcases faded.fades j with same | ⟨-, -, rfl | ⟨l', less, known⟩⟩
  · exact same.trans here
  · rw [here] at above
    simp at above
  · rw [here] at known
    cases known
    omega

theorem DeadEnds.refl (m : Matching) (levels : Levels) : DeadEnds rows m levels levels := by
  intro k l known lost
  rw [lost] at known
  cases known

theorem DeadEnds.trans (older : Extends levels₁ levels) (dead : DeadEnds rows m levels levels₁)
    (older' : Extends levels' levels₁) (dead' : DeadEnds rows m levels₁ levels') :
    DeadEnds rows m levels levels' := by
  intro k l known lost i edge above
  cases before : level levels₁ k with
  | none => exact older'.of_none (dead k l known before i edge above)
  | some l' =>
    cases (older _ _ before).symm.trans known
    cases there : level levels₁ (m.levelIndex i) with
    | none => exact older'.of_none there
    | some l' =>
      cases (older _ _ there).symm.trans above
      exact dead' k l before lost i edge there

/-! ### What a search does to pairs -/

/-- After a successful search from column `j` of level `l`: column `j` has a row, all other matched
columns still have one, and pairs of levels not above that of `j` are as before. Only the row that
`j` had before, if any, still names `j`. -/
structure Augmented (rows : Nat → List Nat) (nrows ncols : Nat) (m : Matching) (levels : Levels)
    (j l : Nat) (m' : Matching) : Prop where
  size_rowOf : m'.rowOf.size = ncols
  size_colOf : m'.colOf.size = nrows
  edge : ∀ c i, m'.row? c = some i → i ∈ rows c
  forth : ∀ c i, m'.row? c = some i → m'.col? i = some c
  back : ∀ c i, m'.col? i = some c → m'.row? c = some i ∨ c = j ∧ m.row? j = some i
  matched : ∀ c, (∃ i, m'.row? c = some i) ↔ c = j ∨ ∃ i, m.row? c = some i
  moved : m'.row? j ≠ m.row? j
  kept_row : ∀ c, c ≠ j → (∀ l', level levels c = some l' → l' ≤ l) → m'.row? c = m.row? c
  kept_col : ∀ i, (∀ l', level levels (m.levelIndex i) = some l' → l' ≤ l) → m'.col? i = m.col? i

/-- A path that ends in an unmatched row. -/
theorem augmented_free (valid : m.Valid rows nrows ncols) (inside : j < ncols)
    (bound : i < nrows) (edge : i ∈ rows j) (free : m.col? i = none)
    (above : level levels (m.levelIndex i) = some (l + 1)) :
    Augmented rows nrows ncols m levels j l (m.pair j i) := by
  have place : j < m.rowOf.size := valid.size_rowOf ▸ inside
  have place' : i < m.colOf.size := valid.size_colOf ▸ bound
  have row (k : Nat) := row?_pair (k := k) (i := i) place
  have col (k : Nat) := col?_pair (k := k) (j := j) place'
  have unpaired (c : Nat) : m.row? c ≠ some i := by
    intro paired
    rw [(valid.inverse c i).mp paired] at free
    cases free
  refine ⟨by simp [valid.size_rowOf], by simp [valid.size_colOf], edge_pair place edge valid.edge,
    forth_pair place place' unpaired fun c i' => (valid.inverse c i').mp, ?_, ?_, ?_, ?_, ?_⟩
  · intro c i' paired
    rw [col] at paired
    split at paired
    · next same =>
      cases paired
      rw [row, if_pos rfl, same]
      exact .inl rfl
    · have before := (valid.inverse c i').mpr paired
      by_cases same : c = j
      · exact .inr ⟨same, same ▸ before⟩
      · rw [row, if_neg same]
        exact .inl before
  · intro c
    rw [row]
    by_cases same : c = j <;> simp [same]
  · rw [row, if_pos rfl]
    exact fun same => unpaired j same.symm
  · intro c apart _
    rw [row, if_neg apart]
  · intro i' low
    rw [col, if_neg]
    rintro rfl
    exact absurd (low _ above) (by omega)

/-- A path that goes on from the column of a matched row. -/
theorem Augmented.extend (valid : m.Valid rows nrows ncols) (inside : j < ncols)
    (bound : i < nrows) (edge : i ∈ rows j) (matched : m.col? i = some c)
    (faded : Faded ncols j l levels levels₁) (here : level levels₁ j = some l)
    (above : level levels₁ c = some (l + 1))
    (found : Augmented rows nrows ncols m levels₁ c (l + 1) m₁) :
    Augmented rows nrows ncols m levels j l (m₁.pair j i) := by
  have place : j < m₁.rowOf.size := found.size_rowOf ▸ inside
  have place' : i < m₁.colOf.size := found.size_colOf ▸ bound
  have row (k : Nat) := row?_pair (k := k) (i := i) place
  have col (k : Nat) := col?_pair (k := k) (j := j) place'
  have low (k : Nat) (low : ∀ l', level levels k = some l' → l' ≤ l) (l' : Nat)
      (known : level levels₁ k = some l') : l' ≤ l + 1 :=
    (low l' (faded.extends _ _ known)).trans (Nat.le_succ l)
  have before : m.row? c = some i := (valid.inverse c i).mpr matched
  have apart : j ≠ c := by
    rintro rfl
    simp [here] at above
  -- the row in hand and column `j` are below the search that went on
  have held : m₁.col? i = some c := by
    refine (found.kept_col i ?_).trans matched
    rw [levelIndex_of_matched matched, above]
    rintro _ ⟨⟩
    exact Nat.le_refl _
  have row_j : m₁.row? j = m.row? j := by
    refine found.kept_row j apart ?_
    rw [here]
    rintro _ ⟨⟩
    exact Nat.le_succ l
  have unpaired (x : Nat) : m₁.row? x ≠ some i := by
    intro paired
    cases held.symm.trans (found.forth x i paired)
    exact found.moved (paired.trans before.symm)
  refine ⟨by simp [found.size_rowOf], by simp [found.size_colOf], edge_pair place edge found.edge,
    forth_pair place place' unpaired found.forth, ?_, ?_, ?_, ?_, ?_⟩
  · intro x i' paired
    rw [col] at paired
    split at paired
    · next same =>
      cases paired
      rw [row, if_pos rfl, same]
      exact .inl rfl
    · next other =>
      rcases found.back x i' paired with paired' | ⟨rfl, paired'⟩
      · by_cases same : x = j
        · subst same
          exact .inr ⟨rfl, row_j ▸ paired'⟩
        · rw [row, if_neg same]
          exact .inl paired'
      · cases before.symm.trans paired'
        exact absurd rfl other
  · intro x
    rw [row]
    by_cases same : x = j
    · simp [same]
    · rw [if_neg same, found.matched]
      constructor
      · rintro (rfl | paired)
        · exact .inr ⟨i, before⟩
        · exact .inr paired
      · rintro (rfl | paired)
        · exact absurd rfl same
        · exact .inr paired
  · rw [row, if_pos rfl, ← row_j]
    exact fun same => unpaired j same.symm
  · intro x other below
    rw [row, if_neg other]
    refine found.kept_row x ?_ (low x below)
    rintro rfl
    exact absurd (below _ (faded.extends _ _ above)) (by omega)
  · intro i' below
    rw [col, if_neg]
    · exact found.kept_col i' (low _ below)
    · rintro rfl
      rw [levelIndex_of_matched matched] at below
      exact absurd (below _ (faded.extends _ _ above)) (by omega)

/-- From an unmatched column a path gives a valid matching with one pair more. -/
theorem Augmented.valid (found : Augmented rows nrows ncols m levels j l m')
    (free : m.row? j = none) : m'.Valid rows nrows ncols where
  size_rowOf := found.size_rowOf
  size_colOf := found.size_colOf
  edge := found.edge
  inverse c i := by
    refine ⟨found.forth c i, fun paired => ?_⟩
    rcases found.back c i paired with paired | ⟨-, paired⟩
    · exact paired
    · rw [free] at paired
      cases paired

theorem Augmented.columns_eq (found : Augmented rows nrows ncols m levels j l m') :
    m'.columns = insert j m.columns := by
  ext c
  rw [mem_columns, found.matched, Finset.mem_insert, mem_columns]

theorem Augmented.size_eq (found : Augmented rows nrows ncols m levels j l m')
    (free : m.row? j = none) : m'.size = m.size + 1 := by
  rw [size_eq_card, size_eq_card, found.columns_eq, Finset.card_insert_of_notMem]
  rw [mem_columns]
  rintro ⟨i, paired⟩
  rw [free] at paired
  cases paired

/-! ### The search -/

/-- How a search from column `j` of level `l` can end. -/
def Ended (rows : Nat → List Nat) (nrows ncols : Nat) (m : Matching) (levels : Levels) (j l : Nat)
    (out : Bool × Matching × Levels) : Prop :=
  Faded ncols j l levels out.2.2 ∧
    if out.1 then Augmented rows nrows ncols m levels j l out.2.1
    else out.2.1 = m ∧ level out.2.2 j = none ∧ DeadEnds rows m levels out.2.2

/-- What holds when some rows have been tried. -/
def Tried (rows : Nat → List Nat) (nrows ncols : Nat) (m : Matching) (levels : Levels) (j l : Nat)
    (done : List Nat) (out : Bool × Matching × Levels) : Prop :=
  Faded ncols j l levels out.2.2 ∧
    if out.1 then Augmented rows nrows ncols m levels j l out.2.1
    else out.2.1 = m ∧ level out.2.2 j = some l ∧ DeadEnds rows m levels out.2.2 ∧
      ∀ i ∈ done, level levels (m.levelIndex i) = some (l + 1) →
        level out.2.2 (m.levelIndex i) = none

/-- A row that is not of the next level leaves things as they are. -/
theorem Tried.skip {done : List Nat} (tried : Tried rows nrows ncols m levels j l done
    (false, m, levels₁)) (other : level levels₁ (m.levelIndex i) ≠ some (l + 1)) :
    Tried rows nrows ncols m levels j l (done ++ [i]) (false, m, levels₁) := by
  obtain ⟨faded, -, here, dead, looked⟩ := tried
  refine ⟨faded, rfl, here, dead, fun i' member above => ?_⟩
  rcases List.mem_append.mp member with earlier | last
  · exact looked i' earlier above
  · cases List.mem_singleton.mp last
    rcases faded.fades (m.levelIndex i) with same | ⟨lost, -⟩
    · exact absurd (same.trans above) other
    · exact lost

/-- A search behind a matched row that found nothing. -/
theorem Tried.fail {done : List Nat} (tried : Tried rows nrows ncols m levels j l done
    (false, m, levels₁)) (matched : m.col? i = some c) (above : level levels₁ c = some (l + 1))
    (ended : Ended rows nrows ncols m levels₁ c (l + 1) (false, m', levels')) :
    Tried rows nrows ncols m levels j l (done ++ [i]) (false, m', levels') := by
  obtain ⟨faded, -, here, dead, looked⟩ := tried
  obtain ⟨faded', same, lost, dead'⟩ := ended
  obtain rfl : m = m' := same.symm
  refine ⟨faded.trans faded' above, rfl, faded'.keeps above here,
    DeadEnds.trans faded.extends dead faded'.extends dead', fun i' member there => ?_⟩
  rcases List.mem_append.mp member with earlier | last
  · exact faded'.extends.of_none (looked i' earlier there)
  · cases List.mem_singleton.mp last
    rw [levelIndex_of_matched matched]
    exact lost

/-- Trying a row, when searches from the next level end as they should. -/
theorem Tried.step {go : Nat → Matching × Levels → Bool × Matching × Levels}
    (valid : m.Valid rows nrows ncols) (inside : j < ncols) (bound : ∀ i ∈ rows j, i < nrows)
    {done : List Nat} {acc : Bool × Matching × Levels}
    (goes : ∀ c levels₁, c < ncols → level levels₁ c = some (l + 1) →
      Faded ncols j l levels levels₁ →
      Ended rows nrows ncols m levels₁ c (l + 1) (go c (m, levels₁)))
    (edge : i ∈ rows j) (tried : Tried rows nrows ncols m levels j l done acc) :
    Tried rows nrows ncols m levels j l (done ++ [i]) (tryRow go j acc i) := by
  obtain ⟨found, m₁, levels₁⟩ := acc
  cases found with
  | true => exact tried
  | false =>
    obtain ⟨faded, same, here, -⟩ := id tried
    obtain rfl : m = m₁ := same.symm
    simp only [tryRow, here, Bool.false_eq_true, ↓reduceIte, Option.map_some]
    by_cases above : level levels₁ (m.levelIndex i) = some (l + 1)
    swap
    · rw [if_neg above]
      exact tried.skip above
    rw [if_pos above]
    cases matched : m.col? i with
    | none =>
      exact ⟨faded, augmented_free valid inside (bound i edge) edge matched (faded.extends _ _ above)⟩
    | some c =>
      rw [levelIndex_of_matched matched] at above
      have ended := goes c levels₁ (valid.size_rowOf ▸ valid.lt_of_col? matched) above faded
      rcases ran : go c (m, levels₁) with ⟨found, m₂, levels₂⟩
      rw [ran] at ended
      simp only [ran]
      cases found with
      | false => exact tried.fail matched above ended
      | true =>
        exact ⟨faded.trans ended.1 above, Augmented.extend valid inside (bound i edge) edge matched
          faded here above ended.2⟩

/-- When no row helps, the column loses its level. -/
theorem Tried.close {out : Bool × Matching × Levels} (inside : j < ncols)
    (size : levels.size = ncols + 1) (here : level levels j = some l)
    (tried : Tried rows nrows ncols m levels j l (rows j) out) :
    Ended rows nrows ncols m levels j l
      (out.1, out.2.1, if out.1 then out.2.2 else out.2.2.setIfInBounds j none) := by
  obtain ⟨found, m₁, levels₁⟩ := out
  cases found with
  | true => exact tried
  | false =>
    obtain ⟨faded, same, here', dead, looked⟩ := tried
    obtain rfl : m = m₁ := same.symm
    have in_levels : j < levels₁.size := by
      rw [faded.size, size]
      exact Nat.lt_succ_of_lt inside
    have reads (k : Nat) : level (levels₁.setIfInBounds j none) k =
        if k = j then none else level levels₁ k := level_setIfInBounds in_levels none
    refine ⟨⟨by simpa using faded.size, fun k => ?_⟩, rfl, by simp [reads], ?_⟩
    · by_cases same : k = j
      · subst same
        exact .inr ⟨by simp [reads], inside, .inl rfl⟩
      · simpa [reads, same] using faded.fades k
    · intro k l' known lost i edge above
      simp only [Bool.false_eq_true, ↓reduceIte, reads] at lost ⊢
      split
      · rfl
      · split at lost
        · next same =>
          subst same
          cases here.symm.trans known
          exact looked i edge above
        · exact dead k l' known lost i edge above

/-- A search from a column with a level ends by itself: an exchange is found, or no pair changes and
the columns that lost their level are dead ends. The steps it is given are enough when no level is
further away. -/
theorem Valid.augment (valid : m.Valid rows nrows ncols) (bound : ∀ j, ∀ i ∈ rows j, i < nrows)
    (inside : j < ncols) (size : levels.size = ncols + 1) (here : level levels j = some l)
    (enough : ∀ k l', level levels k = some l' → l' < l + fuel) :
    Ended rows nrows ncols m levels j l (augment rows fuel j (m, levels)) ∧
      ∀ extra, augment rows (fuel + extra) j (m, levels) = augment rows fuel j (m, levels) := by
  induction fuel generalizing j l levels with
  | zero => exact absurd (enough j l here) (by omega)
  | succ fuel ih =>
    have next (c : Nat) (levels₁ : Levels) (inside' : c < ncols)
        (above : level levels₁ c = some (l + 1)) (faded : Faded ncols j l levels levels₁) :=
      ih inside' (faded.size.trans size) above fun k l' known => by
        have far := enough k l' (faded.extends _ _ known)
        omega
    have step (done : List Nat) (i : Nat) (rest : List Nat) (acc : Bool × Matching × Levels)
        (split : rows j = done ++ i :: rest)
        (tried : Tried rows nrows ncols m levels j l done acc) :
        Tried rows nrows ncols m levels j l (done ++ [i]) (tryRow (augment rows fuel) j acc i) :=
      tried.step valid inside (bound j)
        (fun c levels₁ inside' above faded => (next c levels₁ inside' above faded).1)
        (split ▸ List.mem_append_right done List.mem_cons_self)
    have start : Tried rows nrows ncols m levels j l [] (false, m, levels) :=
      ⟨.refl _ _ _ _, rfl, here, .refl _ _, fun _ member => nomatch member⟩
    refine ⟨(foldl_keeps start step).close inside size here, fun extra => ?_⟩
    have both := foldl_relates (rows j) (f := tryRow (augment rows fuel) j)
      (g := tryRow (augment rows (fuel + extra)) j) (R := fun done acc acc' =>
        Tried rows nrows ncols m levels j l done acc ∧ acc = acc') ⟨start, rfl⟩ ?_
    · rw [Nat.add_right_comm, augment_succ, augment_succ, ← both.2]
    · rintro done i rest acc acc' split ⟨tried, rfl⟩
      refine ⟨step done i rest acc split tried, ?_⟩
      obtain ⟨found, m₁, levels₁⟩ := acc
      cases found with
      | true => rfl
      | false =>
        obtain ⟨faded, same, here', -⟩ := tried
        obtain rfl : m = m₁ := same.symm
        simp only [tryRow, here', Bool.false_eq_true, ↓reduceIte, Option.map_some]
        split
        · next above =>
          cases matched : m.col? i with
          | none => rfl
          | some c =>
            rw [levelIndex_of_matched matched] at above
            simp only [(next c levels₁ (valid.size_rowOf ▸ valid.lt_of_col? matched) above
              faded).2 extra]
        · rfl

end Cotangent.Matching
