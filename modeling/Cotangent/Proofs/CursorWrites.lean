import Cotangent.Factor.RowWrites
import Cotangent.Proofs.Cursors
import Cotangent.Proofs.TransposedPatterns

/-! Where a Cholesky factorization writes. The rows of the factor are found again while the values are
computed, and nothing but the cursors says where an entry belongs. Since every row fills exactly the
positions that the analysis has for it, a cursor always stands at the position of the row that is worked on,
and all rows together fill every position once. This needs no law of the numbers, and holds for any values:
where they do not fit the pattern, a row that needs a missing one is not begun. -/
namespace Cotangent.Cholesky

open EliminationTree Pattern

variable {α : Type} [Scalar α] {p : Pattern} {a : Analysis} {s t : Partial α} {i j k : Nat}
  {values : Array α} {log noted : List Write}

/-! ### Values of any number -/

/-- The values with zeros for those that are missing. -/
def padded (p : Pattern) (values : Array α) : SparseMatrix α where
  pattern := p
  values := Array.ofFn fun q : Fin p.nnz => values.getD q 0
  size_values := Array.size_ofFn

/-- A row that can be loaded is the row of the padded values. -/
theorem load_padded {work : Array α} (fills : a.Fills p) (ran : load a values k s.work = .ok work) :
    work = s.loaded a (padded p values) k := by
  have same : load a (padded p values).values k s.work = .ok work := by
    refine Outcome.foldlM_imp (fun cell member acc acc' => ?_) ran
    obtain ⟨i, number⟩ := cell
    obtain ⟨q, found, source⟩ := exists_source_eq fills member
    have known (d : Nat) : a.source.getD number d = q := by
      rw [Array.getD_eq_getD_getElem?, source, Option.getD_some]
    have inside : q < p.nnz := position?_lt found
    simp only [known]
    cases value : values[q]? with
    | none => exact nofun
    | some x =>
      have kept : (padded p values).values[q]? = some x := by
        simp [padded, Array.getD_eq_getD_getElem?, inside, value]
      rw [kept]
      exact id
  rw [load_eq (m := padded p values) fills] at same
  exact (Except.ok.inj same).symm

/-! ### What a journal has to say -/

/-- The place of a write is the position that the pattern of `L` has for its row and column: it is within
the column, it belongs to the row, and it is the first one exactly for the diagonal. -/
structure Analysis.Expects (a : Analysis) (w : Write) : Prop where
  start : a.lower.offset w.column ≤ w.place
  stop : w.place < a.lower.offset (w.column + 1)
  row : a.lower.rowIndices[w.place]? = some w.row
  first : w.place = a.lower.offset w.column ↔ w.column = w.row

/-- From a column the tree leads to another one, or the two are the same. -/
def Analysis.Leads (a : Analysis) : Nat → Nat → Prop :=
  Relation.ReflTransGen fun j q => lookup a.parent j = some q

/-- One write comes before another: in an earlier row, or in the same row in a column to which the tree
does not lead from the column of the other. -/
def Analysis.Before (a : Analysis) (u w : Write) : Prop :=
  u.row < w.row ∨ u.row = w.row ∧ ¬ a.Leads w.column u.column

omit [Scalar α] in
theorem leads_iff (fills : a.Fills p) : a.Leads i j ↔ p.Above i j := by
  have same : (fun j q => lookup a.parent j = some q) = p.IsParent :=
    funext fun j => funext fun q => propext (fills.parent j q)
  rw [Analysis.Leads, same, Above]

theorem expects_of_position? (fills : a.Fills p) {w : Write}
    (found : a.lower.position? w.row w.column = some w.place) : a.Expects w := by
  have member := mem_of_position? found
  have fill := (fills.mem_iff w.row w.column).mp member
  have inside : w.column < a.lower.ncols := fills.columns.symm ▸ fill.le.trans_lt fill.lt_nrows
  have place : w.place = a.lower.cursor w.column w.row :=
    Option.some.inj (found.symm.trans (position?_of_mem member))
  have self := cursor_self fills w.column
  constructor
  case start =>
    rw [place, cursor]
    exact Nat.le_add_right ..
  case stop =>
    have next := a.lower.cursor_succ w.column w.row
    rw [if_pos member] at next
    have end_ := cursor_le_offset_succ inside (w.row + 1)
    omega
  case row => exact getElem?_rowIndices found
  case first =>
    rw [place, ← self]
    constructor
    · intro same
      by_contra apart
      have less := (cursor_lt_iff (k := w.row) ((fills.mem_iff w.column w.column).mpr
        (fills.fill_self (fill.le.trans_lt fill.lt_nrows)))).mpr (fill.le.lt_of_ne apart)
      exact less.ne same.symm
    · rintro same
      rw [same]

/-- What is kept of a journal while rows are worked on. -/
structure Journal (a : Analysis) (log : List Write) : Prop where
  located : ∀ w ∈ log, a.lower.position? w.row w.column = some w.place
  ordered : log.Pairwise a.Before

/-- The writes of row `k` from a state. -/
def Partial.writes (a : Analysis) (k : Nat) (s : Partial α) : List Write :=
  (s.row a k ++ [k]).map fun j => ⟨k, j, a.lower.cursor j k⟩

/-! ### One row -/

theorem eq_replicate {work : Array α} {n : Nat} (size : work.size = n)
    (clear : ∀ i, work.getD i 0 = 0) : work = Array.replicate n 0 := by
  refine Array.ext (by simpa using size) fun i inside _ => ?_
  have zero := clear i
  rw [Array.getD_eq_getD_getElem?, Array.getElem?_eq_getElem inside, Option.getD_some] at zero
  rw [zero, Array.getElem_replicate]

/-- The columns of a row are eliminated as without a journal, and every cursor is noted where the pattern
has it. -/
theorem foldl_eliminateNoted {m : SparseMatrix α} (sound : s.Sound a m.pattern.nrows k)
    (fills : a.Fills m.pattern) (inside : k < m.pattern.nrows) (log : List Write) :
    (s.row a k).foldl (eliminateNoted a.lower.colPtrs.toArray a.lower.rowIndices.toArray k)
        ((s.opened a m k, (s.loaded a m k).getD k 0), log) =
      (s.reduced a m k, log ++ (s.row a k).map fun j => ⟨k, j, a.lower.cursor j k⟩) := by
  have row := (sound.row (m := m) fills inside).1
  have start : ((s.opened a m k, (s.loaded a m k).getD k 0), log) =
      ((s.opened a m k, (s.loaded a m k).getD k 0),
        log ++ [].map fun j => (⟨k, j, a.lower.cursor j k⟩ : Write)) := by
    rw [List.map_nil, List.append_nil]
  refine (foldl_relates (s.row a k)
    (f := eliminate a.lower.colPtrs.toArray a.lower.rowIndices.toArray) (R := fun done acc acc' =>
      Reduced a m.pattern k (s.row a k) (s.opened a m k) done acc ∧
        acc' = (acc, log ++ done.map fun j => ⟨k, j, a.lower.cursor j k⟩))
    ⟨sound.reduced_nil fills inside _, start⟩ ?_).2
  rintro done j rest acc _ split ⟨reduced, rfl⟩
  have below : j < k := ((row.mem_iff j).mp (by simp [split])).1
  have cursor := reduced.cursor row split
  have turn := turn_eliminate fills (below.trans inside) cursor
  have noted : eliminateNoted a.lower.colPtrs.toArray a.lower.rowIndices.toArray k
      (acc, log ++ done.map fun j => ⟨k, j, a.lower.cursor j k⟩) j =
      (eliminate a.lower.colPtrs.toArray a.lower.rowIndices.toArray acc j,
        log ++ (done ++ [j]).map fun j => ⟨k, j, a.lower.cursor j k⟩) := by
    simp only [eliminateNoted, cursor, List.map_append, List.map_cons, List.map_nil,
      List.append_assoc]
  exact ⟨reduced.step fills row split turn, noted⟩

/-- A row that can be loaded is settled when its columns are eliminated. -/
theorem factorRowNoted_of_load {work : Array α} (sound : s.Sound a p.nrows k) (fills : a.Fills p)
    (inside : k < p.nrows) (tolerance : α) (log : List Write)
    (ran : load a values k s.work = .ok work) :
    factorRowNoted a values tolerance k (s, log) = settleNoted tolerance k (s.row a k)
      (s.reduced a (padded p values) k, log ++ (s.row a k).map fun j => ⟨k, j, a.lower.cursor j k⟩) := by
  rw [← foldl_eliminateNoted (m := padded p values) sound fills inside log]
  simp only [factorRowNoted, ran]
  rw [load_padded fills ran]
  rfl

theorem factorRow_of_load {work : Array α} (fills : a.Fills p) (tolerance : α)
    (ran : load a values k s.work = .ok work) :
    factorRow a values tolerance k s =
      if Scalar.le (s.reduced a (padded p values) k).2 tolerance then
        (.error (.factorization .numeric
          (.notPositiveDefinite k (Scalar.scientific (s.reduced a (padded p values) k).2))),
          { (s.reduced a (padded p values) k).1 with
            work := (s.row a k).foldl (fun work i => work.setIfInBounds i 0)
              (s.reduced a (padded p values) k).1.work })
      else (.ok (), s.closed a (padded p values) k) := by
  simp only [factorRow, ran]
  rw [load_padded fills ran]
  rfl

/-- A dense row that is zero can be cleared again. -/
theorem foldl_clear {work : Array α} {n : Nat} (zero : work = Array.replicate n 0)
    (reach : List Nat) :
    reach.foldl (fun work i => work.setIfInBounds i 0) work = Array.replicate n 0 := by
  refine foldl_keeps (P := fun _ work => work = Array.replicate n 0) zero ?_
  rintro _ i _ _ - rfl
  exact Array.setIfInBounds_replicate_self

/-- A row that stops keeps to the beginning of its writes, and a row that is finished makes all of them.
Either way the dense row is zero. -/
theorem factorRowNoted_cases (sound : s.Sound a p.nrows k) (fills : a.Fills p) (inside : k < p.nrows)
    (values : Array α) (tolerance : α) (log : List Write) :
    (∃ e t noted, factorRow a values tolerance k s = (.error e, t) ∧
      factorRowNoted a values tolerance k (s, log) = (.error e, (t, log ++ noted)) ∧
      t.work = Array.replicate p.nrows 0 ∧ noted <+: s.writes a k) ∨
    (factorRow a values tolerance k s = (.ok (), s.closed a (padded p values) k) ∧
      factorRowNoted a values tolerance k (s, log) =
        (.ok (), (s.closed a (padded p values) k, log ++ s.writes a k))) := by
  cases ran : load a values k s.work with
  | error e =>
    have plain : factorRow a values tolerance k s = (.error e, s) := by
      simp only [factorRow, ran]
    have noted : factorRowNoted a values tolerance k (s, log) = (.error e, (s, log ++ [])) := by
      simp only [factorRowNoted, ran, List.append_nil]
    have idle := eq_replicate sound.size_work sound.clear
    exact .inl ⟨e, s, [], plain, noted, idle, List.nil_prefix⟩
  | ok work =>
    have plain := factorRow_of_load fills tolerance ran
    have noted := factorRowNoted_of_load sound fills inside tolerance log ran
    have split : s.writes a k =
        ((s.row a k).map fun j => ⟨k, j, a.lower.cursor j k⟩) ++ [⟨k, k, a.lower.cursor k k⟩] :=
      List.map_append
    by_cases small : Scalar.le (s.reduced a (padded p values) k).2 tolerance = true
    · rw [if_pos small] at plain
      have reduced := sound.reduced (m := padded p values) fills inside
      have zero := eq_replicate reduced.size_work fun i => reduced.clear i id
      have idle := foldl_clear zero (s.row a k)
      have part := split ▸ List.prefix_append _ _
      exact .inl ⟨_, _, _, plain, noted.trans (if_pos small), idle, part⟩
    · rw [if_neg small] at plain
      have next := sound.next_reduced (m := padded p values) fills inside
      rw [split, ← next, ← List.append_assoc]
      exact .inr ⟨plain, noted.trans (if_neg small)⟩

theorem mem_reach_iff (sound : s.Sound a p.nrows k) (fills : a.Fills p) (inside : k < p.nrows)
    (j : Nat) : j ∈ s.row a k ↔ j < k ∧ k ∈ a.lower.col j := by
  rw [fills.mem_iff]
  exact (sound.row (m := padded p (#[] : Array α)) fills inside).1.mem_iff j

theorem ordered_reach (sound : s.Sound a p.nrows k) (fills : a.Fills p) (inside : k < p.nrows) :
    (s.row a k).Pairwise fun v w => ¬ a.Leads w v :=
  (sound.row (m := padded p (#[] : Array α)) fills inside).1.ordered.imp fun apart =>
    mt (leads_iff fills).mp apart

/-- The writes of a row are those of its positions. -/
theorem mem_writes_iff (sound : s.Sound a p.nrows k) (fills : a.Fills p) (inside : k < p.nrows)
    {w : Write} : w ∈ s.writes a k ↔
      w.row = k ∧ k ∈ a.lower.col w.column ∧ w.place = a.lower.cursor w.column k := by
  have diagonal := (fills.mem_iff k k).mpr (fills.fill_self inside)
  have met (j : Nat) : j ∈ s.row a k ++ [k] ↔ k ∈ a.lower.col j := by
    rw [List.mem_append, List.mem_singleton, mem_reach_iff sound fills inside]
    constructor
    · rintro (⟨-, held⟩ | rfl)
      · exact held
      · exact diagonal
    · intro held
      have below := ((fills.mem_iff k j).mp held).le
      exact below.lt_or_eq.imp_left fun less => ⟨less, held⟩
  obtain ⟨i, j, q⟩ := w
  simp only [Partial.writes, List.mem_map, met, Write.mk.injEq]
  constructor
  · rintro ⟨j, held, rfl, rfl, rfl⟩
    exact ⟨rfl, held, rfl⟩
  · rintro ⟨rfl, held, rfl⟩
    exact ⟨j, held, rfl, rfl, rfl⟩

theorem ordered_writes (sound : s.Sound a p.nrows k) (fills : a.Fills p) (inside : k < p.nrows) :
    (s.writes a k).Pairwise a.Before := by
  have ordered : (s.row a k ++ [k]).Pairwise fun v w => ¬ a.Leads w v := by
    refine List.pairwise_append.mpr
      ⟨ordered_reach sound fills inside, List.pairwise_singleton _ _, fun v member w last leads => ?_⟩
    have below := ((mem_reach_iff sound fills inside v).mp member).1
    have above := ((leads_iff fills).mp leads).le
    rw [List.mem_singleton.mp last] at above
    exact absurd below (Nat.not_lt.mpr above)
  exact List.pairwise_map.mpr (ordered.imp fun apart => .inr ⟨rfl, apart⟩)

/-! ### All rows -/

/-- What holds when the rows before `k` are finished and their writes are in the journal. -/
structure Recorded (a : Analysis) (p : Pattern) (k : Nat) (s : Partial α) (log : List Write) : Prop where
  sound : s.Sound a p.nrows k
  journal : Journal a log
  rows : ∀ i j, (∃ w ∈ log, w.row = i ∧ w.column = j) ↔ i < k ∧ i ∈ a.lower.col j

namespace Recorded

theorem start (fills : a.Fills p) : Recorded a p 0 (Partial.start a : Partial α) [] where
  sound := Partial.sound_start fills
  journal := ⟨nofun, .nil⟩
  rows i j := by simp

/-- The journal with some writes of the next row. -/
theorem journal_append (recorded : Recorded a p k s log) (fills : a.Fills p) (inside : k < p.nrows)
    (within : noted <+: s.writes a k) : Journal a (log ++ noted) := by
  have sound := recorded.sound
  have later (w : Write) (member : w ∈ noted) :=
    (mem_writes_iff sound fills inside).mp (within.subset member)
  constructor
  case located =>
    refine List.forall_mem_append.mpr ⟨recorded.journal.located, fun w member => ?_⟩
    obtain ⟨rfl, held, place⟩ := later w member
    rw [position?_of_mem held, place]
  case ordered =>
    refine List.pairwise_append.mpr ⟨recorded.journal.ordered,
      (ordered_writes sound fills inside).sublist within.sublist, fun u old w new => .inl ?_⟩
    rw [(later w new).1]
    exact ((recorded.rows u.row u.column).mp ⟨u, old, rfl, rfl⟩).1

theorem finish (recorded : Recorded a p k s log) (fills : a.Fills p) (inside : k < p.nrows)
    (values : Array α) :
    Recorded a p (k + 1) (s.closed a (padded p values) k) (log ++ s.writes a k) where
  sound := recorded.sound.closed (m := padded p values) fills inside
  journal := recorded.journal_append fills inside (List.prefix_refl _)
  rows i j := by
    have old := recorded.rows i j
    have new : (∃ w ∈ s.writes a k, w.row = i ∧ w.column = j) ↔ i = k ∧ i ∈ a.lower.col j := by
      simp only [mem_writes_iff recorded.sound fills inside]
      constructor
      · rintro ⟨w, ⟨rfl, held, -⟩, rfl, rfl⟩
        exact ⟨rfl, held⟩
      · rintro ⟨rfl, held⟩
        exact ⟨⟨i, j, a.lower.cursor j i⟩, ⟨rfl, held, rfl⟩, rfl, rfl⟩
    simp only [List.mem_append, or_and_right, exists_or, old, new, Nat.lt_succ_iff_lt_or_eq]

end Recorded

/-- The loop with a journal does what the loop does. After it the dense row is zero, whether or not it went
through all rows; and if it did, all their writes are in the journal. -/
theorem rows_recorded (fills : a.Fills p) (values : Array α) (tolerance : α) (within : k ≤ p.nrows) :
    Run.Post ((List.range k).forM (factorRowNoted a values tolerance)) (Partial.start a, [])
      (fun _ x => (List.range k).forM (factorRow a values tolerance) (Partial.start a) = (.ok (), x.1) ∧
        Recorded a p k x.1 x.2)
      (fun e x => (List.range k).forM (factorRow a values tolerance) (Partial.start a) =
        (.error e, x.1) ∧ x.1.work = Array.replicate p.nrows 0 ∧ Journal a x.2) := by
  induction k with
  | zero => exact ⟨rfl, .start fills⟩
  | succ k ih =>
    have before := ih (Nat.le_of_succ_le within)
    simp only [Run.forM_range_succ]
    refine Run.Post.bind (before.imp (fun _ _ => id) ?_) ?_
    · rintro e ⟨t, log⟩ ⟨plain, idle, journal⟩
      exact ⟨by rw [Run.bind_apply, plain], idle, journal⟩
    · rintro - ⟨s, log⟩ ⟨plain, recorded⟩
      have row := factorRowNoted_cases recorded.sound fills within values tolerance log
      unfold Run.Post
      rcases row with ⟨e, t, noted, last, ran, idle, part⟩ | ⟨last, ran⟩
      · rw [ran]
        exact ⟨by rw [Run.bind_apply, plain]; exact last, idle,
          recorded.journal_append fills within part⟩
      · rw [ran]
        exact ⟨by rw [Run.bind_apply, plain]; exact last, recorded.finish fills within values⟩

/-- With all rows finished every position is filled, and none twice. -/
theorem Recorded.perm_range (recorded : Recorded a p p.nrows s log) (fills : a.Fills p) :
    (log.map (·.place)).Perm (List.range a.lower.nnz) := by
  have located := recorded.journal.located
  have nodup : (log.map (·.place)).Nodup := by
    refine List.pairwise_map.mpr (recorded.journal.ordered.imp_of_mem ?_)
    intro u w first second before same
    obtain ⟨row, column⟩ := position?_inj (located u first) (same ▸ located w second)
    rcases before with less | ⟨-, apart⟩
    · exact less.ne row
    · exact apart (column ▸ .refl)
  refine (List.perm_ext_iff_of_nodup nodup List.nodup_range).mpr fun q => ?_
  rw [List.mem_map, List.mem_range]
  constructor
  · rintro ⟨w, member, rfl⟩
    exact position?_lt (located w member)
  · intro inside
    obtain ⟨i, j, found⟩ := exists_position?_eq inside
    have held := mem_of_position? found
    have below := ((fills.mem_iff i j).mp held).lt_nrows
    obtain ⟨w, member, rfl, rfl⟩ := (recorded.rows i j).mpr ⟨below, held⟩
    exact ⟨w, member, Option.some.inj ((located w member).symm.trans found)⟩

/-- After all rows a cursor is at the end of its column. -/
theorem Partial.Sound.next_last (sound : s.Sound a p.nrows p.nrows) (fills : a.Fills p)
    (inside : j < p.nrows) : s.next[j]? = some (a.lower.offset (j + 1)) := by
  have whole : (a.lower.col j).countP (· < p.nrows) = (a.lower.col j).length :=
    List.countP_eq_length.mpr fun i held =>
      decide_eq_true ((fills.mem_iff i j).mp held).lt_nrows
  have last : a.lower.cursor j p.nrows = a.lower.offset (j + 1) := by
    rw [cursor, whole, offset_succ (inside.trans_eq fills.columns.symm)]
  have held := sound.next j inside
  have within : j < s.next.size := inside.trans_eq sound.size_next.symm
  rw [Array.getD_eq_getD_getElem?, Array.getElem?_eq_getElem within, Option.getD_some] at held
  rw [Array.getElem?_eq_getElem within, held, last]

/-- Cursors stay aligned with the pattern of `L`, for any numbers and any values. The loop over the first
`k` rows leaves the dense row at zero, wherever it ends. Every number is stored at the place that the
pattern has for its row and column, the diagonal at the start of its column; earlier rows come first, and in
a row no column comes twice or after one to which the tree leads from it. If the loop has gone through, what
has been stored are the positions of these rows, and the next row, if there is one, finds its own columns
again, in that order. After all rows every cursor is at the end of its column, and every position of `L` has
been filled once. -/
theorem writes_follow_pattern (analysed : analyse p = .ok a) (values : Array α) (tolerance : α)
    (within : k ≤ a.lower.ncols) :
    let out := (List.range k).forM (factorRowNoted a values tolerance) (Partial.start a, [])
    (List.range k).forM (factorRow a values tolerance) (Partial.start a) = (out.1, out.2.1) ∧
    out.2.1.work = Array.replicate a.lower.ncols 0 ∧
    (∀ w ∈ out.2.2, a.Expects w) ∧ out.2.2.Pairwise a.Before ∧
    (out.1 = .ok () →
      (∀ i j, (∃ w ∈ out.2.2, w.row = i ∧ w.column = j) ↔ i < k ∧ i ∈ a.lower.col j) ∧
      (k < a.lower.ncols →
        (∀ j, j ∈ (rowReach a.upper a.parent k out.2.1.mark).1 ↔ j < k ∧ k ∈ a.lower.col j) ∧
        (rowReach a.upper a.parent k out.2.1.mark).1.Pairwise fun v w => ¬ a.Leads w v) ∧
      (k = a.lower.ncols → (∀ j < k, out.2.1.next[j]? = some (a.lower.offset (j + 1))) ∧
        (out.2.2.map (·.place)).Perm (List.range a.lower.nnz))) := by
  obtain ⟨-, fills⟩ := analyse_eq_ok analysed
  intro out
  rw [fills.columns] at within ⊢
  have recorded := rows_recorded fills values tolerance within
  have expects {log : List Write} (journal : Journal a log) (w : Write) (member : w ∈ log) :
      a.Expects w := expects_of_position? fills (journal.located w member)
  rcases ran : out with ⟨e | _, s, log⟩
  · obtain ⟨plain, idle, journal⟩ := recorded.of_error ran
    exact ⟨plain, idle, expects journal, journal.ordered, nofun⟩
  · obtain ⟨plain, recorded⟩ := recorded.of_ok ran
    have sound := recorded.sound
    have idle := eq_replicate sound.size_work sound.clear
    refine ⟨plain, idle, expects recorded.journal, recorded.journal.ordered, fun _ =>
      ⟨recorded.rows, fun inside => ?_, ?_⟩⟩
    · exact ⟨mem_reach_iff sound fills inside, ordered_reach sound fills inside⟩
    · rintro rfl
      exact ⟨fun j inside => sound.next_last fills inside, recorded.perm_range fills⟩

/-- With a dense first column and row the factor is full: six numbers are stored, at six places. -/
theorem writes_follow_pattern_arrow :
    let p := Pattern.ofTest 3 3 fun i j => i == j || i == 0 || j == 0
    ∃ a s log, analyse p = .ok a ∧ (List.range 3).forM
        (factorRowNoted a (#[1, 1, 1, 1, 2, 1, 3] : Array Rat) 0) (Partial.start a, []) =
          (.ok (), (s, log)) ∧
      log.map (·.place) = [0, 1, 3, 2, 4, 5] ∧ (log.map (·.place)).Perm (List.range a.lower.nnz) := by
  intro p
  obtain ⟨a, analysed, fills⟩ := exists_analyse (p := p) (by decide +kernel) (by decide +kernel)
  have order : a.lower.ncols = 3 := fills.columns
  have places : (analyse p).toOption.map (fun a =>
      (((List.range 3).forM (factorRowNoted a (#[1, 1, 1, 1, 2, 1, 3] : Array Rat) 0)
        (Partial.start a, [])).1.isOk,
      ((List.range 3).forM (factorRowNoted a (#[1, 1, 1, 1, 2, 1, 3] : Array Rat) 0)
        (Partial.start a, [])).2.2.map (·.place))) = some (true, [0, 1, 3, 2, 4, 5]) := by
    decide +kernel
  rw [analysed] at places
  obtain ⟨done, listed⟩ := Prod.mk.inj (Option.some.inj places)
  obtain ⟨-, -, -, -, facts⟩ :=
    writes_follow_pattern analysed (#[1, 1, 1, 1, 2, 1, 3] : Array Rat) 0 order.ge
  rcases ran : (List.range 3).forM (factorRowNoted a (#[1, 1, 1, 1, 2, 1, 3] : Array Rat) 0)
    (Partial.start a, []) with ⟨_ | _, s, log⟩
  · rw [ran] at done
    cases done
  · rw [ran] at listed facts
    exact ⟨a, s, log, analysed, ran, listed, ((facts rfl).2.2 order.symm).2⟩

end Cotangent.Cholesky
