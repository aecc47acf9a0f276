import Cotangent.Factor.Cholesky
import Cotangent.Proofs.Positions
import Cotangent.Proofs.RowReach

/-! The analysis of a pattern finds the fill. Row after row joins the columns of its reach, so the
columns become those of the factor in increasing order, and nothing that the analysis checks of its
own results can fail. -/
namespace Cotangent

namespace Pattern

/-- Checked columns are the columns that were checked. -/
theorem map_val_of_checked {n : Nat} {columns : List (List Nat × Nat)}
    {ys : List { rows : List Nat // IsColumn n rows }}
    (checked : List.Forall₂ (fun x y => checkColumn n x.2 x.1 = .ok y) columns ys) :
    ys.map Subtype.val = columns.map (·.1) := by
  induction checked with
  | nil => rfl
  | @cons x y _ _ accepted _ ih =>
    unfold checkColumn at accepted
    split at accepted
    · cases accepted
      rw [List.map_cons, List.map_cons, ih]
    · cases accepted

/-- Columns that are increasing and inside the matrix make a pattern. -/
theorem ofColumns_eq_ok {n : Nat} {columns : Array (List Nat)}
    (valid : ∀ rows ∈ columns, IsColumn n rows) :
    ofColumns n columns.toList = .ok ⟨n, columns, valid⟩ := by
  obtain ⟨ys, done⟩ := Outcome.mapM_ok_of_all (f := fun column => checkColumn n column.2 column.1)
    fun column (member : column ∈ columns.toList.zipIdx) => by
      have held : column.1 ∈ columns := by simpa using List.fst_mem_of_mem_zipIdx member
      exact ⟨_, dif_pos (valid column.1 held)⟩
  have values := map_val_of_checked (Outcome.mapM_eq_ok.mp done)
  rw [List.zipIdx_map_fst] at values
  rw [ofColumns, done]
  change Except.ok (ofChecked ys) = _
  simp only [ofChecked, values]

theorem mem_col_of_hasFullDiagonal {p : Pattern} (square : p.ncols = p.nrows)
    (diagonal : p.hasFullDiagonal = true) {k : Nat} (inside : k < p.nrows) : k ∈ p.col k := by
  have held := List.all_eq_true.mp diagonal k (by simp [square, inside])
  obtain ⟨q, found⟩ := Option.isSome_iff_exists.mp held
  exact mem_of_position? found

end Pattern

namespace Cholesky

open EliminationTree Pattern

variable {p : Pattern} {parent : Array (Option Nat)} {k j : Nat}

/-- A row added to columns, each of which is listed once. -/
theorem getD_foldl_append {reach : List Nat} (nodup : reach.Nodup) {columns : Array (List Nat)}
    (inside : j < columns.size) :
    (reach.foldl (fun columns j => columns.modify j (· ++ [k])) columns).getD j [] =
      if j ∈ reach then columns.getD j [] ++ [k] else columns.getD j [] := by
  induction reach generalizing columns with
  | nil => simp
  | cons i reach ih =>
    obtain ⟨others, nodup⟩ := List.nodup_cons.mp nodup
    rw [List.foldl_cons, ih nodup (by simpa using inside)]
    have modified : (columns.modify i (· ++ [k])).getD j [] =
        if j = i then columns.getD j [] ++ [k] else columns.getD j [] := by
      simp only [Array.getD_eq_getD_getElem?, Array.getElem?_modify]
      by_cases same : i = j
      · subst same
        simp [inside]
      · simp [same, Ne.symm same]
    rw [modified]
    by_cases same : j = i
    · subst same
      simp [others]
    · simp [same]

/-- The columns of the factor with the rows before `k`. -/
structure Joined (p : Pattern) (k : Nat) (acc : Array (List Nat) × Array Nat) : Prop where
  size : acc.1.size = p.nrows
  mem_iff : ∀ j < p.nrows, ∀ i, i ∈ acc.1.getD j [] ↔ i < k ∧ p.Fill i j
  increasing : ∀ j < p.nrows, (acc.1.getD j []).Pairwise (· < ·)
  size_mark : acc.2.size = p.nrows
  marks : ∀ v m : Nat, acc.2[v]? = some m → m ≤ k

theorem joined_start (p : Pattern) :
    Joined p 0 (Array.replicate p.nrows [], Array.replicate p.nrows 0) := by
  constructor
  case marks =>
    intro v m found
    simp only [Array.getElem?_replicate] at found
    split at found <;> simp_all
  all_goals simp +contextual [Array.getD_eq_getD_getElem?]

/-- With the diagonal, a row of the factor has its fill. -/
theorem mem_cons_row {reach : List Nat} (row : Row p k reach) (diagonal : k ∈ p.col k) :
    j ∈ k :: reach ↔ p.Fill k j := by
  rw [List.mem_cons, row.mem_iff]
  constructor
  · rintro (rfl | ⟨-, fill⟩)
    · exact .entry diagonal le_rfl
    · exact fill
  · exact fun fill => fill.le.eq_or_lt.imp id fun below => ⟨below, fill⟩

/-- Row `k` joins the columns that it has entries in. -/
theorem Joined.row (tree : ∀ j q, lookup parent j = some q ↔ p.IsParent j q)
    (size : parent.size = p.nrows) (diagonal : ∀ k < p.nrows, k ∈ p.col k)
    {acc : Array (List Nat) × Array Nat} (joined : Joined p k acc) (inside : k < p.nrows) :
    Joined p (k + 1)
      ((k :: (rowReach p.lower.transpose parent k acc.2).1).foldl
        (fun columns j => columns.modify j (· ++ [k])) acc.1,
        (rowReach p.lower.transpose parent k acc.2).2) := by
  obtain ⟨row, size_mark, marks⟩ := row_rowReach tree (size.trans joined.size_mark.symm)
    (inside.trans_eq joined.size_mark.symm) joined.marks
  have nodup : (k :: (rowReach p.lower.transpose parent k acc.2).1).Nodup :=
    List.nodup_cons.mpr ⟨fun member => Nat.lt_irrefl k ((row.mem_iff k).mp member).1, row.nodup⟩
  have column {j : Nat} (within : j < p.nrows) :=
    getD_foldl_append (k := k) nodup (within.trans_eq joined.size.symm)
  constructor
  case size =>
    rw [← joined.size]
    refine foldl_keeps (P := fun _ (columns : Array (List Nat)) => columns.size = acc.1.size) rfl ?_
    intro _ j _ columns _ same
    simpa using same
  case mem_iff =>
    intro j within i
    rw [column within, Nat.lt_succ_iff_lt_or_eq]
    have old := joined.mem_iff j within i
    have new : j ∈ _ ↔ _ := mem_cons_row row (diagonal k inside)
    split
    next member =>
      rw [List.mem_append, old, List.mem_singleton]
      constructor
      · rintro (⟨before, fill⟩ | rfl)
        · exact ⟨.inl before, fill⟩
        · exact ⟨.inr rfl, new.mp member⟩
      · rintro ⟨before | rfl, fill⟩
        · exact .inl ⟨before, fill⟩
        · exact .inr rfl
    next other =>
      rw [old]
      refine and_congr_left fun fill => (or_iff_left ?_).symm
      rintro rfl
      exact other (new.mpr fill)
  case increasing =>
    intro j within
    rw [column within]
    split
    · refine List.pairwise_append.mpr ⟨joined.increasing j within, by simp, fun i member r here => ?_⟩
      rw [List.mem_singleton.mp here]
      exact ((joined.mem_iff j within i).mp member).1
    · exact joined.increasing j within
  case size_mark => exact size_mark.trans joined.size_mark
  case marks => exact marks

/-- All rows together make the columns of the factor. -/
theorem joined_factorColumns (diagonal : ∀ k < p.nrows, k ∈ p.col k) :
    ∃ acc, factorColumns p.lower.transpose (parents p.lower.transpose) = acc.1 ∧
      Joined p p.nrows acc := by
  have rows : ∀ m ≤ p.nrows, Joined p m ((List.range m).foldl (fun acc k =>
      ((k :: (rowReach p.lower.transpose (parents p.lower.transpose) k acc.2).1).foldl
        (fun columns j => columns.modify j (· ++ [k])) acc.1,
        (rowReach p.lower.transpose (parents p.lower.transpose) k acc.2).2))
      (Array.replicate p.nrows [], Array.replicate p.nrows 0)) := by
    intro m inside
    induction m with
    | zero => exact joined_start p
    | succ m ih =>
      rw [List.range_succ, List.foldl_append]
      exact (ih (by omega)).row (fun _ _ => lookup_parents_eq_some) (size_parents p) diagonal
        (by omega)
  refine ⟨_, ?_, rows p.nrows le_rfl⟩
  rw [factorColumns, ncols_upper]

/-! ### The analysis -/

/-- What an analysis says of its pattern: the upper triangle with the number of each of its values, the
tree, and the fill. -/
structure Analysis.Fills (a : Analysis) (p : Pattern) : Prop where
  diagonal : ∀ k < p.nrows, k ∈ p.col k
  upper : a.upper = p.lower.transpose
  source : ∀ i k q, a.upper.position? i k = some q → a.source[q]? = p.position? k i
  size_parent : a.parent.size = p.nrows
  parent : ∀ j q, lookup a.parent j = some q ↔ p.IsParent j q
  rows : a.lower.nrows = p.nrows
  columns : a.lower.ncols = p.nrows
  mem_iff : ∀ i j, i ∈ a.lower.col j ↔ p.Fill i j

/-- Every value of the upper triangle is found. -/
theorem exists_source (p : Pattern) : ∃ source : List Nat,
    (p.lower.transpose.cells.mapM fun (i, k) => match p.position? k i with
      | some number => Except.ok number
      | none => Except.error (Error.internal s!"cholesky: entry ({k}, {i}) vanished")) =
        .ok source ∧
    ∀ i k q, p.lower.transpose.position? i k = some q → source[q]? = p.position? k i := by
  obtain ⟨source, numbered⟩ := Outcome.mapM_ok_of_all
    (f := fun (i, k) => match p.position? k i with
      | some number => Except.ok number
      | none => Except.error (Error.internal s!"cholesky: entry ({k}, {i}) vanished"))
    fun cell (member : cell ∈ p.lower.transpose.cells) => by
    obtain ⟨i, k⟩ := cell
    obtain ⟨q, found⟩ := exists_position? (mem_col_upper.mp (mem_col_of_mem_cells member)).1
    exact ⟨q, by simp only [found]⟩
  refine ⟨source, numbered, fun i k q found => ?_⟩
  have held := getElem?_cells_of_position? found
  obtain ⟨inside, cell⟩ := List.getElem?_eq_some_iff.mp held
  have pairs := Outcome.mapM_eq_ok.mp numbered
  have within : q < source.length := inside.trans_eq pairs.length_eq
  have here := (List.forall₂_iff_get.mp pairs).2 q inside within
  simp only [List.get_eq_getElem, cell] at here
  rw [List.getElem?_eq_getElem within]
  split at here
  next number known => exact known ▸ (congrArg some (Except.ok.inj here)).symm
  next => cases here

/-- Every square pattern with a full diagonal is analysed. -/
theorem exists_analyse (square : p.ncols = p.nrows) (diagonal : p.hasFullDiagonal = true) :
    ∃ a, analyse p = .ok a ∧ a.Fills p := by
  have order : p.order = .ok p.nrows := by simp [Pattern.order, isSquare, square]
  obtain ⟨source, numbered, positions⟩ := exists_source p
  obtain ⟨acc, found, joined⟩ := joined_factorColumns fun k inside =>
    mem_col_of_hasFullDiagonal square diagonal inside
  have valid : ∀ rows ∈ acc.1, IsColumn p.nrows rows := by
    intro rows member
    obtain ⟨j, inside, rfl⟩ := Array.mem_iff_getElem.mp member
    have within : j < p.nrows := inside.trans_eq joined.size
    have increasing := joined.increasing j within
    have inner := joined.mem_iff j within
    simp only [Array.getD, inside, dite_true] at increasing inner
    exact ⟨increasing, fun i member => ((inner i).mp member).1⟩
  have analysed : analyse p = .ok ⟨p.lower.transpose, source.toArray,
      parents p.lower.transpose, ⟨p.nrows, acc.1, valid⟩⟩ := by
    simp only [analyse, order, diagonal, found, ofColumns_eq_ok valid, Outcome.ok_bind,
      Bool.not_true, Bool.false_eq_true, if_false]
    exact Outcome.bind_eq_ok.mpr ⟨source, numbered, rfl⟩
  refine ⟨_, analysed, ?_⟩
  constructor
  case diagonal => exact fun k inside => mem_col_of_hasFullDiagonal square diagonal inside
  case upper => rfl
  case source =>
    intro i k q at_q
    rw [← positions i k q at_q]
    simp
  case size_parent => exact size_parents p
  case parent => exact fun _ _ => lookup_parents_eq_some
  case rows => rfl
  case columns => exact joined.size
  case mem_iff =>
    intro i j
    by_cases within : j < p.nrows
    · exact (joined.mem_iff j within i).trans (and_iff_right_of_imp Fill.lt_nrows)
    · have empty : (⟨p.nrows, acc.1, valid⟩ : Pattern).col j = [] := by
        simp [col, Array.getD, joined.size, within]
      rw [empty]
      exact ⟨fun member => absurd member List.not_mem_nil,
        fun fill => absurd (fill.le.trans_lt fill.lt_nrows) within⟩

/-- A pattern that is analysed is square, and its diagonal is full. -/
theorem analyse_eq_ok {a : Analysis} (analysed : analyse p = .ok a) :
    p.ncols = p.nrows ∧ a.Fills p := by
  obtain ⟨n, order, rest⟩ := Outcome.bind_eq_ok.mp analysed
  unfold Pattern.order at order
  split at order
  · next square =>
    have square : p.ncols = p.nrows := (beq_iff_eq.mp square).symm
    cases full : p.hasFullDiagonal with
    | false =>
      rw [full] at rest
      cases rest
    | true =>
      obtain ⟨a', analysed', fills⟩ := exists_analyse square full
      cases analysed.symm.trans analysed'
      exact ⟨square, fills⟩
  · cases order

theorem Analysis.Fills.fill_self {a : Analysis} (fills : a.Fills p) (inside : j < p.nrows) :
    p.Fill j j :=
  .entry (fills.diagonal j inside) le_rfl

/-- A column of the factor starts with its diagonal. -/
theorem Analysis.Fills.exists_below {a : Analysis} (fills : a.Fills p) (inside : j < p.nrows) :
    ∃ below, a.lower.col j = j :: below := by
  have member : j ∈ a.lower.col j := (fills.mem_iff j j).mpr (fills.fill_self inside)
  have increasing := (a.lower.isColumn_col j).1
  have first : ∀ i ∈ a.lower.col j, j ≤ i := fun i held => ((fills.mem_iff i j).mp held).le
  cases column : a.lower.col j with
  | nil =>
    rw [column] at member
    cases member
  | cons r below =>
    rw [column] at member increasing first
    refine ⟨below, ?_⟩
    rcases List.mem_cons.mp member with rfl | later
    · rfl
    · have less := (List.pairwise_cons.mp increasing).1 j later
      exact absurd (first r List.mem_cons_self) (Nat.not_le.mpr less)

/-- The analysis of a square pattern with a full diagonal finds the fill, which is the least set of
positions that holds the lower triangle and is closed under elimination. Its columns start with the
diagonal and increase, and the tree leads from every column to the first entry below the diagonal. -/
theorem symbolic_finds_fill {α : Type} (s : Cholesky α) (square : p.isSquare = true)
    (diagonal : p.hasFullDiagonal = true) :
    ∃ a, symbolic p s = (.ok (), ⟨s.options, some a, none⟩) ∧ a.lower.shape = p.shape ∧
      IsLeast {s | p.EliminationClosed s} {c | c.1 ∈ a.lower.col c.2} ∧
      (∀ j < p.ncols, ∃ below, a.lower.col j = j :: below ∧ (j :: below).Pairwise (· < ·)) ∧
      a.parent.size = p.ncols ∧ ∀ j,
        (∀ q, lookup a.parent j = some q ↔ IsLeast {i | j < i ∧ i ∈ a.lower.col j} q) ∧
        (lookup a.parent j = none ↔ ∀ i ∈ a.lower.col j, i ≤ j) := by
  have square : p.ncols = p.nrows := (beq_iff_eq.mp square).symm
  obtain ⟨a, analysed, fills⟩ := exists_analyse square diagonal
  refine ⟨a, ?_, ?_, ?_, ?_, ?_, ?_⟩
  · rw [symbolic, analysed]
  · exact Prod.ext fills.rows (fills.columns.trans square.symm)
  · have same : {c : Nat × Nat | c.1 ∈ a.lower.col c.2} = {c | p.Fill c.1 c.2} :=
      Set.ext fun c => fills.mem_iff c.1 c.2
    rw [same]
    exact p.isLeast_fill
  · intro j inside
    obtain ⟨below, column⟩ := fills.exists_below (inside.trans_eq square)
    exact ⟨below, column, column ▸ (a.lower.isColumn_col j).1⟩
  · exact fills.size_parent.trans square.symm
  · intro j
    have parents (q : Nat) :
        lookup a.parent j = some q ↔ IsLeast {i | j < i ∧ i ∈ a.lower.col j} q := by
      simp only [fills.parent, IsParent, fills.mem_iff]
    refine ⟨parents, fun root i held => ?_, fun last => ?_⟩
    · by_contra below
      obtain ⟨q, -, parent, -⟩ := ((fills.mem_iff i j).mp held).exists_parent (Nat.not_le.mp below)
      cases root.symm.trans ((fills.parent j q).mpr parent)
    · cases found : lookup a.parent j with
      | none => rfl
      | some q =>
        obtain ⟨below, held⟩ := ((parents q).mp found).1
        exact absurd (last q held) (Nat.not_le.mpr below)

/-- A dense first column and row: elimination of column 0 fills the position in row 2 and column 1. -/
theorem symbolic_finds_fill_arrow :
    let p := Pattern.ofTest 3 3 fun i j => i == j || i == 0 || j == 0
    p.isSquare = true ∧ p.hasFullDiagonal = true ∧ 2 ∉ p.col 1 ∧
      ∃ a, symbolic p (.new ⟨0, 0⟩ : Cholesky Nat) = (.ok (), ⟨⟨0, 0⟩, some a, none⟩) ∧
        2 ∈ a.lower.col 1 ∧ lookup a.parent 0 = some 1 := by
  intro p
  have square : p.isSquare = true := by decide +kernel
  have diagonal : p.hasFullDiagonal = true := by decide +kernel
  obtain ⟨a, analysed, -, least, -, -, parents⟩ :=
    symbolic_finds_fill (.new ⟨0, 0⟩ : Cholesky Nat) square diagonal
  have below (i : Nat) (inside : i < 3) : (i, 0) ∈ {c : Nat × Nat | c.1 ∈ a.lower.col c.2} :=
    least.1.entry i 0 (mem_col_ofTest.mpr ⟨inside, by omega, by simp⟩) (Nat.zero_le i)
  refine ⟨square, diagonal, by decide +kernel, a, analysed, ?_, ?_⟩
  · exact least.1.join 2 0 1 (below 2 (by omega)) (below 1 (by omega)) (by omega) (by omega)
  · exact ((parents 0).1 1).mpr ⟨⟨by omega, below 1 (by omega)⟩, fun i later => later.1⟩

end Cholesky

end Cotangent
