import Cotangent.Proofs.FlatBuilders

/-! Forms put together by builders, one inside the other. Every builder that answers gives the form of a
pattern with the positions that are meant, and transposition and the lower triangle take such a form to
another one. So an assembly of any depth is valid, and it fails only for want of room or for pointers and
lists that are no pattern. -/
namespace Cotangent

/-- How a form is put together. -/
inductive Assembly (α : Type) where
  /-- Pointers and row indices as they are, if they pass the check. -/
  | given (f : Flat)
  | dense (nrows ncols : Nat)
  | diagonal (n : Nat)
  | listed (nrows ncols : Nat) (rows cols : List Nat)
  /-- The form of a dense matrix with all its entries. -/
  | full (m : DenseMatrix α)
  /-- The form of a dense matrix with its nonzero entries. -/
  | nonzeros (m : DenseMatrix α)
  | transposed (of : Assembly α)
  | lower (of : Assembly α)

namespace Assembly

variable {α : Type}

/-- Rows and columns. -/
def shape : Assembly α → Shape
  | given f => (f.nrows, f.ncols)
  | dense r c | listed r c _ _ => (r, c)
  | diagonal n => (n, n)
  | full m | nonzeros m => m.shape
  | transposed a => a.shape.swap
  | lower a => a.shape

variable [Scalar α]

def build : Assembly α → Except Error Flat
  | given f => f.check.map fun _ => f
  | dense r c => Flat.dense? r c
  | diagonal n => Flat.diagonal? n
  | listed r c rows cols => Flat.ofPositions r c rows cols
  | full m => (SparseMatrix.copyDense? m).map (·.pattern.flat)
  | nonzeros m => (SparseMatrix.gatherNonzeros? m).map (·.pattern.flat)
  | transposed a => do
    let p ← (← a.build).check
    checkRoom (p.nrows + 1)
    return Flat.transpose p
  | lower a => a.build.map Flat.lower

/-- The positions that are meant. -/
def Holds : Assembly α → Nat → Nat → Prop
  | given f, i, j => ∃ k, f.Stores i j k
  | dense r c, i, j => i < r ∧ j < c
  | diagonal n, i, j => i = j ∧ j < n
  | listed _ _ rows cols, i, j => (i, j) ∈ rows.zip cols
  | full m, i, j => i < m.nrows ∧ j < m.ncols
  | nonzeros m, i, j => i < m.nrows ∧ j < m.ncols ∧ Scalar.isZero (m.entry i j) = false
  | transposed a, i, j => a.Holds j i
  | lower a, i, j => a.Holds i j ∧ j ≤ i

/-- What is given is flat, what is listed are positions, and there is room for what is built. -/
def Fits : Assembly α → Prop
  | given f => Pattern.IsFlat f.nrows f.ncols f.colPtrs f.rowIndices
  | dense r c => c + 1 < wordLimit ∧ r * c < wordLimit
  | diagonal n => n + 1 < wordLimit
  | listed r c rows cols => rows.length = cols.length ∧
      (∀ x ∈ rows.zip cols, x.1 < r ∧ x.2 < c) ∧ c + 1 < wordLimit
  | full m => m.ncols + 1 < wordLimit ∧ m.nrows * m.ncols < wordLimit
  | nonzeros m => m.ncols + 1 < wordLimit
  | transposed a => a.Fits ∧ a.shape.1 + 1 < wordLimit
  | lower a => a.Fits

/-- The form of a pattern of some shape with the positions that are meant, or nothing. -/
def Settled (fits : Prop) (built : Except Error Flat) (shape : Shape) (holds : Nat → Nat → Prop) :
    Prop :=
  (fits ∧ ∃ p : Pattern, built = .ok p.flat ∧ p.shape = shape ∧ ∀ i j, i ∈ p.col j ↔ holds i j) ∨
    (¬ fits ∧ ∃ e, built = .error e)

theorem settled_dense (r c : Nat) : Settled (c + 1 < wordLimit ∧ r * c < wordLimit)
    (Flat.dense? r c) (r, c) fun i j => i < r ∧ j < c := by
  rw [Flat.dense?_eq, Pattern.dense?]
  by_cases pointers : c + 1 < wordLimit
  case neg => exact .inr ⟨fun fits => pointers fits.1, _, by rw [checkRoom, if_neg pointers]; rfl⟩
  by_cases entries : r * c < wordLimit
  case neg =>
    refine .inr ⟨fun fits => entries fits.2, .sizeOverflow, ?_⟩
    rw [checkRoom, if_pos pointers, checkRoom, if_neg entries]
    rfl
  refine .inl ⟨⟨pointers, entries⟩, .dense r c, ?_, ?_, fun i j => Pattern.mem_col_dense⟩
  · rw [checkRoom, if_pos pointers, checkRoom, if_pos entries]
    rfl
  · rw [Pattern.shape, Pattern.ncols_dense]
    rfl

theorem settled_diagonal (n : Nat) :
    Settled (n + 1 < wordLimit) (Flat.diagonal? n) (n, n) fun i j => i = j ∧ j < n := by
  rw [Flat.diagonal?_eq, Pattern.diagonal?, checkRoom]
  by_cases room : n + 1 < wordLimit
  · refine .inl ⟨room, .diagonal n, by rw [if_pos room]; rfl, ?_, fun i j => Pattern.mem_col_diagonal⟩
    rw [Pattern.shape, Pattern.ncols_diagonal]
    rfl
  · exact .inr ⟨room, _, by rw [if_neg room]; rfl⟩

theorem settled_listed (r c : Nat) (rows cols : List Nat) :
    Settled (rows.length = cols.length ∧ (∀ x ∈ rows.zip cols, x.1 < r ∧ x.2 < c) ∧
        c + 1 < wordLimit)
      (Flat.ofPositions r c rows cols) (r, c) fun i j => (i, j) ∈ rows.zip cols := by
  by_cases fits : rows.length = cols.length ∧ (∀ x ∈ rows.zip cols, x.1 < r ∧ x.2 < c) ∧
    c + 1 < wordLimit
  · obtain ⟨lengths, inside, room⟩ := fits
    obtain ⟨p, built, rfl, rfl⟩ := Pattern.exists_ofPositions lengths inside room
    exact .inl ⟨⟨lengths, inside, room⟩, p, by rw [Flat.ofPositions_eq, built]; rfl, rfl,
      fun i j => Pattern.mem_col_ofPositions built⟩
  · refine .inr ⟨fits, ?_⟩
    rw [Flat.ofPositions_eq]
    cases built : Pattern.ofPositions r c rows cols with
    | error e => exact ⟨e, rfl⟩
    | ok p => exact absurd (Pattern.fits_of_ofPositions built) fits

/-- Listed positions are refused for their lengths, for one outside, or for want of room. -/
theorem listed_refused_iff {r c : Nat} {rows cols : List Nat} :
    (∃ e, Flat.ofPositions r c rows cols = .error e) ↔
      rows.length ≠ cols.length ∨ (∃ x ∈ rows.zip cols, r ≤ x.1 ∨ c ≤ x.2) ∨ wordLimit ≤ c + 1 := by
  have outside : (∃ x ∈ rows.zip cols, r ≤ x.1 ∨ c ≤ x.2) ↔
      ¬ ∀ x ∈ rows.zip cols, x.1 < r ∧ x.2 < c := by
    push Not
    refine exists_congr fun x => and_congr_right fun _ => ?_
    omega
  rw [outside, ← Nat.not_lt, ← not_and_or, ← not_and_or]
  rcases settled_listed r c rows cols with ⟨fits, p, built, -⟩ | ⟨misfit, e, failed⟩
  · exact ⟨fun ⟨e, failed⟩ => (nomatch built.symm.trans failed), fun misfit => absurd fits misfit⟩
  · exact ⟨fun _ => misfit, fun _ => ⟨e, failed⟩⟩

/-- Lists of the same positions give one form. -/
theorem listed_congr {r c : Nat} {rows cols rows' cols' : List Nat} {f : Flat}
    (lengths' : rows'.length = cols'.length) (same : ∀ x, x ∈ rows.zip cols ↔ x ∈ rows'.zip cols')
    (built : Flat.ofPositions r c rows cols = .ok f) : Flat.ofPositions r c rows' cols' = .ok f := by
  rcases settled_listed r c rows cols with ⟨⟨-, inside, room⟩, p, done, sized, members⟩ | ⟨-, e, failed⟩
  case inr => cases failed.symm.trans built
  cases done.symm.trans built
  rcases settled_listed r c rows' cols' with ⟨-, p', done', sized', members'⟩ | ⟨misfit, -⟩
  · have equal : p' = p :=
      Pattern.ext_mem (congrArg Prod.fst (sized'.trans sized.symm))
        (congrArg Prod.snd (sized'.trans sized.symm))
        fun i j => (members' i j).trans ((same (i, j)).symm.trans (members i j).symm)
    rw [done', equal]
  · exact absurd ⟨lengths', fun x member => inside x ((same x).mpr member), room⟩ misfit

/-- An assembly that fits is the form of a pattern with the positions that are meant, and no other one
is built. -/
theorem settled (a : Assembly α) : Settled a.Fits a.build a.shape a.Holds := by
  induction a with
  | given f =>
    by_cases flat : Pattern.IsFlat f.nrows f.ncols f.colPtrs f.rowIndices
    · obtain ⟨p, read⟩ := (Pattern.ofArrays_decides _ _ _ _).1.mpr flat
      have form : p.flat = f := Flat.flat_of_check read
      refine .inl ⟨flat, p, ?_, ?_, fun i j => ?_⟩
      · rw [build, show f.check = .ok p from read, form]
        rfl
      · rw [← form]
        rfl
      · rw [Holds, ← form]
        simp only [Flat.stores_flat_iff]
        exact ⟨Pattern.exists_position?, fun ⟨k, position⟩ => Pattern.mem_of_position? position⟩
    · refine .inr ⟨flat, ?_⟩
      cases read : f.check with
      | ok p => exact absurd ((Pattern.ofArrays_decides _ _ _ _).1.mp ⟨p, read⟩) flat
      | error e => exact ⟨e, by rw [build, read]; rfl⟩
  | dense r c => exact settled_dense r c
  | diagonal n => exact settled_diagonal n
  | listed r c rows cols => exact settled_listed r c rows cols
  | full m =>
    have same : build (.full m) = Flat.dense? m.nrows m.ncols := by
      rw [build, SparseMatrix.copyDense?_eq, SparseMatrix.ofDense?, Flat.dense?_eq]
      cases Pattern.dense? m.nrows m.ncols <;> rfl
    rw [same]
    exact settled_dense m.nrows m.ncols
  | nonzeros m =>
    rw [build, SparseMatrix.gatherNonzeros?_eq, SparseMatrix.ofNonzeros?, checkRoom]
    by_cases room : m.ncols + 1 < wordLimit
    · refine .inl ⟨room, (SparseMatrix.ofNonzeros m).pattern, by rw [if_pos room]; rfl, ?_,
        fun i j => ?_⟩
      · simp [SparseMatrix.ofNonzeros, SparseMatrix.sample, Pattern.ofTest, Pattern.shape,
          Pattern.ncols, shape, DenseMatrix.shape]
      · rw [Holds, ← Bool.not_eq_true']
        exact Pattern.mem_col_ofTest
    · exact .inr ⟨room, _, by rw [if_neg room]; rfl⟩
  | transposed a ih =>
    rw [build]
    rcases ih with ⟨fits, p, built, shape, members⟩ | ⟨misfit, e, failed⟩
    · rw [built, Outcome.ok_bind, Flat.check_flat, Outcome.ok_bind, checkRoom]
      have rows : p.nrows = a.shape.1 := congrArg Prod.fst shape
      by_cases room : p.nrows + 1 < wordLimit
      · refine .inl ⟨⟨fits, rows ▸ room⟩, p.transpose, ?_, ?_, fun i j => ?_⟩
        · rw [if_pos room, ← Flat.transpose_eq]
          rfl
        · rw [Pattern.shape, Pattern.nrows_transpose, Pattern.ncols_transpose, Assembly.shape,
            ← shape]
          rfl
        · rw [Pattern.mem_col_transpose]
          exact members j i
      · exact .inr ⟨fun both => room (rows ▸ both.2), _, by rw [if_neg room]; rfl⟩
    · exact .inr ⟨fun both => misfit both.1, e, by rw [failed]; rfl⟩
  | lower a ih =>
    rw [build]
    rcases ih with ⟨fits, p, built, shape, members⟩ | ⟨misfit, e, failed⟩
    · refine .inl ⟨fits, p.lower, ?_, ?_, fun i j => ?_⟩
      · rw [built, ← Flat.lower_eq]
        rfl
      · rw [Assembly.shape, ← shape]
        simp [Pattern.shape, Pattern.lower, Pattern.ncols]
      · rw [Pattern.mem_col_lower, members]
        exact Iff.rfl
    · exact .inr ⟨misfit, e, by rw [failed]; rfl⟩

end Assembly

/-- A form of some shape that stores exactly the positions that are meant, in the order that the check
asks for, and in which they are found. -/
structure Flat.Presents (f : Flat) (shape : Shape) (holds : Nat → Nat → Prop) : Prop where
  isFlat : Pattern.IsFlat f.nrows f.ncols f.colPtrs f.rowIndices
  accepted : ∃ p, f.check = .ok p ∧ p.flat = f
  sized : (f.nrows, f.ncols) = shape
  stored : ∀ i j, (∃ k, f.Stores i j k) ↔ holds i j
  found : ∀ i j k, f.position? i j = some k ↔ f.Stores i j k
  absent : ∀ i j, f.position? i j = none ↔ ¬ holds i j

theorem Flat.presents_flat (p : Pattern) {shape : Shape} {holds : Nat → Nat → Prop}
    (sized : p.shape = shape) (members : ∀ i j, i ∈ p.col j ↔ holds i j) :
    p.flat.Presents shape holds where
  isFlat := p.isFlat
  accepted := ⟨p, check_flat p, rfl⟩
  sized := sized
  stored i j := by
    rw [← members]
    simp only [stores_flat_iff]
    exact ⟨fun ⟨k, position⟩ => Pattern.mem_of_position? position, Pattern.exists_position?⟩
  found i j k := by rw [position?_flat, stores_flat_iff]
  absent i j := by
    rw [position?_flat, ← members]
    refine ⟨fun none member => ?_, Pattern.position?_eq_none⟩
    obtain ⟨k, position⟩ := Pattern.exists_position? member
    cases none.symm.trans position

/-- Every form that the builders put together is valid and means what it should. An assembly of any depth
and any size is built exactly if what is given is flat, what is listed are positions, and there is room for
what is built. Then the form passes the check as it is, it stores exactly the positions that are meant, and
a search for a position gives its number, or nothing where there is none. Listed positions are refused
exactly if the lists differ in length, some position is outside, or there is no room for the pointers, and
neither their order nor repetitions matter to the form. -/
theorem Assembly.build_valid {α : Type} [Scalar α] (a : Assembly α) :
    ((∃ f, a.build = .ok f) ↔ a.Fits) ∧
    (∀ f, a.build = .ok f → f.Presents a.shape a.Holds) ∧
    (∀ r c rows cols, (∃ e, Flat.ofPositions r c rows cols = .error e) ↔
      rows.length ≠ cols.length ∨ (∃ x ∈ rows.zip cols, r ≤ x.1 ∨ c ≤ x.2) ∨ wordLimit ≤ c + 1) ∧
    ∀ r c rows cols rows' cols', rows.length = cols.length → rows'.length = cols'.length →
      (∀ x, x ∈ rows.zip cols ↔ x ∈ rows'.zip cols') →
      ∀ f, Flat.ofPositions r c rows cols = .ok f ↔ Flat.ofPositions r c rows' cols' = .ok f := by
  refine ⟨?_, fun f built => ?_, fun r c rows cols => ?_, fun r c rows cols rows' cols' => ?_⟩
  · rcases a.settled with ⟨fits, p, built, -⟩ | ⟨misfit, e, failed⟩
    · exact ⟨fun _ => fits, fun _ => ⟨_, built⟩⟩
    · exact ⟨fun ⟨f, built⟩ => (nomatch failed.symm.trans built), fun fits => absurd fits misfit⟩
  · rcases a.settled with ⟨-, p, done, sized, members⟩ | ⟨-, e, failed⟩
    · cases done.symm.trans built
      exact Flat.presents_flat p sized members
    · cases failed.symm.trans built
  · exact Assembly.listed_refused_iff
  · exact fun lengths lengths' same f => ⟨Assembly.listed_congr lengths' same,
      Assembly.listed_congr lengths fun x => (same x).symm⟩

/-- Two lists of no positions are refused if the matrix has more columns than there is room for pointers,
though they do not differ in length and no position is outside. -/
theorem Flat.ofPositions_without_room : ¬ ∀ r c rows cols,
    (∃ e, Flat.ofPositions r c rows cols = .error e) ↔
      rows.length ≠ cols.length ∨ ∃ x ∈ rows.zip cols, r ≤ x.1 ∨ c ≤ x.2 := by
  intro refused
  have failed : Flat.ofPositions 0 1152921504606846976 [] [] = .error .sizeOverflow := by decide
  have claimed := (refused 0 1152921504606846976 [] []).mp ⟨_, failed⟩
  simp at claimed

end Cotangent
