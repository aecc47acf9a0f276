import Mathlib
import Cotangent.Scalar.Binary64
import Cotangent.Proofs.Computation

/-! Comparisons of floating-point numbers. Apart from not-a-number, which compares with nothing, every
number has a rank in a linear order, and the comparisons are those of the ranks. A magnitude is not
below zero, and neither is the product of two numbers that are not, unless it is not a number. The running
maximum of magnitudes skips what is not a number, so it is the largest magnitude of the rest. -/
namespace Cotangent.Binary64

open Float.Model
open Float.Model.UnpackedFloat hiding compare

/-! ### Ranks -/

/-- The place of an unpacked number among the others: infinities outside, zeros in the middle, and between
them by exponent and mantissa. -/
def unpackedRank : UnpackedFloat → ℤ ×ₗ (ℤ ×ₗ ℤ)
  | .notANumber => toLex (0, toLex (0, 0))
  | .zero _ => toLex (0, toLex (0, 0))
  | .infinity .positive => toLex (2, toLex (0, 0))
  | .infinity .negative => toLex (-2, toLex (0, 0))
  | .finite .positive m e _ => toLex (1, toLex (e, m))
  | .finite .negative m e _ => toLex (-1, toLex (-e, -m))

theorem compare_natCast (m n : ℕ) : compare (m : ℤ) n = compare m n := by
  simp only [compare, compareOfLessAndEq, Int.ofNat_lt, Int.natCast_inj]

theorem compare_neg_neg (a b : ℤ) : compare (-a) (-b) = (compare a b).swap := by
  rw [← @Std.OrientedCmp.eq_swap _ compare]
  simp only [compare, compareOfLessAndEq, neg_lt_neg_iff, neg_inj, eq_comm]

/-- Unpacked numbers compare as their ranks. -/
theorem compare_eq {a b : UnpackedFloat} (ha : a.isNaN = false) (hb : b.isNaN = false) :
    a.compare b = some (compare (unpackedRank a) (unpackedRank b)) := by
  rcases a with (_ | _) | _ | _ | ⟨_ | _, m, e, hm⟩ <;>
  rcases b with (_ | _) | _ | _ | ⟨_ | _, m', e', hm'⟩ <;> try rfl
  all_goals try contradiction
  -- two finite numbers of one sign are left
  · change some ((compare e e').then (compare m m')).swap =
      some ((compare (-e) (-e')).then (compare (-(m : ℤ)) (-(m' : ℤ))))
    rw [compare_neg_neg, compare_neg_neg, compare_natCast, Ordering.swap_then]
  · change some ((compare e e').then (compare m m')) =
      some ((compare e e').then (compare (m : ℤ) m'))
    rw [compare_natCast]

theorem compare_eq_none {a b : UnpackedFloat} (missing : a.isNaN = true ∨ b.isNaN = true) :
    a.compare b = none := by
  rcases a with (_ | _) | _ | _ | ⟨_ | _, m, e, hm⟩ <;>
  rcases b with (_ | _) | _ | _ | ⟨_ | _, m', e', hm'⟩ <;> first | rfl | simp_all [UnpackedFloat.isNaN]

/-- What a number stands for. -/
def value (x : Binary64) : UnpackedFloat := x.toFloat.toModel.unpack

/-- The word of a not-a-number. -/
def isNaN (x : Binary64) : Bool := x.toFloat.isNaN

/-- The place of a number among the others. -/
def rank (x : Binary64) : ℤ ×ₗ (ℤ ×ₗ ℤ) := unpackedRank x.value

variable {x y : Binary64}

theorem lt_eq : Scalar.lt x y = x.value.lt y.value := by
  change decide (decide (x.value.lt y.value = true) = true) = _
  rw [Bool.decide_eq_true, Bool.decide_eq_true]

theorem le_eq : Scalar.le x y = x.value.le y.value := by
  change decide (decide (x.value.le y.value = true) = true) = _
  rw [Bool.decide_eq_true, Bool.decide_eq_true]

theorem lt_iff : Scalar.lt x y = true ↔ x.isNaN = false ∧ y.isNaN = false ∧ x.rank < y.rank := by
  change _ ↔ x.value.isNaN = false ∧ y.value.isNaN = false ∧ _
  rw [lt_eq, UnpackedFloat.lt]
  cases hx : x.value.isNaN with
  | true => simp [compare_eq_none (.inl hx)]
  | false =>
    cases hy : y.value.isNaN with
    | true => simp [compare_eq_none (.inr hy)]
    | false =>
      rw [compare_eq hx hy, beq_iff_eq, Option.some.injEq]
      simp only [true_and]
      exact compare_lt_iff_lt

theorem le_iff : Scalar.le x y = true ↔ x.isNaN = false ∧ y.isNaN = false ∧ x.rank ≤ y.rank := by
  change _ ↔ x.value.isNaN = false ∧ y.value.isNaN = false ∧ _
  rw [le_eq, UnpackedFloat.le]
  cases hx : x.value.isNaN with
  | true => simp [compare_eq_none (.inl hx)]
  | false =>
    cases hy : y.value.isNaN with
    | true => simp [compare_eq_none (.inr hy)]
    | false =>
      rw [compare_eq hx hy, Option.any_some]
      simp only [true_and]
      exact Ordering.isLE_iff_ne_gt.trans compare_le_iff_le

/-- Of two numbers one is below the other or not above it. -/
theorem lt_of_not_le (hx : x.isNaN = false) (hy : y.isNaN = false) (above : Scalar.le x y = false) :
    Scalar.lt y x = true := by
  rw [Bool.eq_false_iff, Ne, le_iff] at above
  exact lt_iff.mpr ⟨hy, hx, not_le.mp fun le => above ⟨hx, hy, le⟩⟩

/-! ### Numbers that are not below zero -/

/-- A zero, or a number with a positive sign. -/
def Nonneg : UnpackedFloat → Prop
  | .notANumber => False
  | .zero _ => True
  | .infinity s => s = .positive
  | .finite s _ _ _ => s = .positive

theorem nonneg_iff (u : UnpackedFloat) :
    Nonneg u ↔ u.isNaN = false ∧ unpackedRank (.zero .positive) ≤ unpackedRank u := by
  rcases u with (_ | _) | _ | _ | ⟨_ | _, m, e, hm⟩ <;>
    simp [Nonneg, UnpackedFloat.isNaN, unpackedRank, Prod.Lex.toLex_le_toLex]

theorem nonneg_abs {u : UnpackedFloat} (number : u.isNaN = false) : Nonneg u.abs := by
  cases u with
  | notANumber => contradiction
  | infinity | zero | finite => simp [UnpackedFloat.abs, Nonneg]

theorem nonneg_roundWithAccuracy (f : Format) (m : ℕ) (e : ℤ) (a : Accuracy) :
    Nonneg (roundWithAccuracy f .positive m e a) := by
  unfold roundWithAccuracy
  dsimp only
  split <;> simp [Nonneg]

/-- A product of numbers that are not below zero is none below zero, if it is a number. -/
theorem nonneg_mul (f : Format) {u v : UnpackedFloat} (hu : Nonneg u) (hv : Nonneg v) :
    (UnpackedFloat.mul f u v).isNaN = true ∨ Nonneg (UnpackedFloat.mul f u v) := by
  cases u <;> cases v <;> simp only [Nonneg] at hu hv <;> subst_vars
  case infinity.zero | zero.infinity => exact .inl rfl
  case finite.finite => exact .inr (nonneg_roundWithAccuracy f _ _ _)
  all_goals exact .inr (by trivial)

/-! ### Packed numbers -/

section Packed

variable {f : Format} {u : UnpackedFloat}

theorem unpackSign_packComponents (s : Sign) (e : BitVec f.exponentBits)
    (m : BitVec f.mantissaBitsWithoutImplicit) :
    unpackSign (packComponents f s e m) = s.toBitVec := by
  ext i inside
  obtain rfl : i = 0 := by omega
  simp [unpackSign, packComponents, BitVec.getLsbD_append, BitVec.getElem_append]

theorem ofBitVec_toBitVec (s : Sign) : Sign.ofBitVec s.toBitVec = s := by
  cases s <;> rfl

/-- A packed number has its sign, and it is a number unless its exponent is the largest. -/
theorem nonneg_unpack_packComponents {e : BitVec f.exponentBits}
    {m : BitVec f.mantissaBitsWithoutImplicit} (number : e = -1#_ → m = 0#_) :
    Nonneg (UnpackedFloat.unpack f (packComponents f .positive e m)) := by
  unfold UnpackedFloat.unpack
  simp only [unpackMantissa_packComponents, unpackExponent_packComponents, unpackSign_packComponents,
    ofBitVec_toBitVec]
  split
  · next last => simp [number last, Nonneg]
  · split
    · split <;> simp [Nonneg]
    · simp [Nonneg]

theorem ofNat_ne_neg_one {k : ℕ} (small : k + 1 < 2 ^ f.exponentBits) :
    BitVec.ofNat f.exponentBits k ≠ -1#_ := by
  rw [Ne, BitVec.neg_one_eq_allOnes, ← BitVec.toNat_inj, BitVec.toNat_ofNat, BitVec.toNat_allOnes,
    Nat.mod_eq_of_lt (by omega)]
  omega

/-- Packing keeps a number that is not below zero so. -/
theorem nonneg_unpack_pack (nonneg : Nonneg u) :
    Nonneg (UnpackedFloat.unpack f (UnpackedFloat.pack f u)) := by
  have zero : (0#f.exponentBits) ≠ -1#_ :=
    ofNat_ne_neg_one (Nat.one_lt_two_pow f.he.ne')
  cases u with
  | notANumber => exact nonneg.elim
  | infinity s =>
    obtain rfl : s = .positive := nonneg
    exact nonneg_unpack_packComponents fun _ => rfl
  | zero s =>
    have first : (0 : BitVec f.exponentBits) ≠ -1#_ := zero
    unfold UnpackedFloat.pack packedZero UnpackedFloat.unpack
    simp only [unpackMantissa_packComponents, unpackExponent_packComponents, if_neg first]
    simp [Nonneg]
  | finite s m e positive =>
    obtain rfl : s = .positive := nonneg
    unfold UnpackedFloat.pack
    dsimp only
    split
    · exact nonneg_unpack_packComponents fun _ => rfl
    · next small =>
      split
      · exact nonneg_unpack_packComponents fun last =>
          absurd last (ofNat_ne_neg_one (Nat.not_le.mp small))
      · exact nonneg_unpack_packComponents fun last => absurd last zero

theorem isNaN_unpack_pack (missing : u.isNaN = true) :
    (UnpackedFloat.unpack f (UnpackedFloat.pack f u)).isNaN = true := by
  have some : (1#f.mantissaBitsWithoutImplicit <<< (f.mantissaBitsWithoutImplicit - 1)) ≠ 0#_ := by
    intro same
    have top := congrArg (·.getLsbD (f.mantissaBitsWithoutImplicit - 1)) same
    have room := f.hm
    simp [BitVec.getLsbD_shiftLeft] at top
    omega
  cases u with
  | notANumber =>
    unfold UnpackedFloat.pack packedNaN UnpackedFloat.unpack
    simp only [unpackMantissa_packComponents, unpackExponent_packComponents, if_neg some, if_true]
    rfl
  | infinity | zero | finite => contradiction

end Packed

/-! ### Magnitudes, products and maxima -/

-- a result goes through a word twice, as it is stored and as it is read

theorem nonneg_ofFloat {u : UnpackedFloat} (nonneg : Nonneg u) :
    Nonneg (ofFloat (.ofModel (.pack u))).value :=
  nonneg_unpack_pack (nonneg_unpack_pack nonneg)

theorem isNaN_ofFloat {u : UnpackedFloat} (missing : u.isNaN = true) :
    (ofFloat (.ofModel (.pack u))).isNaN = true :=
  isNaN_unpack_pack (isNaN_unpack_pack missing)

theorem isNaN_zero : (0 : Binary64).isNaN = false := by decide

theorem rank_zero : (0 : Binary64).rank = unpackedRank (.zero .positive) := by decide +kernel

/-- What is not below zero has a sign that says so. -/
theorem zero_le_iff : Scalar.le 0 x = true ↔ Nonneg x.value := by
  rw [le_iff, nonneg_iff, rank_zero, isNaN_zero]
  exact and_iff_right rfl

theorem zero_le_abs (number : x.isNaN = false) : Scalar.le 0 (Scalar.abs x) = true :=
  zero_le_iff.mpr (nonneg_ofFloat (nonneg_abs number))

theorem isNaN_abs : (Scalar.abs x).isNaN = x.isNaN := by
  cases missing : x.isNaN with
  | false => exact (le_iff.mp (zero_le_abs missing)).2.1
  | true =>
    refine isNaN_ofFloat ?_
    change x.value.isNaN = true at missing
    change x.value.abs.isNaN = true
    cases held : x.value with
    | notANumber => rfl
    | infinity | zero | finite =>
      rw [held] at missing
      contradiction

/-- A product of numbers that are not below zero is none below zero, if it is a number. -/
theorem isNaN_mul_or (hx : Scalar.le 0 x = true) (hy : Scalar.le 0 y = true) :
    (x * y).isNaN = true ∨ Scalar.le 0 (x * y) = true :=
  (nonneg_mul .binary64 (zero_le_iff.mp hx) (zero_le_iff.mp hy)).imp isNaN_ofFloat
    fun nonneg => zero_le_iff.mpr (nonneg_ofFloat nonneg)

/-- A number is the largest magnitude of a list, apart from magnitudes that are not numbers, and zero if
there are no others. -/
structure IsLargest (m : Binary64) (xs : List Binary64) : Prop where
  nonneg : Scalar.le 0 m = true
  bound : ∀ x ∈ xs, x.isNaN = false → Scalar.le (Scalar.abs x) m = true
  attained : m = 0 ∨ ∃ x ∈ xs, x.isNaN = false ∧ m = Scalar.abs x

theorem isLargest_max {xs : List Binary64} {m : Binary64} (largest : IsLargest m xs) (x : Binary64) :
    IsLargest (Scalar.max m (Scalar.abs x)) (xs ++ [x]) := by
  obtain ⟨nonneg, bound, attained⟩ := largest
  have zero_le := le_iff.mp nonneg
  unfold Scalar.max
  split
  · next less =>
    have above := lt_iff.mp less
    have number : x.isNaN = false := isNaN_abs ▸ above.2.1
    refine ⟨zero_le_abs number, fun y member hy => ?_, .inr ⟨x, by simp, number, rfl⟩⟩
    rcases List.mem_append.mp member with earlier | last
    · have before := le_iff.mp (bound y earlier hy)
      exact le_iff.mpr ⟨before.1, above.2.1, before.2.2.trans above.2.2.le⟩
    · rw [List.mem_singleton.mp last]
      exact le_iff.mpr ⟨above.2.1, above.2.1, le_rfl⟩
  · next other =>
    refine ⟨nonneg, fun y member hy => ?_, attained.imp_right fun ⟨y, member, hy⟩ =>
      ⟨y, List.mem_append_left _ member, hy⟩⟩
    rcases List.mem_append.mp member with earlier | last
    · exact bound y earlier hy
    · rw [List.mem_singleton.mp last] at hy ⊢
      have magnitude : (Scalar.abs x).isNaN = false := isNaN_abs.trans hy
      refine le_iff.mpr ⟨magnitude, zero_le.2.1, not_lt.mp fun less => other ?_⟩
      exact lt_iff.mpr ⟨zero_le.2.1, magnitude, less⟩

/-- The running maximum is the largest magnitude. -/
theorem isLargest_maxAbs (xs : List Binary64) : IsLargest (Scalar.maxAbs xs) xs :=
  foldl_keeps (P := fun done m => IsLargest m done)
    ⟨by decide, fun _ none => (nomatch none), .inl rfl⟩
    fun _ x _ _ _ largest => isLargest_max largest x

end Cotangent.Binary64
