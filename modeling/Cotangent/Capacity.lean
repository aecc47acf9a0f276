import Cotangent.Error

/-!
How large things can be. A size is kept in 64 bits, and an array takes less than half of the
addresses that 64 bits can name. A size that is computed from others is checked where it is
computed, and an array where it is asked for, so that nothing is built for a size that does not
exist.
-/

namespace Cotangent

/-- The first number that 64 bits do not hold. -/
def sizeLimit : Nat := 18446744073709551616

/-- The first number of 64-bit words for which no array has room. -/
def wordLimit : Nat := 1152921504606846976

/-- A computed size, if 64 bits hold it. -/
def checkSize (n : Nat) : Except Error Nat :=
  if n < sizeLimit then .ok n else .error .sizeOverflow

/-- Refuses an array of more words than there is room for. -/
def checkRoom (words : Nat) : Except Error Unit :=
  if words < wordLimit then .ok () else .error .sizeOverflow

/-- What is left of a size, if it is not less than what is taken away. -/
def checkDifference (n taken : Nat) : Except Error Nat :=
  if taken ≤ n then .ok (n - taken) else .error .sizeOverflow

/-- The fault of a computed size: the given one, unless 64 bits do not hold the size. -/
def sizeFault (n : Nat) (fault : Error) : Error := if n < sizeLimit then fault else .sizeOverflow

theorem checkRoom_eq_ok_iff {words : Nat} {u : Unit} :
    checkRoom words = .ok u ↔ words < wordLimit := by
  by_cases h : words < wordLimit <;> simp [checkRoom, h]

theorem checkRoom_eq_error_iff {words : Nat} {e : Error} :
    checkRoom words = .error e ↔ e = .sizeOverflow ∧ wordLimit ≤ words := by
  by_cases h : words < wordLimit
  · simp [checkRoom, h]
  · simpa [checkRoom, h, Nat.not_lt.mp h] using eq_comm

theorem checkRoom_of_lt {words : Nat} (room : words < wordLimit) : checkRoom words = .ok () :=
  if_pos room

theorem checkRoom_of_le {words : Nat} (crowded : wordLimit ≤ words) :
    checkRoom words = .error .sizeOverflow :=
  if_neg (Nat.not_lt.mpr crowded)

end Cotangent
