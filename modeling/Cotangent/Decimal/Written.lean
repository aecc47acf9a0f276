import Cotangent.Decimal.Shortest

/-!
Two ways of writing a decimal. The positional form never has an exponent and has a point only
before digits that follow it. The scientific form has one digit before the point and always an
exponent.
-/

namespace Cotangent.Decimal.Digits

def text (d : Digits) : String := String.ofList (Nat.toDigits 10 d.digits)

/-- The power of ten of the first digit. -/
def leading (d : Digits) : Int := d.exponent + digitCount d.digits - 1

/-- The decimal without an exponent. -/
def positional (d : Digits) : String :=
  let shown := Nat.toDigits 10 d.digits
  if 0 ≤ d.exponent then
    String.ofList (shown ++ List.replicate d.exponent.toNat '0')
  else if 0 ≤ d.leading then
    let whole := (d.leading + 1).toNat
    String.ofList (shown.take whole ++ '.' :: shown.drop whole)
  else
    String.ofList ('0' :: '.' :: List.replicate (-d.leading - 1).toNat '0' ++ shown)

/-- The decimal with an exponent. -/
def scientific (d : Digits) : String :=
  let mantissa := match Nat.toDigits 10 d.digits with
    | first :: second :: rest => first :: '.' :: second :: rest
    | shown => shown
  String.ofList mantissa ++ "e" ++ toString d.leading

example : positional ⟨15, -1⟩ = "1.5" := by decide
example : positional ⟨1, 21⟩ = "1000000000000000000000" := by decide
example : positional ⟨25, -4⟩ = "0.0025" := by decide
example : scientific ⟨1, -3⟩ = "1e-3" := by decide
example : scientific ⟨8881784197001252, -31⟩ = "8.881784197001252e-16" := by decide

end Cotangent.Decimal.Digits
