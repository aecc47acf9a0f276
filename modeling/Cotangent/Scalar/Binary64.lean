import Cotangent.Scalar
import Cotangent.Decimal.Written

/-!
Binary floating-point numbers of 64 bits. A number is kept as its word, so that two
not-a-numbers with different words stay apart; arithmetic goes through the value of the word.
A finite number is written with the fewest digits that read back as it.
-/

namespace Cotangent

/-- A 64-bit floating-point number, given by its word. -/
structure Binary64 where
  /-- Sign, exponent and fraction. -/
  bits : UInt64
  deriving DecidableEq

namespace Binary64

def toFloat (x : Binary64) : Float := Float.ofBits x.bits

def ofFloat (f : Float) : Binary64 := ⟨f.toBits⟩

/-- The sign bit is set. -/
def isNegative (x : Binary64) : Bool := x.bits >>> 63 == 1

def biased (x : Binary64) : Nat := (x.bits >>> 52 &&& 0x7ff).toNat

def fraction (x : Binary64) : Nat := (x.bits &&& 0xfffffffffffff).toNat

/-- Written by `finite` if finite and not zero, otherwise by name; a sign comes first. -/
def written (zero : String) (finite : Decimal.Digits → String) (x : Binary64) : String :=
  let sign := if x.isNegative then "-" else ""
  if x.biased = 0x7ff then
    if x.fraction = 0 then sign ++ "inf" else "NaN"
  else if x.biased = 0 then
    if x.fraction = 0 then sign ++ zero
    else sign ++ finite (Decimal.shortest x.fraction (-1074) false)
  else
    let m := x.fraction + 0x10000000000000
    sign ++ finite (Decimal.shortest m ((x.biased : Int) - 1075) (x.fraction = 0 && 1 < x.biased))

instance : Scalar Binary64 where
  zero := ofFloat 0
  one := ofFloat 1
  add x y := ofFloat (x.toFloat + y.toFloat)
  sub x y := ofFloat (x.toFloat - y.toFloat)
  mul x y := ofFloat (x.toFloat * y.toFloat)
  div x y := ofFloat (x.toFloat / y.toFloat)
  neg x := ofFloat (-x.toFloat)
  natCast n := ofFloat (Float.ofNat n)
  decEq := inferInstance
  numEq x y := x.toFloat == y.toFloat
  lt x y := x.toFloat < y.toFloat
  le x y := x.toFloat ≤ y.toFloat
  abs x := ofFloat x.toFloat.abs
  sqrt x := ofFloat x.toFloat.sqrt
  sin x := ofFloat x.toFloat.sin
  cos x := ofFloat x.toFloat.cos
  exp x := ofFloat x.toFloat.exp
  log x := ofFloat x.toFloat.log
  positional := written "0" Decimal.Digits.positional
  scientific := written "0e0" Decimal.Digits.scientific

end Binary64

end Cotangent
