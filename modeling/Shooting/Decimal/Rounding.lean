import Shooting.Decimal.Binary

/-! # Rounding to decimals

Rounding of an exact number `m · 2^q` to a set number of significant digits or of decimal places.
Everything is computed on naturals, and a tie goes to the even neighbour.
-/

namespace Shooting

/-- The number `digits · 10^exponent`. -/
structure Decimal where
  digits : Nat
  exponent : Int
deriving DecidableEq

namespace Decimal

/-- The integer nearest to a quotient, the even one of two. -/
def roundDiv (num den : Nat) : Nat :=
  let q := num / den
  let r := num % den
  if 2 * r < den then q else if den < 2 * r then q + 1 else q + q % 2

def ten (n : Nat) : Nat := Nat.pow 10 n

def ratio (m : Nat) (q e : Int) : Nat × Nat :=
  (m * Binary.bit q.toNat * ten (-e).toNat, Binary.bit (-q).toNat * ten e.toNat)

def digitCount (n : Nat) : Nat := (Nat.toDigits 10 n).length

def leading (m : Nat) (q : Int) : Int :=
  let (num, den) := ratio m q 0
  let guess : Int := digitCount num - digitCount den
  let (num, den) := ratio m q guess
  if num < den then guess - 1 else guess

/-- The multiple of `10^e` nearest to `m · 2^q`. -/
def roundAt (m : Nat) (q e : Int) : Decimal :=
  let (num, den) := ratio m q e
  ⟨roundDiv num den, e⟩

def significant (n m : Nat) (q : Int) : Decimal :=
  if m = 0 then ⟨0, 1 - n⟩
  else
    let d := roundAt m q (leading m q - n + 1)
    if d.digits = ten n then ⟨ten (n - 1), d.exponent + 1⟩ else d

def order (d : Decimal) : Int :=
  if d.digits = 0 then 0 else d.exponent + digitCount d.digits - 1

def toFloat (d : Decimal) : Float :=
  Float.ofScientific d.digits (d.exponent < 0) d.exponent.natAbs

end Decimal
end Shooting
