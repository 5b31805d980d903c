import Shooting.Decimal.Shortest

/-! # Decimal text

How numbers are written: with a set number of places, with an exponent, with a set number of
significant digits, or in full.
-/

namespace Shooting.Decimal

def padded (width n : Nat) : String :=
  let s := toString n
  "".pushn '0' (width - s.length) ++ s

def right (width : Nat) (s : String) : String := "".pushn ' ' (width - s.length) ++ s

def exponentText (e : Int) : String :=
  (if e < 0 then "e-" else "e+") ++ padded 2 e.natAbs

def pointText (places n : Nat) : String :=
  let whole := toString (n / ten places)
  if places = 0 then whole else whole ++ "." ++ padded places (n % ten places)

def write (rule : Nat → Int → String) (x : Float) : String :=
  match Binary.ofFloat x with
  | .nan => "nan"
  | .infinite negative => if negative then "-inf" else "inf"
  | .finite negative m q => (if negative then "-" else "") ++ rule m q

def fixed (places : Nat) : Float → String :=
  write fun m q => pointText places (roundAt m q (-places)).digits

def scientific (places : Nat) : Float → String :=
  write fun m q =>
    let d := significant (places + 1) m q
    pointText places d.digits ++ exponentText (d.exponent + places)

/-- A number to `n` significant digits, without zeros at its end. An exponent below -4 or from `n` on
is written out. -/
def general (n : Nat) : Float → String :=
  write fun m q =>
    let d := significant n m q
    let order := d.exponent + n - 1
    let s := strip d
    if order < -4 || (n : Int) ≤ order then
      let places := digitCount s.digits - 1
      pointText places s.digits ++ exponentText order
    else
      pointText (-s.exponent).toNat (s.digits * ten s.exponent.toNat)

/-- The shortest text of a finite double. It has a point unless it has an exponent, and an exponent
only below -4 or from 16 on. -/
def full : Float → String :=
  write fun m q =>
    let d := shortest m q
    let order := d.order
    if order < -4 || 16 ≤ order then
      pointText (digitCount d.digits - 1) d.digits ++ exponentText order
    else
      let places := max 1 (-d.exponent).toNat
      pointText places (d.digits * ten (d.exponent + places).toNat)

end Shooting.Decimal
