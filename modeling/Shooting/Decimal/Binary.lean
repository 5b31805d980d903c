/-! # Machine doubles as exact numbers

A finite double is `± m · 2^q` with naturals `m`; the fields are read off its 64 bits.
-/

namespace Shooting

inductive Binary
  | nan
  | infinite (negative : Bool)
  | finite (negative : Bool) (m : Nat) (q : Int)
deriving DecidableEq

def Binary.bit (n : Nat) : Nat := Nat.pow 2 n

def Binary.ofFloat (x : Float) : Binary :=
  let bits := x.toBits.toNat
  let negative := bit 63 ≤ bits
  let exponent : Nat := bits / bit 52 % bit 11
  let fraction := bits % bit 52
  if exponent = bit 11 - 1 then
    if fraction = 0 then infinite negative else nan
  else if exponent = 0 then finite negative fraction (-1074)
  else finite negative (bit 52 + fraction) ((exponent : Int) - 1075)

end Shooting
