import Shooting.Decimal.Rounding

/-! # Shortest decimals

The decimal with the fewest digits that is nearer to a double than to any other one.
-/

namespace Shooting.Decimal

/-- Whether a decimal lies in the interval of numbers that round to the double `m · 2^q`. The ends,
which are halfway to the neighbours, belong to it if `m` is even. -/
def readsBack (m : Nat) (q : Int) (d : Decimal) : Bool :=
  let below := if m = Binary.bit 52 && -1074 < q then 4 * m - 1 else 4 * m - 2
  let above := 4 * m + 2
  let (lo, den) := ratio below (q - 2) d.exponent
  let (hi, _) := ratio above (q - 2) d.exponent
  let n := d.digits * den
  if m % 2 = 0 then lo ≤ n && n ≤ hi else lo < n && n < hi

/-- Of the two neighbours of `m · 2^q` among the multiples of `10^e`, the nearer one that reads back
as that double. -/
def neighbour? (m : Nat) (q e : Int) : Option Decimal :=
  let (num, den) := ratio m q e
  let near := roundDiv num den
  let far := if near * den ≤ num then near + 1 else near - 1
  [near, far].find? (fun n => readsBack m q ⟨n, e⟩) |>.map (⟨·, e⟩)

def strip (d : Decimal) : Decimal :=
  if d.digits = 0 then ⟨0, 0⟩
  else
    let zeros := ((Nat.toDigits 10 d.digits).reverse.takeWhile (· = '0')).length
    ⟨d.digits / ten zeros, d.exponent + zeros⟩

def shortest (m : Nat) (q : Int) : Decimal :=
  if m = 0 then ⟨0, 0⟩
  else
    let e := leading m q
    let found := (List.range 17).findSome? fun (n : Nat) => neighbour? m q (e - n)
    strip (found.getD (roundAt m q (e - 16)))

end Shooting.Decimal
