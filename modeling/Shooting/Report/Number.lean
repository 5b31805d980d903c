import Shooting.Decimal.Text

/-! # Reported numbers

Numbers are reported to a few digits, so that reports do not depend on the last bits of a
computation. Zero is reported without a sign.
-/

namespace Shooting.Report

def rounded (rule : Nat → Int → Decimal) (x : Float) : Float :=
  match Binary.ofFloat x with
  | .finite negative m q =>
    let d := rule m q
    if d.digits = 0 then 0.0 else if negative then -d.toFloat else d.toFloat
  | _ => x

/-- Results of a computation keep seven significant digits, and nine decimal places if they are below
a thousandth. -/
def computed (x : Float) : Float :=
  rounded (fun m q =>
    let d := Decimal.significant 7 m q
    if d.order < -3 then Decimal.roundAt m q (-9) else d) x

/-- Settings, step lengths and weights keep twelve significant digits. -/
def exact (x : Float) : Float := rounded (Decimal.significant 12) x

def computedText (x : Float) : String := Decimal.full (computed x)

end Shooting.Report
