import Shooting.Options

/-! # Damping

The weights added to the diagonal of the Hessian, one for states and one for controls. They move
geometrically within the range that the options give.
-/

namespace Shooting

/-- A damping weight; an absent one leaves its block undamped. -/
abbrev Weight (α : Type) := Option α

namespace Weight
variable {α : Type} [Scalar α]

/-- A scalar that is not a number stands for an absent weight. -/
def ofScalar (a : α) : Weight α := if Scalar.isNaN a then none else some a

def addend (w : Weight α) : α := w.getD 0

def increase (o : Options α) (w : Weight α) : Weight α :=
  w.bind fun a =>
    ofScalar (Scalar.smaller (Scalar.larger (a * o.regFactor) o.regMin) o.regMax)

def decrease (o : Options α) (w : Weight α) : Weight α :=
  w.bind fun a => ofScalar (Scalar.larger (a / o.regFactor) o.regMin)

def saturated (o : Options α) (w : Weight α) : Bool := w.any (Scalar.eq · o.regMax)

end Weight
end Shooting
