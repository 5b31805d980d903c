import Shooting.Expr.Forms

/-! # Derivatives of expressions

The derivative of an expression along a motion of its variables is again an expression. Motions are
those of the state along a tangent vector and of the control along a straight line; since they
commute, taking two derivatives in a row gives the second derivative at zero of the expression read
through the moves.
-/

namespace Shooting

/-- The rates at which the variables move; one that is held fixed has none. -/
structure Rates (α : Type) where
  state : Nat → Option (Expr α)
  control : Nat → Option (Expr α)

namespace Rates
variable {α : Type} [Scalar α]

/-- The motion with the given speed in each tangent coordinate, those of the state first. A rotation
at speed `w` turns the point `(x₀, x₁)` at the rate `(-w x₁, w x₀)`. -/
def ofSpeeds (m : Manifold) (speed : Nat → Option α) : Rates α where
  state i := match m, i with
    | .euclidean _, i => (speed i).map .const
    | .rotation _, 0 => (speed 0).map fun w => .neg (.mul (.const w) (.state 1))
    | .rotation _, 1 => (speed 0).map fun w => .mul (.const w) (.state 0)
    | .rotation _, i + 2 => (speed (i + 1)).map .const
  control j := (speed (m.ndx + j)).map .const

def axis (m : Manifold) (k : Nat) : Rates α :=
  ofSpeeds m fun j => if j = k then some 1 else none

def along (m : Manifold) (k : Nat) : Rates α :=
  ofSpeeds m fun j => some (if j = k then 1 else 0)

end Rates

variable {α : Type} [Scalar α]

def Elementary.slope (f : Elementary) (a : Expr α) : Expr α :=
  match f with
  | sin => .apply .cos a
  | cos => .neg (.apply .sin a)
  | exp => .apply .exp a
  | log => .div (.const 1) a
  | sqrt => .div (.const Scalar.half) (.apply .sqrt a)
  | tanh => .sub (.const 1) (.mul (.apply .tanh a) (.apply .tanh a))

namespace Expr

def derivative (r : Rates α) : Expr α → Option (Expr α)
  | const _ => none
  | state i => r.state i
  | control j => r.control j
  | neg a => (a.derivative r).map neg
  | add a b => (a.derivative r).merge add (b.derivative r)
  | sub a b => (a.derivative r).merge add ((b.derivative r).map neg)
  | mul a b =>
    ((a.derivative r).map fun da => mul da b).merge add ((b.derivative r).map fun db => mul a db)
  | div a b =>
    ((a.derivative r).map fun da => div da b).merge add
      ((b.derivative r).map fun db => neg (div (mul a db) (mul b b)))
  | pow a k =>
    (a.derivative r).map fun da => mul da (mul (const (Scalar.ofNat k)) (pow a (k - 1)))
  | apply f a => (a.derivative r).map fun da => mul da (f.slope a)
  | atan2 y x =>
    let q := add (mul x x) (mul y y)
    ((y.derivative r).map fun dy => mul dy (div x q)).merge add
      ((x.derivative r).map fun dx => mul dx (neg (div y q)))

def slope (x u : Vec α) (e : Option (Expr α)) : α := (e.map (eval x u)).getD 0

def gradient (m : Manifold) (n : Nat) (e : Expr α) : List (Option (Expr α)) :=
  (List.range n).map fun k => e.derivative (.axis m k)

/-- The derivatives of the gradient. The coordinates off the axis move at speed zero instead of
standing still, so that a slope that is not a number shows in all of them. -/
def hessian (m : Manifold) (n : Nat) (e : Expr α) : List (List (Option (Expr α))) :=
  (gradient m n e).map fun g => (List.range n).map fun k => g.bind (·.derivative (.along m k))

end Expr
end Shooting
