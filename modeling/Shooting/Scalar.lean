/-! # Scalars

The arithmetic that the solver is written over. Every numerical definition is stated once for an
arbitrary scalar type: machine doubles run it, and exact fields can be put in their place.
-/

namespace Shooting

/-- Arithmetic, elementary functions and tests. No law is assumed: a comparison may fail in both
directions, and a value may differ from itself. -/
class Scalar (α : Type) extends Zero α, One α, Add α, Sub α, Mul α, Div α, Neg α where
  sqrt : α → α
  sin : α → α
  cos : α → α
  exp : α → α
  log : α → α
  tanh : α → α
  /-- The angle of the point with ordinate first and abscissa second. -/
  atan2 : α → α → α
  lt : α → α → Bool
  le : α → α → Bool
  eq : α → α → Bool
  isFinite : α → Bool
  isNaN : α → Bool

instance : Scalar Float where
  zero := 0.0
  one := 1.0
  add := Float.add
  sub := Float.sub
  mul := Float.mul
  div := Float.div
  neg := Float.neg
  sqrt := Float.sqrt
  sin := Float.sin
  cos := Float.cos
  exp := Float.exp
  log := Float.log
  tanh := Float.tanh
  atan2 := Float.atan2
  lt a b := decide (a < b)
  le a b := decide (a ≤ b)
  eq a b := a == b
  isFinite := Float.isFinite
  isNaN := Float.isNaN

namespace Scalar
variable {α : Type} [Scalar α]

def larger (a b : α) : α := if lt a b then b else a

def smaller (a b : α) : α := if lt b a then b else a

def half : α := 1 / (1 + 1)

def ofNat : Nat → α
  | 0 => 0
  | n + 1 => ofNat n + 1

def power (a : α) : Nat → α
  | 0 => 1
  | n + 1 => power a n * a

end Scalar
end Shooting
