import Shooting.Fault

/-! # State manifolds

States live on a manifold with an embedding dimension and a tangent dimension. They are compared by
`diff` and moved by `integrate`, and never added or subtracted as they stand.
-/

namespace Shooting

/-- Either a Euclidean space, or planar rotations, embedded as unit complex numbers, followed by
`nv` Euclidean coordinates. -/
inductive Manifold
  | euclidean (n : Nat)
  | rotation (nv : Nat)
deriving DecidableEq

namespace Manifold

def ofDimension (n : Int) : Except Fault Manifold :=
  if n ≤ 0 then .error (.stateDimensions n n) else .ok (euclidean n.toNat)

def ofVelocities (nv : Int) : Except Fault Manifold :=
  if nv < 0 then .error (.euclideanCount nv) else .ok (rotation nv.toNat)

def nx : Manifold → Nat
  | euclidean n => n
  | rotation nv => 2 + nv

def ndx : Manifold → Nat
  | euclidean n => n
  | rotation nv => 1 + nv

def describe (m : Manifold) : String :=
  let kind := match m with
    | euclidean _ => "StateVector"
    | rotation _ => "StateSO2"
  s!"{kind}(nx={m.nx}, ndx={m.ndx})"

variable {α : Type} [Scalar α]

def zero : Manifold → Vec α
  | euclidean n => Vec.zeros n
  | rotation nv => 1 :: 0 :: Vec.zeros nv

/-- The tangent vector that takes the first point to the second. The rotation part is the angle of
the relative rotation. -/
def diff (m : Manifold) (x y : Vec α) : Vec α :=
  match m with
  | euclidean _ => Vec.sub y x
  | rotation _ =>
    let c := x.coord 0 * y.coord 0 + x.coord 1 * y.coord 1
    let s := x.coord 0 * y.coord 1 - x.coord 1 * y.coord 0
    Scalar.atan2 s c :: Vec.sub (y.drop 2) (x.drop 2)

def integrate (m : Manifold) (x dx : Vec α) : Vec α :=
  match m with
  | euclidean _ => Vec.add x dx
  | rotation _ =>
    let c := Scalar.cos (dx.coord 0)
    let s := Scalar.sin (dx.coord 0)
    (x.coord 0 * c - x.coord 1 * s) :: (x.coord 1 * c + x.coord 0 * s)
      :: Vec.add (x.drop 2) (dx.drop 1)

def ofAngle (theta : α) (v : Vec α) : Vec α := Scalar.cos theta :: Scalar.sin theta :: v

def angle (x : Vec α) : α := Scalar.atan2 (x.coord 1) (x.coord 0)

@[simp] theorem length_zero (m : Manifold) : (m.zero : Vec α).length = m.nx := by
  cases m with
  | euclidean n => simp [zero, nx]
  | rotation nv => simp only [zero, nx, List.length_cons, Vec.length_zeros]; omega

theorem length_diff {m : Manifold} {x y : Vec α} (hx : x.length = m.nx) (hy : y.length = m.nx) :
    (m.diff x y).length = m.ndx := by
  cases m <;> simp_all [diff, nx, ndx, Nat.add_comm]

theorem length_integrate {m : Manifold} {x dx : Vec α} (hx : x.length = m.nx)
    (hdx : dx.length = m.ndx) : (m.integrate x dx).length = m.nx := by
  cases m with
  | euclidean n => simp_all [integrate, nx, ndx]
  | rotation nv =>
    simp only [nx, ndx] at hx hdx
    simp only [integrate, nx, List.length_cons, Vec.length_add, List.length_drop, hx, hdx]
    omega

end Manifold
end Shooting
