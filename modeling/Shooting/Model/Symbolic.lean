import Shooting.Model.Basic
import Shooting.Expr.Derivative

/-! # Models given by expressions

Models whose cost and dynamics are expressions; their derivatives are exact.
-/

namespace Shooting

/-- The following state, given by its entries or by the tangent vector that leads to it. -/
inductive Dynamics (α : Type)
  | entries (es : List (Expr α))
  | tangent (es : List (Expr α))

/-- A fault to raise in place of an evaluation where entry `i` of the state is at most `bound`. -/
structure Guard (α : Type) where
  i : Nat
  bound : α
  fault : Fault

variable {α : Type} [Scalar α]

def Dynamics.embedding (m : Manifold) : Dynamics α → List (Expr α)
  | entries es => es
  | tangent es => Expr.integrate m es

def Guard.check (g : Guard α) (x : Vec α) : Except Fault Unit :=
  if Scalar.le (x.coord g.i) g.bound then .error g.fault else .ok ()

/-- The rate at which `m.diff y` turns when its second argument leaves `y` at the given rate. -/
def Manifold.diffRate (m : Manifold) (y rate : Vec α) : Vec α :=
  match m with
  | .euclidean _ => rate
  | .rotation _ =>
    let c := y.coord 0
    let s := y.coord 1
    (c * rate.coord 1 - s * rate.coord 0) / (c * c + s * s) :: rate.drop 2

namespace Model

def hessianAt (n : Nat) (second : List (List (Option (Expr α)))) (x u : Vec α) : Mat α :=
  let h : Mat α := second.map (·.map (Expr.slope x u))
  Mat.ofFn n n fun i j => Scalar.half * (Mat.entry h i j + Mat.entry h j i)

def jacobianAt (next : Manifold) (n : Nat) (es : List (Expr α))
    (first : List (List (Option (Expr α)))) (x u : Vec α) : Mat α :=
  let y := es.map (Expr.eval x u)
  let rates : Mat α := first.map (·.map (Expr.slope x u))
  let columns : Mat α := (List.range n).map fun k => next.diffRate y (rates.map (·.getD k 0))
  Mat.ofFn next.ndx n fun i k => Mat.entry columns k i

def slopes (state next : Manifold) (nu : Nat) (cost : Expr α) (dynamics : Option (List (Expr α))) :
    Vec α → Vec α → Linearization α :=
  let ndx := state.ndx
  let n := ndx + nu
  let first := cost.gradient state n
  let second := cost.hessian state n
  let moves := dynamics.map fun es => (es, es.map (Expr.gradient state n))
  fun x u =>
    let g := first.map (Expr.slope x u)
    let h := hessianAt n second x u
    let f : Mat α := match moves with
      | some (es, rows) => jacobianAt next n es rows x u
      | none => Mat.ofFn ndx n fun i k => if i = k then 1 else 0
    { lx := g.take ndx
      lu := g.drop ndx
      lxx := Mat.block h 0 ndx 0 ndx
      lxu := Mat.block h 0 ndx ndx nu
      luu := Mat.block h ndx nu ndx nu
      fx := f.map (·.take ndx)
      fu := f.map (·.drop ndx) }

/-- The model with the given cost and dynamics. Absent a manifold for the following state, it is that
of the state. -/
def ofExprs (state : Manifold) (cost : Expr α) (dynamics : Option (Dynamics α)) (nu : Int)
    (next : Option Manifold) (guard : Option (Guard α)) : Except Fault (Model α) :=
  if nu < 0 then .error (.controlDimension nu)
  else if dynamics.isNone && 0 < nu then .error .dynamicsMissing
  else if dynamics.isNone && next.any (·.ndx ≠ state.ndx) then .error .dimensionChange
  else
    let es := dynamics.map (·.embedding state)
    let linearize := slopes state (next.getD state) nu.toNat cost es
    .ok
      { state
        next := next.getD state
        nu := nu.toNat
        hasDynamics := dynamics.isSome
        eval := fun x u => do
          if let some g := guard then g.check x
          return (cost.eval x u, (es.map (·.map (Expr.eval x u))).getD x)
        deriv := fun x u => .ok (linearize x u) }

end Model
end Shooting
