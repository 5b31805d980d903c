import Shooting.Expr.Basic

/-! # Derived expressions

Sums of squares, linear forms and deviations from a fixed point, spelled out as expressions.
-/

namespace Shooting.Expr
variable {α : Type} [Scalar α]

def sum : List (Expr α) → Expr α
  | [] => const 0
  | e :: es => es.foldl add e

def stateNormSq (n : Nat) : Expr α := sum ((List.range n).map fun i => pow (state i) 2)

def controlNormSq (n : Nat) : Expr α := sum ((List.range n).map fun j => pow (control j) 2)

def linear (cx cu : Vec α) : Expr α :=
  add (sum (cx.mapIdx fun i c => mul (const c) (state i)))
    (sum (cu.mapIdx fun j c => mul (const c) (control j)))

/-- The tangent vector that takes a fixed point to the state. -/
def deviation (m : Manifold) (g : Vec α) : List (Expr α) :=
  match m with
  | .euclidean n => (List.range n).map fun i => sub (state i) (const (g.coord i))
  | .rotation nv =>
    let g0 := const (g.coord 0)
    let g1 := const (g.coord 1)
    atan2 (sub (mul g0 (state 1)) (mul g1 (state 0)))
        (add (mul g0 (state 0)) (mul g1 (state 1)))
      :: (List.range nv).map fun i => sub (state (i + 2)) (const (g.coord (i + 2)))

def deviationSq (m : Manifold) (g : Vec α) : Expr α :=
  sum ((deviation m g).map fun e => pow e 2)

def integrate (m : Manifold) (dx : List (Expr α)) : List (Expr α) :=
  match m with
  | .euclidean _ => dx.mapIdx fun i e => add (state i) e
  | .rotation _ =>
    let theta := dx.getD 0 (const 0)
    let c := apply .cos theta
    let s := apply .sin theta
    sub (mul (state 0) c) (mul (state 1) s) :: add (mul (state 1) c) (mul (state 0) s)
      :: (dx.drop 1).mapIdx fun i e => add (state (i + 2)) e

end Shooting.Expr
