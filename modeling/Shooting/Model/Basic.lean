import Shooting.Manifold
import Shooting.Linear.Mat

/-! # Action models

An action model describes one knot of a trajectory: the cost of a state and a control there and, for
all knots but the last, the state that follows.
-/

namespace Shooting

/-- First and second derivatives of the cost and first derivatives of the following state, in tangent
coordinates of the state (`x`) and of the control (`u`). -/
structure Linearization (α : Type) where
  lx : Vec α
  lu : Vec α
  lxx : Mat α
  lxu : Mat α
  luu : Mat α
  fx : Mat α
  fu : Mat α

structure Knot (α : Type) where
  cost : α
  xnext : Vec α
  slopes : Linearization α

structure Model (α : Type) where
  state : Manifold
  next : Manifold
  nu : Nat
  hasDynamics : Bool
  /-- The cost and the following state. -/
  eval : Vec α → Vec α → Except Fault (α × Vec α)
  deriv : Vec α → Vec α → Except Fault (Linearization α)

variable {α : Type} [Scalar α]

def Linearization.zero (ndx nu ndxNext : Nat) : Linearization α where
  lx := Vec.zeros ndx
  lu := Vec.zeros nu
  lxx := Mat.zeros ndx ndx
  lxu := Mat.zeros ndx nu
  luu := Mat.zeros nu nu
  fx := Mat.zeros ndxNext ndx
  fu := Mat.zeros ndxNext nu

namespace Model

def fresh (m : Model α) : Knot α where
  cost := 0
  xnext := m.next.zero
  slopes := .zero m.state.ndx m.nu m.next.ndx

/-- Evaluates the model into a record. A fault leaves the record as it was. -/
def evaluate (m : Model α) (k : Knot α) (x u : Vec α) : Knot α × Except Fault α :=
  match m.eval x u with
  | .ok (cost, xnext) => ({ k with cost, xnext }, .ok cost)
  | .error f => (k, .error f)

def linearize (m : Model α) (k : Knot α) (x u : Vec α) : Knot α × Except Fault Unit :=
  match m.deriv x u with
  | .ok slopes => ({ k with slopes }, .ok ())
  | .error f => (k, .error f)

end Model
end Shooting
