import Shooting.Layout
import Shooting.Damping

/-! # The optimality system

The matrix `[H Aᵀ; A 0]` and the right-hand side of the quadratic program that a linearized problem
gives rise to. Each entry is determined by what its row and its column stand for.
-/

namespace Shooting

structure System (α : Type) where
  matrix : Mat α
  /-- Gradient of the cost, followed by the gaps. -/
  residual : Vec α
  /-- The diagonal of the Hessian block without damping. -/
  diagonal : Vec α

namespace System
variable {α : Type} [Scalar α]

def zero (l : Layout) : System α where
  matrix := Mat.zeros l.size l.size
  residual := Vec.zeros l.size
  diagonal := Vec.zeros l.nprimal

def slopesAt (ks : Knots α) (t : Nat) : Linearization α :=
  (ks.running ++ [ks.terminal])[t]?.elim (.zero 0 0 0) (·.slopes)

/-- The entry of the matrix for two slots. The row of a multiplier is its constraint: the state of
its own knot less what the knot before makes of its increments. -/
def matrixEntry (ks : Knots α) : Slot → Slot → α
  | .state t i, .state s j => if t = s then Mat.entry (slopesAt ks t).lxx i j else 0
  | .state t i, .control s j => if t = s then Mat.entry (slopesAt ks t).lxu i j else 0
  | .control t i, .state s j => if t = s then Mat.entry (slopesAt ks t).lxu j i else 0
  | .control t i, .control s j => if t = s then Mat.entry (slopesAt ks t).luu i j else 0
  | .costate t i, .state s j => stateCoupling t i s j
  | .costate t i, .control s j => controlCoupling t i s j
  | .state s j, .costate t i => stateCoupling t i s j
  | .control s j, .costate t i => controlCoupling t i s j
  | .costate _ _, .costate _ _ => 0
where
  stateCoupling (t i s j : Nat) : α :=
    if t = s then if i = j then 1 else 0
    else if t = s + 1 then -Mat.entry (slopesAt ks s).fx i j else 0
  controlCoupling (t i s j : Nat) : α :=
    if t = s + 1 then -Mat.entry (slopesAt ks s).fu i j else 0

def residualEntry (ks : Knots α) (gaps : List (Vec α)) : Slot → α
  | .state t i => (slopesAt ks t).lx.getD i 0
  | .control t i => (slopesAt ks t).lu.getD i 0
  | .costate t i => (gaps.getD t []).getD i 0

def assemble (l : Layout) (ks : Knots α) (gaps : List (Vec α)) : System α :=
  let matrix := l.slots.map fun row => l.slots.map (matrixEntry ks row)
  { matrix
    residual := l.slots.map (residualEntry ks gaps)
    diagonal := Mat.diagonal matrix l.nprimal }

def dampedDiagonal (ndx : Nat) (diagonal : Vec α) (xreg ureg : Weight α) : Vec α :=
  diagonal.mapIdx fun i h => h + (if i < ndx then xreg else ureg).addend

def damp (ndx : Nat) (s : System α) (xreg ureg : Weight α) : System α :=
  { s with matrix := Mat.setDiagonal s.matrix (dampedDiagonal ndx s.diagonal xreg ureg) }

end System
end Shooting
