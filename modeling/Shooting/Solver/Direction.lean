import Shooting.Solver.Basic
import Shooting.Linear.RangeSpace

/-! # Search directions

Linearizing the problem at the candidate, solving the damped optimality system, and measuring how far
the candidate is from satisfying the optimality conditions.
-/

namespace Shooting.Solver
variable {α : Type} [Scalar α]

def linearize (s : Solver α) : Solver α × Except Fault α :=
  match s.problem.linearize s.knots s.candidate.xs s.candidate.us with
  | (knots, .error f) => ({ s with knots }, .error f)
  | (knots, .ok cost) =>
    let gaps := s.problem.gaps knots s.candidate.xs
    let system := System.assemble s.layout knots gaps
    ({ s with knots, cost, system := system.damp s.layout.ndx s.xreg s.ureg }, .ok cost)

def redamp (s : Solver α) : Solver α :=
  { s with system := s.system.damp s.layout.ndx s.xreg s.ureg }

/-- Solves the system as a whole. On failure the last solution stays. -/
def solveSystem (s : Solver α) : Solver α × ErrorCode :=
  match RangeSpace.solve? s.system.matrix s.system.residual s.layout.nprimal with
  | none => (s, .choleskyFailed)
  | some (primal, dual) =>
    ({ s with direction := { s.direction with primal, dual, primalDual := primal ++ dual } },
      .noError)

def splitDirection (s : Solver α) : Solver α :=
  let l := s.layout
  let d := s.direction
  { s with direction :=
    { d with
      dxs := Layout.split l.ndxs (d.primal.take l.ndx)
      dus := Layout.split l.nus (d.primal.drop l.ndx)
      lambdas := Layout.split l.ndxs d.dual } }

def factorize (s : Solver α) : Solver α × ErrorCode :=
  match s.solveSystem with
  | (s, .noError) => (s.splitDirection, .noError)
  | (s, code) => (s, code)

def computeDirection (s : Solver α) (relinearize : Bool) : Solver α × Except Fault ErrorCode :=
  if relinearize then
    match s.linearize with
    | (s, .error f) => (s, .error f)
    | (s, .ok _) =>
      let (s, code) := s.factorize
      (s, .ok code)
  else
    let (s, code) := s.redamp.factorize
    (s, .ok code)

def predict (s : Solver α) : Solver α :=
  { s with d := RangeSpace.improvement s.system.matrix s.system.residual s.direction.primal }

/-- The state part of the costate terms, knot by knot: each multiplier less what the dynamics carry
back from the next one. -/
def costateStates : List (Linearization α) → List (Vec α) → List (Vec α)
  | k :: ks, l :: next :: ls =>
    Vec.sub l (Mat.combine l.length k.fx next) :: costateStates ks (next :: ls)
  | [], [l] => [l]
  | _, _ => []

def costateControls : List Nat → List (Linearization α) → List (Vec α) → List (Vec α)
  | n :: ns, k :: ks, _ :: next :: ls =>
    Vec.neg (Mat.combine n k.fu next) :: costateControls ns ks (next :: ls)
  | _, _, _ => []

/-- The squared residual of the optimality conditions: the gradient with the costate terms added to
it, and the gaps. -/
def measureStop (s : Solver α) : Solver α :=
  let n := s.layout.nprimal
  let slopes := s.knots.running.map (·.slopes)
  let lambdas := s.direction.lambdas
  let costates :=
    (costateStates slopes lambdas).flatten ++
      (costateControls s.layout.nus slopes lambdas).flatten
  let stationarity := Vec.normSq (Vec.add (s.system.residual.take n) costates)
  { s with stop := stationarity + Vec.normSq (s.system.residual.drop n) }

end Shooting.Solver
