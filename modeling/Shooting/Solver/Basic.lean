import Shooting.System
import Shooting.Search
import Shooting.Stats

/-! # Solver state

A solver owns a problem, the records of its knots, the trajectory accepted so far, and everything
that an iteration leaves behind.
-/

namespace Shooting

structure Candidate (α : Type) extends Trajectory α where
  feasible : Bool

/-- A solution of the optimality system, as a whole and cut into knots. The two are set apart, so the
pieces may be those of an earlier solution. -/
structure Direction (α : Type) where
  primal : Vec α
  dual : Vec α
  primalDual : Vec α
  dxs : List (Vec α)
  dus : List (Vec α)
  lambdas : List (Vec α)

/-- The last trial trajectory and its cost. The cost is older if the trial raised a fault. -/
structure Attempt (α : Type) extends Trajectory α where
  cost : α

inductive Callback
  | table (period : Int)
  | recorder
deriving DecidableEq

structure Solver (α : Type) where
  problem : Problem α
  options : Options α
  knots : Knots α
  candidate : Candidate α
  /-- Whether the trajectory before the last accepted step was held to be feasible. -/
  wasFeasible : Bool
  iter : Nat
  cost : α
  stop : α
  /-- First and second order terms of the predicted decrease. -/
  d : α × α
  xreg : Weight α
  ureg : Weight α
  steplength : α
  dV : α
  dVexp : α
  system : System α
  direction : Direction α
  attempt : Attempt α
  search : Search α
  stats : Stats α
  callbacks : List Callback

variable {α : Type} [Scalar α]

def Problem.defaultStates (p : Problem α) : List (Vec α) :=
  p.x0 :: (p.models.drop 1).map (·.state.zero)

def Problem.defaultControls (p : Problem α) : List (Vec α) :=
  p.running.map fun m => Vec.zeros m.nu

namespace Solver

def layout (s : Solver α) : Layout := .ofProblem s.problem

def create (problem : Problem α) (options : Options α) : Solver α :=
  let layout := Layout.ofProblem problem
  let start : Trajectory α := { xs := problem.defaultStates, us := problem.defaultControls }
  { problem
    options
    knots := problem.fresh
    candidate := { start with feasible := false }
    wasFeasible := false
    iter := 0
    cost := 0
    stop := 0
    d := (0, 0)
    xreg := some 0
    ureg := some 0
    steplength := 1
    dV := 0
    dVexp := 0
    system := .zero layout
    direction :=
      { primal := Vec.zeros layout.nprimal
        dual := Vec.zeros layout.ndx
        primalDual := Vec.zeros layout.size
        dxs := layout.ndxs.map Vec.zeros
        dus := layout.nus.map Vec.zeros
        lambdas := layout.ndxs.map Vec.zeros }
    attempt := { start with cost := 0 }
    search :=
      { Search.ofSchedule options.alphas options.gradThreshold options.acceptRatio with
        verbose := options.verbosity = .lineSearch }
    stats := .initial
    callbacks := [] }

def shows (s : Solver α) (v : Verbosity) : Bool := v.level ≤ s.options.verbosity.level

def increase (s : Solver α) : Solver α :=
  let w := s.xreg.increase s.options
  { s with xreg := w, ureg := w }

def decrease (s : Solver α) : Solver α :=
  let w := s.xreg.decrease s.options
  { s with xreg := w, ureg := w }

end Solver
end Shooting
