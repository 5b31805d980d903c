import Shooting.Solver.Direction
import Shooting.Solver.Trial
import Shooting.Solver.Event

/-! # The solve loop

Each iteration computes a direction, raising the damping until the system can be factored, searches
for a step along it, adapts the damping to the step, and tests for convergence.
-/

namespace Shooting

/-- How a solve ends: with an answer to whether it converged, with a fault, or because it was not
given enough attempts to factor a system. -/
inductive Ending
  | returned (converged : Bool)
  | raised (fault : Fault)
  | outOfFuel

structure Run (α : Type) where
  solver : Solver α
  events : List (Event α)

inductive Flow (α : Type)
  | next (run : Run α)
  | done (run : Run α) (ending : Ending)

def Flow.andThen {α : Type} (flow : Flow α) (phase : Run α → Flow α) : Flow α :=
  match flow with
  | next run => phase run
  | done run ending => done run ending

namespace Run
variable {α : Type} [Scalar α]

def report (r : Run α) (events : List (Event α)) : Run α :=
  { r with events := r.events ++ events }

def finish (r : Run α) (status : SolveStatus) : Run α × Ending :=
  let s := r.solver
  let stats :=
    { s.stats with
      status
      cost := s.cost
      stop := s.stop
      xreg := s.xreg
      steplength := s.steplength }
  ({ r with solver := { s with stats } }.report [.finished status s.stats.iterations],
    .returned (status = .success))

def finished (r : Run α) (status : SolveStatus) : Flow α :=
  let (run, ending) := r.finish status
  .done run ending

/-- Computes a direction, with at most `fuel` attempts. After each failure the damping is raised and
the last linearization is used again; a failure at the largest damping ends the run. -/
def factorize : Nat → Bool → Run α → Flow α
  | 0, _, r => .done r .outOfFuel
  | fuel + 1, relinearize, r =>
    match r.solver.computeDirection relinearize with
    | (solver, .error f) => .done { r with solver } (.raised f)
    | (solver, .ok .noError) => .next { r with solver }
    | (solver, .ok code) =>
      if solver.xreg.saturated solver.options then { r with solver }.finished .maxRegularization
      else
        let solver := solver.increase
        factorize fuel false ({ r with solver }.report [.damped code solver.xreg])

def step (r : Run α) : Flow α :=
  let run := r.solver.predict.searchStep
  let r := { r with solver := run.state }.report (run.events.map .search)
  match run.result with
  | .error f => .done r (.raised f)
  | .ok steplength =>
    let search := r.solver.search
    let solver := { r.solver with steplength, dV := search.dV, dVexp := search.dVexp }
    if search.accepted then
      match solver.promote with
      | (solver, .error f) => .done { r with solver } (.raised f)
      | (solver, .ok ()) => .next { r with solver }
    else .next { r with solver }

def adapt (r : Run α) : Flow α :=
  let s := r.solver
  let s := if Scalar.lt s.options.stepThreshold s.steplength then s.decrease else s
  if s.options.alphas.getLast?.any (Scalar.eq s.steplength) then
    let s := s.increase
    let r := { r with solver := s }.report [.shortestStep s.xreg]
    if s.xreg.saturated s.options then r.finished .maxRegularization else .next r
  else .next { r with solver := s }

def assess (r : Run α) : Flow α :=
  let s := r.solver.measureStop
  let (events, fault) := Callback.observeAll s s.callbacks
  let r := { r with solver := s }.report events
  match fault with
  | some f => .done r (.raised f)
  | none =>
    let r := r.report [.summary s.summary]
    if s.wasFeasible && Scalar.lt s.stop s.options.stopThreshold then r.finished .success
    else .next r

def iterate (fuel iter : Nat) (r : Run α) : Flow α :=
  let s := r.solver
  let stats := { s.stats with iterations := iter + 1 }
  (factorize fuel true { r with solver := { s with iter, stats } }).andThen step
    |>.andThen adapt |>.andThen assess

def loop (fuel : Nat) : Nat → Nat → Run α → Run α × Ending
  | 0, _, r => r.finish .maxIterations
  | left + 1, iter, r =>
    match r.iterate fuel iter with
    | .next r => loop fuel left (iter + 1) r
    | .done r ending => (r, ending)

/-- Reports the start of a run. The initial cost is evaluated only if it is going to be shown. -/
def start (r : Run α) : Run α × Option Fault :=
  let r := r.report [.started]
  let s := r.solver
  if s.shows .outer then
    match s.problem.evaluate s.knots s.candidate.xs s.candidate.us with
    | (knots, .error f) => ({ r with solver := { s with knots } }, some f)
    | (knots, .ok cost) => ({ r with solver := { s with knots } }.report [.initialCost cost], none)
  else (r, none)

end Run

/-- Solves the problem from the given trajectory, in at most `maxiter` iterations with at most `fuel`
attempts to factor a system in each. The damping starts at the given weight, or at zero. -/
def Solver.solve {α : Type} [Scalar α] (s : Solver α) (fuel : Nat) (xs us : List (Tensor α))
    (maxiter : Int) (feasible : Bool) (reginit : Weight α) : Run α × Ending :=
  match { s with stats := s.stats.reset }.setCandidate xs us feasible with
  | (s, .error f) => ({ solver := s, events := [] }, .raised f)
  | (s, .ok ()) =>
    let w : Weight α := some (reginit.getD 0)
    let s := { s with wasFeasible := false, xreg := w, ureg := w }
    match Run.start { solver := s, events := [] } with
    | (r, some f) => (r, .raised f)
    | (r, none) => r.loop fuel maxiter.toNat 0

end Shooting
