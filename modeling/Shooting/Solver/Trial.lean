import Shooting.Solver.Candidate

/-! # Trial steps

Evaluating the trajectory that a step along the direction leads to. Only the attempt and the costs
and following states in the records of the knots are touched.
-/

namespace Shooting
variable {α : Type} [Scalar α]

def Problem.moveStates (p : Problem α) (alpha : α) (xs dxs : List (Vec α)) : List (Vec α) :=
  (p.models.zip (xs.zip dxs)).map fun (m, x, dx) => m.state.integrate x (Vec.scale alpha dx)

def moveControls (alpha : α) (us dus : List (Vec α)) : List (Vec α) :=
  List.zipWith (fun u du => Vec.add u (Vec.scale alpha du)) us dus

namespace Solver

def trialAt (s : Solver α) (alpha : α) : Trajectory α where
  xs := s.problem.moveStates alpha s.candidate.xs s.direction.dxs
  us := moveControls alpha s.candidate.us s.direction.dus

/-- Evaluates the step of a length. A fault that a trial may raise, or a cost that is not finite,
makes the step a failure; any other fault escapes. -/
def tryStep (s : Solver α) (alpha : α) : Solver α × Except Fault (Trial α) :=
  let trial := s.trialAt alpha
  match s.problem.evaluate s.knots trial.xs trial.us with
  | (knots, .error f) =>
    ({ s with knots, attempt := { trial with cost := s.attempt.cost } },
      if f.family.endsTrial then .ok (.error (.caught f)) else .error f)
  | (knots, .ok cost) =>
    ({ s with knots, attempt := { trial with cost } },
      .ok (if Scalar.isFinite cost then .ok (s.cost - cost)
        else .error (.reported .trialStepFailed)))

def searchStep (s : Solver α) : SearchRun (Solver α) α :=
  let run := s.search.run tryStep s.d s.candidate.feasible s
  { run with state := { run.state with search := run.search } }

/-- Moves to the attempt, which is held to be feasible from then on. -/
def promote (s : Solver α) : Solver α × Except Fault Unit :=
  match { s with wasFeasible := s.candidate.feasible }.setCandidate
    (s.attempt.xs.map .ofVec) (s.attempt.us.map .ofVec) true with
  | (s, .error f) => (s, .error f)
  | (s, .ok ()) => ({ s with cost := s.attempt.cost }, .ok ())

end Solver
end Shooting
