import Mathlib.Data.Nat.Notation
import Shooting.Solver.Solve

/-! # The phases of an iteration

Each phase of the solve loop, split where a proof about it has to go on from what has been computed.
-/

namespace Shooting

variable {α : Type} [Scalar α]

/-- The rest of an attempt to factor, once a direction has been computed or not. -/
def Run.resume (fuel : ℕ) (code : ErrorCode) (r : Run α) : Flow α :=
  if code = .noError then .next r
  else if r.solver.xreg.saturated r.solver.options then r.finished .maxRegularization
  else factorize fuel false
    (({ r with solver := r.solver.increase } : Run α).report [.damped code r.solver.increase.xreg])

theorem Run.factorize_succ (fuel : ℕ) (relinearize : Bool) (r : Run α) :
    factorize (fuel + 1) relinearize r =
      match r.solver.computeDirection relinearize with
      | (solver, .error f) => .done { r with solver } (.raised f)
      | (solver, .ok code) => resume fuel code { r with solver } := by
  rw [factorize]
  rcases r.solver.computeDirection relinearize with ⟨solver, f | code⟩
  · rfl
  · cases code <;> rfl

def Run.searched (r : Run α) : Run α :=
  ({ r with solver := r.solver.predict.searchStep.state } : Run α).report
    (r.solver.predict.searchStep.events.map .search)

def Run.advance (r : Run α) (steplength : α) : Flow α :=
  let search := r.solver.search
  let solver := { r.solver with steplength, dV := search.dV, dVexp := search.dVexp }
  if search.accepted then
    match solver.promote with
    | (solver, .error f) => .done { r with solver } (.raised f)
    | (solver, .ok ()) => .next { r with solver }
  else .next { r with solver }

theorem Run.step_eq (r : Run α) :
    r.step = match r.solver.predict.searchStep.result with
      | .error f => .done r.searched (.raised f)
      | .ok steplength => r.searched.advance steplength := rfl

def Run.unlessSaturated (r : Run α) : Flow α :=
  if r.solver.xreg.saturated r.solver.options then r.finished .maxRegularization else .next r

/-- The second half of adapting the damping: it is raised after the shortest step. -/
def Run.escalate (r : Run α) : Flow α :=
  if r.solver.options.alphas.getLast?.any (Scalar.eq r.solver.steplength) then
    (({ r with solver := r.solver.increase } : Run α).report
      [.shortestStep r.solver.increase.xreg]).unlessSaturated
  else .next r

theorem Run.adapt_eq (r : Run α) :
    r.adapt = escalate { r with
      solver := if Scalar.lt r.solver.options.stepThreshold r.solver.steplength then r.solver.decrease
        else r.solver } := rfl

def Run.conclude (r : Run α) : Option Fault → Flow α
  | some f => .done r (.raised f)
  | none =>
    if r.solver.wasFeasible && Scalar.lt r.solver.stop r.solver.options.stopThreshold then
      (r.report [.summary r.solver.summary]).finished .success
    else .next (r.report [.summary r.solver.summary])

theorem Run.assess_eq (r : Run α) :
    r.assess =
      let s := r.solver.measureStop
      conclude (({ r with solver := s } : Run α).report (Callback.observeAll s s.callbacks).1)
        (Callback.observeAll s s.callbacks).2 := by
  unfold Run.assess conclude
  dsimp only
  cases (Callback.observeAll r.solver.measureStop r.solver.measureStop.callbacks).2 <;> rfl

def Solver.evaluated (s : Solver α) : Solver α :=
  { s with knots := (s.problem.evaluate s.knots s.candidate.xs s.candidate.us).1 }

theorem Run.start_eq (r : Run α) :
    r.start =
      if r.solver.shows .outer then
        match (r.solver.problem.evaluate r.solver.knots r.solver.candidate.xs
          r.solver.candidate.us).2 with
        | .error f => (({ r with solver := r.solver.evaluated } : Run α).report [.started], some f)
        | .ok cost =>
          ((({ r with solver := r.solver.evaluated } : Run α).report [.started]).report
            [.initialCost cost], none)
      else (r.report [.started], none) := by
  unfold Run.start Solver.evaluated
  dsimp only [report]
  rcases r.solver.problem.evaluate r.solver.knots r.solver.candidate.xs r.solver.candidate.us with
    ⟨ks, f | c⟩ <;> rfl

namespace Run

variable {r r' : Run α} {fuel iter : ℕ}

theorem loop_next (h : r.iterate fuel iter = .next r') (left : ℕ) :
    r.loop fuel (left + 1) iter = r'.loop fuel left (iter + 1) := by
  rw [loop, h]

theorem loop_finished {status : SolveStatus} (h : r.iterate fuel iter = r'.finished status)
    (left : ℕ) : r.loop fuel (left + 1) iter = r'.finish status := by
  rw [loop, h]
  rfl

end Run

end Shooting
