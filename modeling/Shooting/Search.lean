import Shooting.Options
import Shooting.Linear.Vec

/-! # Backtracking line search

Step lengths are tried in the order of a schedule until one passes the test of sufficient decrease
against the quadratic model `a d₀ + a² d₁ / 2`.
-/

namespace Shooting

inductive SearchCode
  | noError
  | gradientTooSmall
  | infeasibleStart
  | sufficientDecrease
  | noStepAccepted
deriving DecidableEq

def SearchCode.value : SearchCode → String
  | noError => "LS_NOERROR"
  | gradientTooSmall => "LS_GRADIENT_TOO_SMALL"
  | infeasibleStart => "LS_INFEASIBLE_START"
  | sufficientDecrease => "LS_SUFFICIENT_DECREASE"
  | noStepAccepted => "LS_NO_STEP_ACCEPTED"

def SearchCode.accepted : SearchCode → Bool
  | gradientTooSmall | infeasibleStart | sufficientDecrease => true
  | noError | noStepAccepted => false

instance : Enumeration SearchCode where
  title := "LineSearchReturnCode"
  members := [.noError, .gradientTooSmall, .infeasibleStart, .sufficientDecrease, .noStepAccepted]
  name
    | .noError => "NO_ERROR"
    | .gradientTooSmall => "GRADIENT_TOO_SMALL"
    | .infeasibleStart => "INFEASIBLE_START"
    | .sufficientDecrease => "SUFFICIENT_DECREASE"
    | .noStepAccepted => "NO_STEP_ACCEPTED"
  label c := .text c.value

/-- Why a trial step has no decrease: a code that was reported, or a fault that was caught. -/
inductive TrialFailure
  | reported (code : ErrorCode)
  | caught (fault : Fault)

def TrialFailure.code : TrialFailure → ErrorCode
  | reported c => c
  | caught _ => .trialStepFailed

abbrev Trial (α : Type) := Except TrialFailure α

inductive SearchEvent (α : Type)
  | started (d : α × α) (feasible : Bool)
  | failed (alpha : α) (failure : TrialFailure)
  | measured (alpha dV dVexp : α)
  | exhausted

structure Search (α : Type) where
  alphas : List α
  gradThreshold : α
  acceptRatio : α
  steplength : α
  dV : α
  dVexp : α
  iterations : Nat
  failures : Nat
  code : SearchCode
  verbose : Bool

/-- The results of a run: the state that the trials were made in, the search, its reports, and the
step length unless a trial raised a fault. -/
structure SearchRun (σ α : Type) where
  state : σ
  search : Search α
  events : List (SearchEvent α)
  result : Except Fault α

namespace Search
variable {α σ : Type} [Scalar α]

def ofSchedule (alphas : List α) (gradThreshold acceptRatio : α) : Search α where
  alphas
  gradThreshold
  acceptRatio
  steplength := 0
  dV := 0
  dVexp := 0
  iterations := 0
  failures := 0
  code := .noError
  verbose := false

def accepted (s : Search α) : Bool := s.code.accepted

def expectedDecrease (d : α × α) (alpha : α) : α :=
  alpha * (d.1 + Scalar.half * alpha * d.2)

def verdict (s : Search α) (d : α × α) (feasible : Bool) : Option SearchCode :=
  if Scalar.lt d.1 s.gradThreshold then some .gradientTooSmall
  else if !feasible then some .infeasibleStart
  else if Scalar.lt (s.acceptRatio * s.dVexp) s.dV then some .sufficientDecrease
  else none

def walk (trial : σ → α → σ × Except Fault (Trial α)) (d : α × α) (feasible : Bool) :
    List α → σ → Search α → SearchRun σ α
  | [], w, s => ⟨w, { s with code := .noStepAccepted }, [.exhausted], .ok s.steplength⟩
  | alpha :: rest, w, s =>
    let s := { s with steplength := alpha, iterations := s.iterations + 1 }
    match trial w alpha with
    | (w, .error f) => ⟨w, s, [], .error f⟩
    | (w, .ok (.error failure)) =>
      let run := walk trial d feasible rest w { s with failures := s.failures + 1 }
      { run with events := .failed alpha failure :: run.events }
    | (w, .ok (.ok dV)) =>
      let s := { s with dV, dVexp := expectedDecrease d alpha }
      let event := SearchEvent.measured alpha s.dV s.dVexp
      match s.verdict d feasible with
      | some code => ⟨w, { s with code }, [event], .ok alpha⟩
      | none =>
        let run := walk trial d feasible rest w s
        { run with events := event :: run.events }

def run (s : Search α) (trial : σ → α → σ × Except Fault (Trial α)) (d : α × α) (feasible : Bool)
    (w : σ) : SearchRun σ α :=
  let cleared :=
    { s with iterations := 0, failures := 0, dV := 0, dVexp := 0, code := .noError }
  let run := walk trial d feasible s.alphas w cleared
  { run with events := .started d feasible :: run.events }

end Search
end Shooting
