import Shooting.Damping

/-! # Statistics of a solve -/

namespace Shooting

inductive SolveStatus
  | success
  | unsolved
  | maxIterations
  | maxRegularization
deriving DecidableEq

def SolveStatus.value : SolveStatus → String
  | success => "Success"
  | unsolved => "Unsolved"
  | maxIterations => "MaxIterations"
  | maxRegularization => "MaxRegularization"

instance : Enumeration SolveStatus where
  title := "SolveStatus"
  members := [.success, .unsolved, .maxIterations, .maxRegularization]
  name
    | .success => "SUCCESS"
    | .unsolved => "UNSOLVED"
    | .maxIterations => "MAX_ITERATIONS"
    | .maxRegularization => "MAX_REGULARIZATION"
  label s := .text s.value

structure Stats (α : Type) where
  status : SolveStatus
  /-- Milliseconds, filled in by whoever measures the solve. -/
  solveTime : α
  iterations : Int
  cost : α
  stop : α
  xreg : Weight α
  steplength : α

namespace Stats
variable {α : Type} [Scalar α]

def initial : Stats α where
  status := .unsolved
  solveTime := 0
  iterations := 0
  cost := 0
  stop := 0
  xreg := some 0
  steplength := 0

def reset (_ : Stats α) : Stats α := initial

def converged (s : Stats α) : Bool := s.status = .success

end Stats
end Shooting
