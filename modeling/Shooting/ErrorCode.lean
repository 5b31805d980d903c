/-! # Error codes

The codes that faults carry and that numerical failures are reported by.
-/

namespace Shooting

inductive ErrorCode
  | noError
  | dimensionMismatch
  | badIndex
  | solverNotInitialized
  | nonPositive
  | dynamicsNotSet
  | invalidAtTerminalKnot
  | choleskyFailed
  | trialStepFailed
deriving DecidableEq

namespace ErrorCode

def value : ErrorCode → String
  | noError => "NoError"
  | dimensionMismatch => "DimensionMismatch"
  | badIndex => "BadIndex"
  | solverNotInitialized => "SolverNotInitialized"
  | nonPositive => "NonPositive"
  | dynamicsNotSet => "DynamicsFunNotSet"
  | invalidAtTerminalKnot => "InvalidOptAtTerminalKnotPoint"
  | choleskyFailed => "CholeskyFailed"
  | trialStepFailed => "TrialStepFailed"

/-- What a code means, in words; absent stands for a code that is not in the list. -/
def describe : Option ErrorCode → String
  | some noError => "no error"
  | some dimensionMismatch => "dimension mismatch"
  | some badIndex => "bad index"
  | some solverNotInitialized => "solver not initialized"
  | some nonPositive => "expected a positive value"
  | some dynamicsNotSet => "dynamics function not set"
  | some invalidAtTerminalKnot => "invalid operation at terminal knot point"
  | some choleskyFailed => "Cholesky factorization failed. System not positive definite"
  | some trialStepFailed => "Trial step left the valid domain of the model"
  | none => "unknown error"

end ErrorCode
end Shooting
