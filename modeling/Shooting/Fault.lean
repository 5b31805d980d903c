import Shooting.ErrorCode
import Shooting.Tensor

/-! # Faults

The ways in which building a problem or evaluating a model can go wrong. A fault is its cause; the
family it belongs to, its error code and its wording are read off the cause here and nowhere else.
-/

namespace Shooting

/-- The families by which faults can be told apart and caught. The first four belong to the library
and carry an error code. -/
inductive Fault.Family
  | general
  | dimension
  | initialization
  | domain
  | value
  | floatingPoint
  | zeroDivision
  | overflow
  | index
deriving DecidableEq

namespace Fault.Family

def code : Family → Option ErrorCode
  | general => some .noError
  | dimension => some .dimensionMismatch
  | initialization => some .solverNotInitialized
  | domain => some .trialStepFailed
  | _ => none

/-- Whether a trial step that raises such a fault just counts as failed. -/
def endsTrial : Family → Bool
  | domain | value | floatingPoint => true
  | _ => false

end Fault.Family

inductive Fault.Setting
  | regFactor
  | regMin
  | regMax
  | gradThreshold
  | stepThreshold
  | acceptRatio
  | stopThreshold
  | noStepLength
  | stepLengthRange
  | stepLengthOrder
deriving DecidableEq

def Fault.Setting.message : Fault.Setting → String
  | regFactor => "regfactor must be greater than 1"
  | regMin => "regmin must be non-negative"
  | regMax => "regmax must be greater than regmin"
  | gradThreshold => "th_grad must be positive"
  | stepThreshold => "th_step must be positive"
  | acceptRatio => "th_acceptstep must lie in (0, 1)"
  | stopThreshold => "th_stop must be positive"
  | noStepLength => "alphas must contain at least one step length"
  | stepLengthRange => "step lengths must lie in (0, 1]"
  | stepLengthOrder => "step lengths must be strictly decreasing"

inductive Fault
  /-- Raised by a model or on request, with its family, its code and its text. -/
  | raised (family : Fault.Family) (code : Option ErrorCode) (text : String)
  | stateDimensions (nx ndx : Int)
  | euclideanCount (nv : Int)
  | controlDimension (nu : Int)
  | dynamicsMissing
  | dimensionChange
  | emptyHorizon
  | terminalControls (nu : Nat)
  | tangentChain (knot ndx following : Nat)
  | embeddingChain (knot nx following : Nat)
  | initialShape (shape : Shape) (nx : Nat)
  | stateCount (expected given : Nat)
  | controlCount (expected given : Nat)
  | stateShape (knot : Nat) (shape : Shape) (nx : Nat)
  | controlShape (knot : Nat) (shape : Shape) (nu : Nat)
  | emptyTrajectory
  | setting (which : Fault.Setting)
  | noSteps
  | stepUnderflow
  | headerPeriod
  | notListed (given title : String)

namespace Fault

def ofCode (code : ErrorCode) (text : String) : Fault :=
  .raised (if code = .dimensionMismatch then .dimension else .general) (some code) text

def family : Fault → Family
  | raised f _ _ => f
  | controlDimension _ | dynamicsMissing => .general
  | emptyHorizon => .initialization
  | stateDimensions .. | euclideanCount _ | dimensionChange | terminalControls _
  | tangentChain .. | embeddingChain .. | initialShape .. | stateCount .. | controlCount ..
  | stateShape .. | controlShape .. => .dimension
  | emptyTrajectory => .index
  | setting _ | noSteps | notListed .. => .value
  | stepUnderflow => .overflow
  | headerPeriod => .zeroDivision

def code : Fault → Option ErrorCode
  | raised _ c _ => c
  | controlDimension _ => some .nonPositive
  | dynamicsMissing => some .dynamicsNotSet
  | emptyHorizon => some .badIndex
  | terminalControls _ => some .invalidAtTerminalKnot
  | f => f.family.code

def text : Fault → String
  | raised _ _ t => t
  | stateDimensions nx ndx => s!"State dimensions must be positive, got nx={nx}, ndx={ndx}"
  | euclideanCount nv => s!"Number of Euclidean coordinates must be non-negative, got {nv}"
  | controlDimension nu => s!"Control dimension must be non-negative, got {nu}"
  | dynamicsMissing => "A model with controls needs a dynamics function"
  | dimensionChange => "A model without dynamics cannot change the state dimension"
  | emptyHorizon => "A shooting problem needs at least one running model"
  | terminalControls nu => s!"Terminal model must not have controls, got nu={nu}"
  | tangentChain t ndx following =>
    s!"Knot {t} maps into a state with ndx={ndx} but knot {t + 1} has ndx={following}"
  | embeddingChain t nx following =>
    s!"Knot {t} maps into a state with nx={nx} but knot {t + 1} has nx={following}"
  | initialShape shape nx => s!"Initial state has shape {shape.text}, expected ({nx},)"
  | stateCount expected given => s!"Expected {expected} states, got {given}"
  | controlCount expected given => s!"Expected {expected} controls, got {given}"
  | stateShape t shape nx => s!"State {t} has shape {shape.text}, expected ({nx},)"
  | controlShape t shape nu => s!"Control {t} has shape {shape.text}, expected ({nu},)"
  | emptyTrajectory => "index out of range"
  | setting which => which.message
  | noSteps => "num_steps must be positive"
  | stepUnderflow => "(34, 'Numerical result out of range')"
  | headerPeriod => "integer modulo by zero"
  | notListed given title => s!"{given} is not a valid {title}"

def message (f : Fault) : String :=
  match f.code with
  | some c => "KKT Error " ++ c.value ++ ": " ++ f.text
  | none => f.text

end Fault
end Shooting
