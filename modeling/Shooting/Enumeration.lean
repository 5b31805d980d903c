import Shooting.Fault

/-! # Enumerations

Types whose members are listed, with a name and a label for each.
-/

namespace Shooting

/-- What a member is looked up by: a text, a number, or anything else, in the form it is shown in. -/
inductive Label
  | text (s : String)
  | number (n : Int)
  | other (shown : String)
deriving DecidableEq

def Label.escaped (quote c : Char) : String :=
  let code := c.toNat
  if c = quote || c = '\\' then String.ofList ['\\', c]
  else if c = '\n' then "\\n"
  else if c = '\r' then "\\r"
  else if c = '\t' then "\\t"
  else if code < 32 || (127 ≤ code && code < 161) || code = 173 then
    "\\x" ++ String.ofList [Nat.digitChar (code / 16), Nat.digitChar (code % 16)]
  else c.toString

/-- A label as it is quoted in messages. A text stands between single quotes, or between double ones
if it holds a single quote and no double one. -/
def Label.quoted : Label → String
  | text s =>
    let quote := if s.contains '\'' && !s.contains '"' then '"' else '\''
    let inside := String.join (s.toList.map (escaped quote))
    String.ofList [quote] ++ inside ++ String.ofList [quote]
  | number n => toString n
  | other shown => shown

class Enumeration (τ : Type) where
  title : String
  members : List τ
  name : τ → String
  label : τ → Label

def Enumeration.ofLabel (τ : Type) [Enumeration τ] (l : Label) : Except Fault τ :=
  match (members : List τ).find? fun m => label m = l with
  | some m => .ok m
  | none => .error (.notListed l.quoted (title τ))

instance : Enumeration ErrorCode where
  title := "ErrorCode"
  members := [.noError, .dimensionMismatch, .badIndex, .solverNotInitialized, .nonPositive,
    .dynamicsNotSet, .invalidAtTerminalKnot, .choleskyFailed, .trialStepFailed]
  name
    | .noError => "NO_ERROR"
    | .dimensionMismatch => "DIMENSION_MISMATCH"
    | .badIndex => "BAD_INDEX"
    | .solverNotInitialized => "SOLVER_NOT_INITIALIZED"
    | .nonPositive => "NON_POSITIVE"
    | .dynamicsNotSet => "DYNAMICS_FUN_NOT_SET"
    | .invalidAtTerminalKnot => "INVALID_OPT_AT_TERMINAL_KNOT_POINT"
    | .choleskyFailed => "CHOLESKY_FAILED"
    | .trialStepFailed => "TRIAL_STEP_FAILED"
  label c := .text c.value

end Shooting
