import Shooting.Report.Number
import Shooting.Report.Negligible
import Shooting.Solver.Event

/-! # The wording of reports

Every event of a solve as lines of text.
-/

namespace Shooting.Report
open Decimal

/-- A weight that is absent is not a number. -/
def weight (w : Weight Float) : Float := w.getD (0.0 / 0.0)

def alphaText (alpha : Float) : String := right 8 (general 3 alpha)

def caughtLine (alpha : Float) (f : Fault) : String :=
  "  trial step at alpha = " ++ alphaText alpha ++ " raised: " ++ f.message

def failureLines (alpha : Float) (failure : TrialFailure) : List String :=
  let reason := "  alpha = " ++ alphaText alpha ++ ": " ++ ErrorCode.describe failure.code
  match failure with
  | .caught f => [caughtLine alpha f, reason]
  | .reported _ => [reason]

def truth (b : Bool) : String := if b then "True" else "False"

def searchLines : SearchEvent Float → List String
  | .started d feasible =>
    ["Starting line search with d = (" ++ computedText d.1 ++ ", " ++ computedText d.2 ++
      "), feasible = " ++ truth feasible]
  | .failed alpha failure => failureLines alpha failure
  | .measured alpha dV dVexp =>
    ["  alpha = " ++ alphaText alpha ++ ": dV = " ++ right 10 (scientific 3 dV) ++
      ", dVexp = " ++ right 10 (scientific 3 dVexp)]
  | .exhausted => ["  No step length satisfied the sufficient-decrease test"]

def headerLine : String :=
  "iter     cost         stop         grad         xreg         ureg      step"

def rowLine (r : TableRow Float) : String :=
  "  ".intercalate
    [right 4 (toString r.iter), scientific 5 r.cost, scientific 5 r.stop, scientific 5 r.grad,
      scientific 5 (weight r.xreg), scientific 5 (weight r.ureg), fixed 4 r.steplength]

def summaryLine (s : Summary Float) : String :=
  "  iter = " ++ right 3 (toString s.iter) ++
  ", cost = " ++ right 10 (scientific 4 s.cost) ++
  ", stop = " ++ right 10 (scientific 3 s.stop) ++
  ", alpha = " ++ alphaText s.steplength ++
  ", ls_iter = " ++ right 2 (toString s.searchIterations) ++
  ", xreg = " ++ right 8 (scientific 2 (weight s.xreg)) ++
  ", dV = " ++ right 10 (scientific 3 s.dV) ++
  ", dVexp = " ++ right 10 (scientific 3 s.dVexp)

def eventLines : Event Float → List String
  | .started => ["STARTING KKT SOLVE...."]
  | .initialCost cost => ["  Initial Cost: " ++ computedText cost]
  | .damped cause xreg =>
    ["  " ++ ErrorCode.describe cause ++ ": increasing regularization to " ++
      scientific 3 (weight xreg)]
  | .shortestStep xreg =>
    ["  Smallest step reached: increasing regularization to " ++ scientific 3 (weight xreg)]
  | .search event => searchLines event
  | .header => [headerLine]
  | .row r => [rowLine r]
  | .recorded _ => []
  | .summary s => [summaryLine s]
  | .finished status iterations =>
    ["KKT SOLVE FINISHED! status = " ++ status.value ++ ", iterations = " ++ toString iterations]

/-- Text as lines of output: it is broken where it breaks itself, and negligible numbers are
marked. -/
def output (lines : List String) : List String :=
  (lines.flatMap fun line => line.splitOn "\n").map markNegligible

def shown (v : Verbosity) (events : List (Event Float)) : List String :=
  output ((events.filter fun e => e.level.level ≤ v.level).flatMap eventLines)

end Shooting.Report
