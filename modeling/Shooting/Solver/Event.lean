import Shooting.Solver.Basic

/-! # Events of a solve

What a solve reports while it runs. Reports are data; how they are worded, and which of them are
shown, is decided elsewhere.
-/

namespace Shooting

structure TableRow (α : Type) where
  iter : Int
  cost : α
  stop : α
  grad : α
  xreg : Weight α
  ureg : Weight α
  steplength : α

structure Summary (α : Type) where
  iter : Nat
  cost : α
  stop : α
  steplength : α
  searchIterations : Nat
  xreg : Weight α
  dV : α
  dVexp : α

inductive Event (α : Type)
  | started
  | initialCost (cost : α)
  | damped (cause : ErrorCode) (xreg : Weight α)
  | shortestStep (xreg : Weight α)
  | search (event : SearchEvent α)
  | header
  | row (row : TableRow α)
  | recorded (snapshot : Solver α)
  | summary (summary : Summary α)
  | finished (status : SolveStatus) (iterations : Int)

variable {α : Type}

def Event.level : Event α → Verbosity
  | started | initialCost _ | summary _ | finished .. => .outer
  | damped .. | shortestStep _ => .inner
  | search _ => .lineSearch
  | header | row _ | recorded _ => .silent

def TableRow.events (period : Int) (row : TableRow α) : Except Fault (List (Event α)) :=
  if period = 0 then .error .headerPeriod
  else if row.iter % period = 0 then .ok [.header, .row row]
  else .ok [.row row]

namespace Solver

def tableRow (s : Solver α) : TableRow α where
  iter := s.iter
  cost := s.cost
  stop := s.stop
  grad := s.d.1
  xreg := s.xreg
  ureg := s.ureg
  steplength := s.steplength

def summary (s : Solver α) : Summary α where
  iter := s.iter
  cost := s.cost
  stop := s.stop
  steplength := s.steplength
  searchIterations := s.search.iterations
  xreg := s.xreg
  dV := s.dV
  dVexp := s.dVexp

end Solver

def Callback.observe (s : Solver α) : Callback → Except Fault (List (Event α))
  | table period => s.tableRow.events period
  | recorder => .ok [.recorded s]

/-- Calls observers in order up to the first that raises a fault. -/
def Callback.observeAll (s : Solver α) : List Callback → List (Event α) × Option Fault
  | [] => ([], none)
  | c :: cs =>
    match c.observe s with
    | .error f => ([], some f)
    | .ok events =>
      let (rest, fault) := observeAll s cs
      (events ++ rest, fault)

end Shooting
