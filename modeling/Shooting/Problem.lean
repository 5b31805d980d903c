import Shooting.Model.Basic

/-! # Shooting problems

A finite-horizon optimal control problem: a fixed initial state, a model for every running knot and
a model without controls for the terminal one.
-/

namespace Shooting

structure Trajectory (α : Type) where
  xs : List (Vec α)
  us : List (Vec α)

def total (dims : List Nat) : Nat := dims.foldr (· + ·) 0

structure Problem (α : Type) where
  x0 : Vec α
  running : List (Model α)
  terminal : Model α

structure Knots (α : Type) where
  running : List (Knot α)
  terminal : Knot α

namespace Problem
variable {α : Type}

def models (p : Problem α) : List (Model α) := p.running ++ [p.terminal]

def horizon (p : Problem α) : Nat := p.running.length

def nx (p : Problem α) : Nat := total (p.models.map (·.state.nx))

def ndx (p : Problem α) : Nat := total (p.models.map (·.state.ndx))

def nu (p : Problem α) : Nat := total (p.running.map (·.nu))

/-- The first knot, counted from `t`, that maps into a state of other dimensions than the next. -/
def brokenLink (t : Nat) : List (Model α) → Option Fault
  | m :: following :: rest =>
    if m.next.ndx ≠ following.state.ndx then
      some (.tangentChain t m.next.ndx following.state.ndx)
    else if m.next.nx ≠ following.state.nx then
      some (.embeddingChain t m.next.nx following.state.nx)
    else brokenLink (t + 1) (following :: rest)
  | _ => none

def build (x0 : Tensor α) (running : List (Model α)) (terminal : Model α) :
    Except Fault (Problem α) :=
  match running with
  | [] => .error .emptyHorizon
  | first :: _ =>
    if terminal.nu ≠ 0 then .error (.terminalControls terminal.nu)
    else match brokenLink 0 (running ++ [terminal]) with
      | some f => .error f
      | none =>
        if x0.shape ≠ [first.state.nx] then .error (.initialShape x0.shape first.state.nx)
        else .ok { x0 := x0.entries, running, terminal }

variable [Scalar α]

def fresh (p : Problem α) : Knots α where
  running := p.running.map (·.fresh)
  terminal := p.terminal.fresh

def fillControls (p : Problem α) (us : List (Option (Vec α))) : List (Vec α) :=
  us.mapIdx fun t u => u.getD (Vec.zeros (p.running[t]?.elim 0 (·.nu)))

/-- Evaluates the running knots in order and adds their costs to a sum. It ends with the shortest of
the lists, or with the first fault. -/
def evaluateRunning : List (Model α) → List (Knot α) → List (Vec α) → List (Vec α) → α →
    List (Knot α) × Except Fault α
  | m :: ms, k :: ks, x :: xs, u :: us, total =>
    match m.evaluate k x u with
    | (k, .error f) => (k :: ks, .error f)
    | (k, .ok cost) =>
      let (ks, result) := evaluateRunning ms ks xs us (total + cost)
      (k :: ks, result)
  | _, ks, _, _, total => (ks, .ok total)

def evaluate (p : Problem α) (ks : Knots α) (xs us : List (Vec α)) : Knots α × Except Fault α :=
  match evaluateRunning p.running ks.running xs.dropLast us 0 with
  | (running, .error f) => ({ ks with running }, .error f)
  | (running, .ok total) =>
    match xs.getLast? with
    | none => ({ ks with running }, .error .emptyTrajectory)
    | some x =>
      match p.terminal.evaluate ks.terminal x [] with
      | (terminal, .error f) => ({ running, terminal }, .error f)
      | (terminal, .ok cost) => ({ running, terminal }, .ok (total + cost))

def linearizeRunning : List (Model α) → List (Knot α) → List (Vec α) → List (Vec α) →
    List (Knot α) × Except Fault Unit
  | m :: ms, k :: ks, x :: xs, u :: us =>
    match m.linearize k x u with
    | (k, .error f) => (k :: ks, .error f)
    | (k, .ok ()) =>
      let (ks, result) := linearizeRunning ms ks xs us
      (k :: ks, result)
  | _, ks, _, _ => (ks, .ok ())

def linearize (p : Problem α) (ks : Knots α) (xs us : List (Vec α)) : Knots α × Except Fault α :=
  match p.evaluate ks xs us with
  | (ks, .error f) => (ks, .error f)
  | (ks, .ok cost) =>
    match linearizeRunning p.running ks.running xs.dropLast us with
    | (running, .error f) => ({ ks with running }, .error f)
    | (running, .ok ()) =>
      match p.terminal.linearize ks.terminal (xs.getLastD []) [] with
      | (terminal, .error f) => ({ running, terminal }, .error f)
      | (terminal, .ok ()) => ({ running, terminal }, .ok cost)

def rolloutFrom : List (Model α) → List (Knot α) → List (Vec α) → Vec α →
    List (Knot α) × Except Fault (List (Vec α))
  | m :: ms, k :: ks, u :: us, x =>
    match m.evaluate k x u with
    | (k, .error f) => (k :: ks, .error f)
    | (k, .ok _) =>
      let (ks, result) := rolloutFrom ms ks us k.xnext
      (k :: ks, result.map (x :: ·))
  | _, ks, _, x => (ks, .ok [x])

def rollout (p : Problem α) (ks : Knots α) (us : List (Vec α)) :
    Knots α × Except Fault (List (Vec α)) :=
  if us.length ≠ p.horizon then (ks, .error (.controlCount p.horizon us.length))
  else
    let (running, result) := rolloutFrom p.running ks.running us p.x0
    ({ ks with running }, result)

/-- For each running knot, how far the state at the next knot is from the one its model leads to. -/
def defects : List (Model α) → List (Knot α) → List (Vec α) → List (Vec α)
  | m :: ms, k :: ks, x :: xs => m.next.diff k.xnext x :: defects ms ks xs
  | _, _, _ => []

/-- How far the first state is from the fixed one, followed by the defects. -/
def gaps (p : Problem α) (ks : Knots α) (xs : List (Vec α)) : List (Vec α) :=
  match p.running, xs with
  | m :: _, x :: rest => m.state.diff p.x0 x :: defects p.running ks.running rest
  | _, _ => []

end Problem
end Shooting
