import Shooting.Solver.Basic

/-! # Setting the candidate trajectory

A trajectory given from outside is taken as a whole or refused as a whole.
-/

namespace Shooting
variable {α : Type}

/-- The entries of the arrays, provided that each has the shape of a vector of the given length. The
first that has not is reported, counting from `t`. -/
def Tensor.vectors (fault : Nat → Shape → Nat → Fault) (t : Nat) :
    List Nat → List (Tensor α) → Except Fault (List (Vec α))
  | n :: ns, a :: as =>
    if a.shape = [n] then (vectors fault (t + 1) ns as).map (a.entries :: ·)
    else .error (fault t a.shape n)
  | _, _ => .ok []

variable [Scalar α]

/-- The trajectory with the given states and controls; an empty list stands for the default ones. -/
def Problem.trajectory (p : Problem α) (xs us : List (Tensor α)) :
    Except Fault (Trajectory α) := do
  let xs := if xs.isEmpty then p.defaultStates.map .ofVec else xs
  let us := if us.isEmpty then p.defaultControls.map .ofVec else us
  if xs.length ≠ p.horizon + 1 then throw (.stateCount (p.horizon + 1) xs.length)
  if us.length ≠ p.horizon then throw (.controlCount p.horizon us.length)
  let xs ← Tensor.vectors .stateShape 0 (p.models.map (·.state.nx)) xs
  let us ← Tensor.vectors .controlShape 0 (p.running.map (·.nu)) us
  return { xs, us }

def Solver.setCandidate (s : Solver α) (xs us : List (Tensor α)) (feasible : Bool) :
    Solver α × Except Fault Unit :=
  match s.problem.trajectory xs us with
  | .error f => (s, .error f)
  | .ok trajectory => ({ s with candidate := { trajectory with feasible } }, .ok ())

end Shooting
