import Shooting.Proofs.FullStep
import Shooting.Proofs.Relinearization

/-! # The last linearization

A linearization leaves derivatives in the records of the knots, and the system that is assembled
from them. Both stay together, whatever is tried along the direction that the system is solved for
and wherever the candidate is moved, until the problem is linearized again: evaluations touch no
derivative.
-/

namespace Shooting

variable {α : Type} [Scalar α]

namespace Problem

omit [Scalar α] in
theorem slopes_rolloutFrom (ms : List (Model α)) (ks : List (Knot α)) (us : List (Vec α))
    (x : Vec α) : (rolloutFrom ms ks us x).1.map (·.slopes) = ks.map (·.slopes) := by
  induction ms generalizing ks us x with
  | nil => rfl
  | cons m ms ih =>
    rcases ks with _ | ⟨k, ks⟩ <;> rcases us with _ | ⟨u, us⟩ <;> try rfl
    unfold rolloutFrom Model.evaluate
    cases m.eval x u with
    | error f => rfl
    | ok r => exact congrArg (k.slopes :: ·) (ih ks us _)

omit [Scalar α] in
theorem sameSlopes_rollout (p : Problem α) (ks : Knots α) (us : List (Vec α)) :
    ks.SameSlopes (p.rollout ks us).1 := by
  unfold rollout
  split
  · exact .refl ks
  · exact ⟨slopes_rolloutFrom _ _ _ _, rfl⟩

end Problem

namespace Solver

/-- Another candidate, other weights and other records may come, but no new direction, and no new
derivatives to compute one from. -/
structure KeepsDirection (s s' : Solver α) : Prop where
  problem : s'.problem = s.problem
  system : s'.system = s.system
  direction : s'.direction = s.direction
  slopes : s.knots.SameSlopes s'.knots

variable {s s' s'' : Solver α}

omit [Scalar α] in
theorem KeepsDirection.refl (s : Solver α) : s.KeepsDirection s := ⟨rfl, rfl, rfl, .refl _⟩

omit [Scalar α] in
theorem KeepsDirection.trans (h : s.KeepsDirection s') (h' : s'.KeepsDirection s'') :
    s.KeepsDirection s'' where
  problem := h'.problem.trans h.problem
  system := h'.system.trans h.system
  direction := h'.direction.trans h.direction
  slopes := h.slopes.trans h'.slopes

theorem keepsDirection_setCandidate (s : Solver α) (xs us : List (Tensor α)) (feasible : Bool) :
    s.KeepsDirection (s.setCandidate xs us feasible).1 := by
  unfold setCandidate
  split <;> exact ⟨rfl, rfl, rfl, .refl _⟩

theorem keepsDirection_tryStep (s : Solver α) (a : α) : s.KeepsDirection (s.tryStep a).1 := by
  have hslopes := s.problem.sameSlopes_evaluate s.knots (s.trialAt a).xs (s.trialAt a).us
  unfold tryStep
  dsimp only
  split <;> rename_i he <;> rw [he] at hslopes <;> exact ⟨rfl, rfl, rfl, hslopes⟩

def searchAlong (s : Solver α) (d : α × α) (feasible : Bool) : Solver α :=
  let run := s.search.run tryStep d feasible s
  { run.state with search := run.search }

theorem keepsDirection_searchAlong (s : Solver α) (d : α × α) (feasible : Bool) :
    s.KeepsDirection (s.searchAlong d feasible) := by
  have hstate : s.KeepsDirection (s.search.run tryStep d feasible s).state :=
    Search.walk_induction (P := s.KeepsDirection)
      (fun w a h => h.trans (w.keepsDirection_tryStep a)) _ (.refl s) _
  exact ⟨hstate.problem, hstate.system, hstate.direction, hstate.slopes⟩

theorem keepsDirection_promote (s : Solver α) : s.KeepsDirection s.promote.1 := by
  have h := keepsDirection_setCandidate { s with wasFeasible := s.candidate.feasible }
    (s.attempt.xs.map .ofVec) (s.attempt.us.map .ofVec) true
  unfold promote
  split <;> rename_i hc <;> rw [hc] at h <;> exact ⟨h.problem, h.system, h.direction, h.slopes⟩

/-- The system and the derivatives in the records are those of the problem linearized along a
trajectory, under weights of one time or another. -/
def LinearizedAlong (s : Solver α) (xs us : List (Vec α)) : Prop :=
  ∃ ks, s.problem.LinearizedAt xs us ks ∧ ks.SameSlopes s.knots ∧
    ∃ xr ur, s.system =
      (System.assemble s.layout ks (s.problem.gaps ks xs)).damp s.layout.ndx xr ur

variable {xs us : List (Vec α)}

theorem LinearizedAlong.of_eq (h : s.LinearizedAlong xs us) (hp : s'.problem = s.problem)
    (hA : s'.system = s.system) (hk : s.knots.SameSlopes s'.knots) : s'.LinearizedAlong xs us := by
  obtain ⟨ks, hl, hslopes, hsystem⟩ := h
  unfold LinearizedAlong layout
  rw [hp, hA]
  exact ⟨ks, hl, hslopes.trans hk, hsystem⟩

theorem LinearizedAlong.keeps (h : s.LinearizedAlong xs us) (hs : s.KeepsDirection s') :
    s'.LinearizedAlong xs us := h.of_eq hs.problem hs.system hs.slopes

theorem LinearizedAlong.redamp (h : s.LinearizedAlong xs us) : s.redamp.LinearizedAlong xs us := by
  obtain ⟨ks, hl, hslopes, xr, ur, hs⟩ := h
  refine ⟨ks, hl, hslopes, s.xreg, s.ureg, ?_⟩
  rw [Solver.redamp, hs]
  exact System.damp_damp _ _ _ _ _ _

theorem LinearizedAlong.factorize (h : s.LinearizedAlong xs us) :
    s.factorize.1.LinearizedAlong xs us := by
  rw [factorize_fst]
  exact h.of_eq rfl rfl (.refl _)

theorem LinearizedAlong.assembled (h : s.LinearizedAlong xs us) :
    s.problem.Assembled s.system := by
  obtain ⟨ks, hl, -, xr, ur, hs⟩ := h
  exact ⟨_, _, ks, xr, ur, hl, hs⟩

theorem Fits.linearizedAlong {cost : α} (hf : s.Fits) (h : s.linearize = (s', .ok cost)) :
    s'.LinearizedAlong s.candidate.xs s.candidate.us := by
  obtain ⟨knots, hl, rfl⟩ := linearize_eq_ok h
  exact ⟨knots, (hf.linearize_ok hl).1, .refl _, _, _, rfl⟩

/-- A direction is solved for in the system of the last linearization, which is that of the
candidate if the problem has just been linearized. -/
theorem Fits.factorize_of_computeDirection (hf : s.Fits) {relinearize : Bool} {code : ErrorCode}
    (hs : relinearize = false → s.LinearizedAlong xs us)
    (hc : relinearize = true → s.candidate.xs = xs ∧ s.candidate.us = us)
    (h : s.computeDirection relinearize = (s', .ok code)) :
    ∃ s₁ : Solver α, s₁.LinearizedAlong xs us ∧ s₁.problem = s.problem ∧
      s₁.candidate = s.candidate ∧ s₁.factorize = (s', code) := by
  obtain ⟨rfl, hfactor⟩ | ⟨rfl, s₁, cost, hl, hfactor⟩ := computeDirection_eq_ok h
  · exact ⟨s.redamp, (hs rfl).redamp, rfl, rfl, hfactor⟩
  · obtain ⟨rfl, rfl⟩ := hc rfl
    have halong := hf.linearizedAlong hl
    obtain ⟨knots, -, rfl⟩ := linearize_eq_ok hl
    exact ⟨_, halong, rfl, rfl, hfactor⟩

end Solver

end Shooting
