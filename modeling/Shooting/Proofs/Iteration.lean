import Shooting.Proofs.Acceptance
import Shooting.Proofs.Phases
import Shooting.Proofs.Trajectory

/-! # Iterations that take the first step

When a direction is found at once and the first trial passes the test, an iteration leaves nothing
to chance: the solver after each of its phases is determined by the one before it.
-/

namespace Shooting

variable {α : Type} [Scalar α] {a cost : α} {rest : List α} {code : SearchCode}

namespace Solver

variable {s : Solver α}

def tried (s : Solver α) (a cost : α) : Solver α :=
  { s with
    knots := (s.problem.evaluate s.knots (s.trialAt a).xs (s.trialAt a).us).1
    attempt := { s.trialAt a with cost } }

def settled (s : Solver α) (a cost : α) (code : SearchCode) : Search α :=
  { s.search with
    steplength := a
    iterations := 1
    failures := 0
    dV := s.cost - cost
    dVexp := Search.expectedDecrease s.d a
    code }

def moved (s : Solver α) (a cost : α) (code : SearchCode) : Solver α :=
  { s.tried a cost with
    search := s.settled a cost code
    steplength := a
    dV := s.cost - cost
    dVexp := Search.expectedDecrease s.d a
    wasFeasible := s.candidate.feasible
    candidate := { s.trialAt a with feasible := true }
    cost }

def adapted (s : Solver α) : Solver α :=
  if Scalar.lt s.options.stepThreshold s.steplength then s.decrease else s

theorem adapted_weights (s : Solver α) : ∃ xreg ureg, s.adapted = { s with xreg, ureg } := by
  unfold adapted
  split <;> exact ⟨_, _, rfl⟩

def numbered (s : Solver α) (iter : ℕ) : Solver α :=
  { s with iter, stats := { s.stats with iterations := iter + 1 } }

theorem tryStep_ok
    (he : (s.problem.evaluate s.knots (s.trialAt a).xs (s.trialAt a).us).2 = .ok cost)
    (hfin : Scalar.isFinite cost = true) :
    s.tryStep a = (s.tried a cost, .ok (.ok (s.cost - cost))) := by
  have hpair : s.problem.evaluate s.knots (s.trialAt a).xs (s.trialAt a).us =
      ((s.problem.evaluate s.knots (s.trialAt a).xs (s.trialAt a).us).1, .ok cost) :=
    Prod.ext rfl he
  unfold tryStep
  dsimp only
  rw [hpair]
  dsimp only
  rw [if_pos hfin]
  rfl

theorem searchStep_first (ha : s.search.alphas = a :: rest)
    (he : (s.problem.evaluate s.knots (s.trialAt a).xs (s.trialAt a).us).2 = .ok cost)
    (hfin : Scalar.isFinite cost = true)
    (hv : Search.verdict
      { s.search with dV := s.cost - cost, dVexp := Search.expectedDecrease s.d a }
      s.d s.candidate.feasible = some code) :
    s.searchStep.result = .ok a ∧
      s.searchStep.state = { s.tried a cost with search := s.settled a cost code } := by
  obtain ⟨hstate, hresult, hsearch⟩ := Search.run_first (w := s) ha (tryStep_ok he hfin) hv
  constructor
  · exact hresult
  · unfold searchStep
    dsimp only
    rw [hstate, hsearch]
    rfl

theorem promote_shaped (hs : s.problem.Shaped s.attempt.xs s.attempt.us) :
    s.promote =
      ({ s with
          wasFeasible := s.candidate.feasible
          candidate := { s.attempt.toTrajectory with feasible := true }
          cost := s.attempt.cost }, .ok ()) := by
  unfold promote setCandidate
  dsimp only
  rw [Problem.trajectory_ofVec hs]

end Solver

namespace Run

variable {r : Run α}

theorem step_first {s : Solver α} (hr : r.solver.predict = s) (ha : s.search.alphas = a :: rest)
    (he : (s.problem.evaluate s.knots (s.trialAt a).xs (s.trialAt a).us).2 = .ok cost)
    (hfin : Scalar.isFinite cost = true)
    (hv : Search.verdict
      { s.search with dV := s.cost - cost, dVexp := Search.expectedDecrease s.d a }
      s.d s.candidate.feasible = some code)
    (hs : s.problem.Shaped (s.trialAt a).xs (s.trialAt a).us) :
    ∃ events, r.step = .next { solver := s.moved a cost code, events } := by
  subst hr
  obtain ⟨hresult, hstate⟩ := Solver.searchStep_first ha he hfin hv
  have hacc : (r.solver.predict.settled a cost code).accepted = true :=
    Search.accepted_of_verdict hv
  refine ⟨r.searched.events, ?_⟩
  rw [step_eq, hresult]
  unfold advance searched report
  dsimp only
  rw [hstate]
  dsimp only
  rw [hacc, if_pos rfl, Solver.promote_shaped hs]
  rfl

theorem adapt_next
    (h : r.solver.options.alphas.getLast?.any (Scalar.eq r.solver.steplength) = false) :
    r.adapt = .next { r with solver := r.solver.adapted } := by
  have hlast : r.solver.adapted.options.alphas.getLast?.any
      (Scalar.eq r.solver.adapted.steplength) = false := by
    unfold Solver.adapted
    split <;> exact h
  rw [adapt_eq]
  change escalate { r with solver := r.solver.adapted } = _
  unfold escalate
  rw [if_neg (Bool.eq_false_iff.mp hlast)]

end Run

omit [Scalar α] in
/-- Only a table with a header every zero iterations raises a fault. -/
theorem Callback.observeAll_snd (s : Solver α) {cs : List Callback} (h : .table 0 ∉ cs) :
    (observeAll s cs).2 = none := by
  induction cs with
  | nil => rfl
  | cons c cs ih =>
    rw [List.mem_cons, not_or] at h
    have hc : ∃ events, c.observe s = .ok events := by
      cases c with
      | recorder => exact ⟨_, rfl⟩
      | table period =>
        have hne : period ≠ 0 := by
          rintro rfl
          exact h.1 rfl
        unfold observe TableRow.events
        dsimp only
        rw [if_neg hne]
        split <;> exact ⟨_, rfl⟩
    obtain ⟨events, hc⟩ := hc
    unfold observeAll
    rw [hc]
    exact ih h.2

namespace Run

variable {r : Run α}

/-- The end of an iteration: success if the trajectory was feasible and the residual is small. -/
theorem assess_next (h : .table 0 ∉ r.solver.callbacks) :
    ∃ events, r.assess =
      if r.solver.wasFeasible && Scalar.lt r.solver.measureStop.stop r.solver.options.stopThreshold
      then finished { solver := r.solver.measureStop, events } .success
      else .next { solver := r.solver.measureStop, events } := by
  have hnone := @Callback.observeAll_snd _ r.solver.measureStop r.solver.measureStop.callbacks h
  rw [assess_eq]
  dsimp only
  rw [hnone]
  exact ⟨_, rfl⟩

theorem iterate_found {fuel iter : ℕ} {r' : Run α} {s : Solver α}
    (hd : factorize fuel true { r with solver := r.solver.numbered iter } = .next r')
    (hp : r'.solver.predict = s) (ha : s.search.alphas = a :: rest)
    (he : (s.problem.evaluate s.knots (s.trialAt a).xs (s.trialAt a).us).2 = .ok cost)
    (hfin : Scalar.isFinite cost = true)
    (hv : Search.verdict
      { s.search with dV := s.cost - cost, dVexp := Search.expectedDecrease s.d a }
      s.d s.candidate.feasible = some code)
    (hs : s.problem.Shaped (s.trialAt a).xs (s.trialAt a).us)
    (hlast : s.options.alphas.getLast?.any (Scalar.eq a) = false) (hc : .table 0 ∉ s.callbacks) :
    ∃ events,
      let t := (s.moved a cost code).adapted.measureStop
      r.iterate fuel iter =
        if t.wasFeasible && Scalar.lt t.stop t.options.stopThreshold
        then finished { solver := t, events } .success
        else .next { solver := t, events } := by
  obtain ⟨events, hstep⟩ := step_first hp ha he hfin hv hs
  have hadapt := adapt_next (r := { solver := s.moved a cost code, events }) hlast
  have hkept : (s.moved a cost code).adapted.callbacks = s.callbacks := by
    unfold Solver.adapted
    split <;> rfl
  obtain ⟨events', hassess⟩ :=
    assess_next (r := { solver := (s.moved a cost code).adapted, events }) (hkept ▸ hc)
  refine ⟨events', ?_⟩
  change (((factorize fuel true { r with solver := r.solver.numbered iter }).andThen
    step).andThen adapt).andThen assess = _
  rw [hd]
  change (((step r').andThen adapt).andThen assess) = _
  rw [hstep]
  change ((adapt _).andThen assess) = _
  rw [hadapt]
  exact hassess

/-- An iteration that finds a direction at once and accepts the first step. -/
theorem iterate_first {fuel iter : ℕ} {s s' : Solver α}
    (hd : (r.solver.numbered iter).computeDirection true = (s', .ok .noError)) (hp : s'.predict = s)
    (ha : s.search.alphas = a :: rest)
    (he : (s.problem.evaluate s.knots (s.trialAt a).xs (s.trialAt a).us).2 = .ok cost)
    (hfin : Scalar.isFinite cost = true)
    (hv : Search.verdict
      { s.search with dV := s.cost - cost, dVexp := Search.expectedDecrease s.d a }
      s.d s.candidate.feasible = some code)
    (hs : s.problem.Shaped (s.trialAt a).xs (s.trialAt a).us)
    (hlast : s.options.alphas.getLast?.any (Scalar.eq a) = false) (hc : .table 0 ∉ s.callbacks) :
    ∃ events,
      let t := (s.moved a cost code).adapted.measureStop
      r.iterate (fuel + 1) iter =
        if t.wasFeasible && Scalar.lt t.stop t.options.stopThreshold
        then finished { solver := t, events } .success
        else .next { solver := t, events } := by
  have hfactor : factorize (fuel + 1) true { r with solver := r.solver.numbered iter } =
      .next { r with solver := s' } := by
    rw [factorize_succ]
    dsimp only
    rw [hd]
    rfl
  exact iterate_found hfactor hp ha he hfin hv hs hlast hc

end Run
end Shooting
