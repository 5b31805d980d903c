import Shooting.Proofs.Costs
import Shooting.Proofs.Shapes

/-! # Isolated trials

A trial leaves its trajectory and its cost in the attempt, and the values that it has come to in the
records of the knots, whether it is measured, fails or raises a fault that escapes. Nothing of this
is read by another trial, so trials may be made in any number and any order.
-/

namespace Shooting

variable {α : Type} [Scalar α]

namespace Problem

variable {p : Problem α} {ms : List (Model α)} {ks ks' : List (Knot α)} {xs us : List (Vec α)}
  {c c' : α}

theorem evaluateRunning_fst (ha : Aligned ms ks xs us) (ha' : Aligned ms ks' xs us)
    (hslopes : ks'.map (·.slopes) = ks.map (·.slopes))
    (h : (evaluateRunning ms ks xs us c).2 = .ok c') :
    (evaluateRunning ms ks' xs us c).1 = (evaluateRunning ms ks xs us c).1 := by
  induction ha generalizing ks' c with
  | nil =>
    cases ha'
    rfl
  | @cons m k x u ms ks xs us _ _ ih =>
    cases ha' with
    | @cons _ k' _ _ _ ks' _ _ _ ha' =>
      obtain ⟨hk, hks⟩ := List.cons.inj hslopes
      rw [evaluateRunning_cons] at h ⊢
      rw [evaluateRunning_cons]
      cases he : m.eval x u with
      | error f =>
        rw [he] at h
        cases h
      | ok r =>
        rw [he] at h
        exact congrArg₂ (fun slopes rest => Knot.mk r.1 r.2 slopes :: rest) hk (ih ha' hks h)

theorem Fits.evaluate_fst {ks ks' : Knots α} (h : p.Fits ks xs us) (h' : p.Fits ks' xs us)
    (hslopes : ks.SameSlopes ks') (he : (p.evaluate ks xs us).2 = .ok c) :
    (p.evaluate ks' xs us).1 = (p.evaluate ks xs us).1 := by
  have hsnd := evaluateRunning_snd h'.aligned h.aligned 0
  have hfst (total : α) := @evaluateRunning_fst _ _ _ _ _ _ _ 0 total h.aligned h'.aligned
    hslopes.running
  unfold Problem.evaluate at he ⊢
  rcases hr : evaluateRunning p.running ks.running xs.dropLast us 0 with ⟨running, f | total⟩
  · rw [hr] at he
    cases he
  · rw [hr] at he hsnd hfst
    have hr' : evaluateRunning p.running ks'.running xs.dropLast us 0 = (running, .ok total) :=
      Prod.ext (hfst total rfl) hsnd
    rw [hr', h.getLast?]
    dsimp only
    rw [h.getLast?] at he
    dsimp only [Model.evaluate] at he ⊢
    cases ht : p.terminal.eval (xs.getLastD []) [] with
    | error f =>
      rw [ht] at he
      cases he
    | ok r =>
      exact congrArg (fun slopes => Knots.mk running ⟨r.1, r.2, slopes⟩) hslopes.terminal

end Problem

namespace Solver

/-- Solvers that differ at most in the attempt, and in the costs and following states that are held
in the records of the knots. -/
def SameButTried (s s' : Solver α) : Prop :=
  ∃ knots attempt, s.knots.SameSlopes knots ∧ s' = { s with knots, attempt }

def tries (s : Solver α) (lengths : List α) : Solver α :=
  lengths.foldl (fun w a => (w.tryStep a).1) s

/-- What a trial gives: the decrease to the sum of the costs along its trajectory, if there is one
and it is finite, and else the reason why not. -/
inductive TrialGives (s : Solver α) (a : α) : Except Fault (Trial α) → Prop
  | measured {costs : List α}
    (along : Problem.CostsAlong s.problem.models (s.trialAt a).xs (s.trialAt a).us costs)
    (finite : Scalar.isFinite (costs.foldl (· + ·) 0) = true) :
    TrialGives s a (.ok (.ok (s.cost - costs.foldl (· + ·) 0)))
  | infinite {costs : List α}
    (along : Problem.CostsAlong s.problem.models (s.trialAt a).xs (s.trialAt a).us costs)
    (finite : Scalar.isFinite (costs.foldl (· + ·) 0) = false) :
    TrialGives s a (.ok (.error (.reported .trialStepFailed)))
  | caught {t : ℕ} {f : Fault}
    (raises : Problem.RaisesAt s.problem.models (s.trialAt a).xs (s.trialAt a).us t f)
    (ends : f.family.endsTrial = true) : TrialGives s a (.ok (.error (.caught f)))
  | escapes {t : ℕ} {f : Fault}
    (raises : Problem.RaisesAt s.problem.models (s.trialAt a).xs (s.trialAt a).us t f)
    (ends : f.family.endsTrial = false) : TrialGives s a (.error f)

/-- Trials depend on nothing but the trajectory, its cost and the direction, and change none of
these. -/
structure Isolated (s : Solver α) : Prop where
  frame : ∀ lengths, s.SameButTried (s.tries lengths)
  attempt : ∀ a, (s.tryStep a).1.attempt.toTrajectory = s.trialAt a
  states : ∀ a t m, s.problem.models[t]? = some m → (s.trialAt a).xs.getD t [] =
    m.state.integrate (s.candidate.xs.getD t []) (Vec.scale a (s.direction.dxs.getD t []))
  controls : ∀ a, ∀ t < s.problem.horizon, (s.trialAt a).us.getD t [] =
    Vec.add (s.candidate.us.getD t []) (Vec.scale a (s.direction.dus.getD t []))
  gives : ∀ a r, (s.tryStep a).2 = r ↔ s.TrialGives a r
  measured : ∀ a dV, (s.tryStep a).2 = .ok (.ok dV) → dV = s.cost - (s.tryStep a).1.attempt.cost ∧
    ∀ ks : Knots α, ks.running.length = s.problem.horizon →
      (s.problem.evaluate ks (s.trialAt a).xs (s.trialAt a).us).2 =
        .ok (s.tryStep a).1.attempt.cost
  again : ∀ lengths a, ((s.tries lengths).tryStep a).2 = (s.tryStep a).2
  /-- A trial that is evaluated to the end leaves nothing of earlier ones. -/
  overwrites : ∀ lengths a costs,
    Problem.CostsAlong s.problem.models (s.trialAt a).xs (s.trialAt a).us costs →
      (s.tries lengths).tryStep a = s.tryStep a

variable {p : Problem α} {s s' s'' : Solver α} {a : α}

omit [Scalar α] in
theorem SameButTried.refl (s : Solver α) : s.SameButTried s := ⟨_, _, .refl _, rfl⟩

omit [Scalar α] in
theorem SameButTried.trans (h : s.SameButTried s') (h' : s'.SameButTried s'') :
    s.SameButTried s'' := by
  obtain ⟨knots, attempt, hslopes, rfl⟩ := h
  obtain ⟨knots', attempt', hslopes', rfl⟩ := h'
  exact ⟨knots', attempt', hslopes.trans hslopes', rfl⟩

theorem sameButTried_tryStep (s : Solver α) (a : α) : s.SameButTried (s.tryStep a).1 := by
  have hslopes := s.problem.sameSlopes_evaluate s.knots (s.trialAt a).xs (s.trialAt a).us
  unfold tryStep
  dsimp only
  split <;> rename_i he <;> rw [he] at hslopes <;> exact ⟨_, _, hslopes, rfl⟩

theorem sameButTried_tries (s : Solver α) (lengths : List α) :
    s.SameButTried (s.tries lengths) := by
  induction lengths generalizing s with
  | nil => exact .refl s
  | cons a lengths ih => exact (s.sameButTried_tryStep a).trans (ih _)

theorem tryStep_snd (s : Solver α) (a : α) :
    (s.tryStep a).2 =
      match (s.problem.evaluate s.knots (s.trialAt a).xs (s.trialAt a).us).2 with
      | .error f => if f.family.endsTrial then .ok (.error (.caught f)) else .error f
      | .ok cost => .ok (if Scalar.isFinite cost then .ok (s.cost - cost)
          else .error (.reported .trialStepFailed)) := by
  unfold tryStep
  dsimp only
  split <;> rename_i he <;> rw [he]

theorem attempt_tryStep (s : Solver α) (a : α) :
    (s.tryStep a).1.attempt.toTrajectory = s.trialAt a := by
  obtain ⟨knots, cost, h⟩ := s.tryStep_fst a
  rw [h]

structure Equipped (s : Solver α) : Prop where
  sized : s.Sized s.problem
  knots : s.knots.running.length = s.problem.horizon

theorem Equipped.fits_trial (h : s.Equipped) (a : α) :
    s.problem.Fits s.knots (s.trialAt a).xs (s.trialAt a).us := by
  have htrial := Problem.shaped_trial a h.sized.candidate h.sized.direction.dxs
    h.sized.direction.dus
  exact ⟨h.knots, htrial.length_states, htrial.length_controls⟩

theorem Equipped.gives (h : s.Equipped) (a : α) : s.TrialGives a (s.tryStep a).2 := by
  rw [tryStep_snd]
  obtain ⟨t, f, hf, he⟩ | ⟨costs, hcosts, he⟩ := (h.fits_trial a).evaluate_cases
  · rw [he]
    dsimp only
    split_ifs with hends
    · exact .caught hf hends
    · exact .escapes hf (Bool.eq_false_iff.mpr hends)
  · rw [he]
    dsimp only
    split_ifs with hfin
    · exact .measured hcosts hfin
    · exact .infinite hcosts (Bool.eq_false_iff.mpr hfin)

theorem Equipped.gives_iff (h : s.Equipped) {r : Except Fault (Trial α)} :
    (s.tryStep a).2 = r ↔ s.TrialGives a r := by
  constructor
  · rintro rfl
    exact h.gives a
  · intro hr
    rw [tryStep_snd]
    cases hr with
    | measured along finite =>
      rw [(h.fits_trial a).evaluate_ok_iff.mpr ⟨_, along, rfl⟩]
      exact congrArg Except.ok (if_pos finite)
    | infinite along finite =>
      rw [(h.fits_trial a).evaluate_ok_iff.mpr ⟨_, along, rfl⟩]
      exact congrArg Except.ok (if_neg (Bool.eq_false_iff.mp finite))
    | caught raises ends =>
      rw [(h.fits_trial a).evaluate_error_iff.mpr ⟨_, raises⟩]
      exact if_pos ends
    | escapes raises ends =>
      rw [(h.fits_trial a).evaluate_error_iff.mpr ⟨_, raises⟩]
      exact if_neg (Bool.eq_false_iff.mp ends)

theorem Equipped.measured (h : s.Equipped) {dV : α} (hdV : (s.tryStep a).2 = .ok (.ok dV)) :
    dV = s.cost - (s.tryStep a).1.attempt.cost ∧
      ∀ ks : Knots α, ks.running.length = s.problem.horizon →
        (s.problem.evaluate ks (s.trialAt a).xs (s.trialAt a).us).2 =
          .ok (s.tryStep a).1.attempt.cost := by
  have hpair : s.tryStep a = ((s.tryStep a).1, .ok (.ok dV)) := Prod.ext rfl hdV
  obtain ⟨cost, he, -, hstate, rfl⟩ := tryStep_eq_ok hpair
  have hcost : (s.tryStep a).1.attempt.cost = cost := congrArg (·.attempt.cost) hstate
  rw [hcost]
  refine ⟨rfl, fun ks hks => ?_⟩
  have hfits := h.fits_trial a
  exact (Problem.Fits.evaluate_congr ⟨hks, hfits.states, hfits.controls⟩ hfits).trans he

/-- Trials of solvers that differ by other trials have the same outcome, and are the same if they
are evaluated to the end. -/
theorem SameButTried.tryStep (h : s.SameButTried s') (hs : s.Equipped) (a : α) :
    (s'.tryStep a).2 = (s.tryStep a).2 ∧
      ∀ cost, (s.problem.evaluate s.knots (s.trialAt a).xs (s.trialAt a).us).2 = .ok cost →
        s'.tryStep a = s.tryStep a := by
  obtain ⟨knots, attempt, hslopes, rfl⟩ := h
  have hfits := hs.fits_trial a
  have hknots : knots.running.length = s.problem.horizon := by
    have hlen := congrArg List.length hslopes.running
    rw [List.length_map, List.length_map] at hlen
    exact hlen.trans hs.knots
  have hfits' : s.problem.Fits knots (s.trialAt a).xs (s.trialAt a).us :=
    ⟨hknots, hfits.states, hfits.controls⟩
  have hsnd := hfits'.evaluate_congr hfits
  constructor
  · rw [tryStep_snd, tryStep_snd]
    change (match (s.problem.evaluate knots (s.trialAt a).xs (s.trialAt a).us).2 with
      | .error f => _
      | .ok cost => _) = _
    rw [hsnd]
  · intro cost he
    have hpair : s.problem.evaluate knots (s.trialAt a).xs (s.trialAt a).us =
        s.problem.evaluate s.knots (s.trialAt a).xs (s.trialAt a).us :=
      Prod.ext (hfits.evaluate_fst hfits' hslopes he) hsnd
    have hpair' : s.problem.evaluate s.knots (s.trialAt a).xs (s.trialAt a).us =
        ((s.problem.evaluate s.knots (s.trialAt a).xs (s.trialAt a).us).1, .ok cost) :=
      Prod.ext rfl he
    unfold Solver.tryStep
    dsimp only [trialAt] at hpair hpair' ⊢
    rw [hpair, hpair']

theorem Equipped.isolated (h : s.Equipped) : s.Isolated where
  frame lengths := s.sameButTried_tries lengths
  attempt := s.attempt_tryStep
  states := by
    intro a t m hm
    have hdx : s.direction.dxs.length = s.problem.horizon + 1 := by
      simpa [Layout.length_ndxs] using congrArg List.length h.sized.direction.dxs
    exact Problem.getD_moveStates a h.sized.candidate.length_states hdx hm
  controls := by
    intro a t ht
    have hu := h.sized.candidate.length_controls
    have hdu : s.direction.dus.length = s.problem.horizon := by
      simpa [Layout.length_nus] using congrArg List.length h.sized.direction.dus
    exact getD_moveControls a (hu.trans hdu.symm) (ht.trans_eq hu.symm)
  gives _ _ := h.gives_iff
  measured _ _ := h.measured
  again lengths a := ((s.sameButTried_tries lengths).tryStep h a).1
  overwrites lengths a costs hcosts :=
    ((s.sameButTried_tries lengths).tryStep h a).2 _
      ((h.fits_trial a).evaluate_ok_iff.mpr ⟨costs, hcosts, rfl⟩)

theorem Moves.fits (h : s.Moves s') (hs : s.Fits) : s'.Fits := by
  cases h with
  | evaluates => exact ⟨(Problem.length_evaluate ..).trans hs.knots, hs.states, hs.controls⟩
  | directs relinearize => exact (s.preserved_computeDirection relinearize).fits hs
  | tries a => exact (s.preserved_tryStep a).fits hs
  | promotes => exact s.preserved_promote.fits hs
  | _ => exact hs

omit [Scalar α] in
theorem Sized.equipped (h : s.Sized p) (hf : s.Fits) : s.Equipped := by
  obtain rfl := h.problem
  exact ⟨h, hf.knots⟩

/-- Whatever a solver has gone through, also between the operations of a solve, trials are isolated
from each other and from everything else that it holds. -/
theorem isolated_after {x0 : Tensor α} (hx0 : x0.Valid) {running : List (Model α)}
    {terminal : Model α} (hbuild : Problem.build x0 running terminal = .ok p) (o : Options α)
    (ops : List (Operation α)) (hops : ∀ op ∈ ops, op.Valid) :
    let s := (create p o).after ops
    s.Isolated ∧
      ∀ (fuel : ℕ) (xs us : List (Tensor α)) (maxiter : ℤ) (feasible : Bool) (reginit : Weight α),
        (∀ a ∈ xs, a.Valid) → (∀ a ∈ us, a.Valid) →
        ∀ t ∈ s.solveStates fuel xs us maxiter feasible reginit, t.Isolated := by
  intro s
  have hs : s.Sized p := (sized_create (Problem.wellFormed_of_build hx0 hbuild) o).after hops
  have hf : s.Fits := fits_after ops
  refine ⟨(hs.equipped hf).isolated, ?_⟩
  intro fuel xs us maxiter feasible reginit hx hu t ht
  have hfits : ∀ t ∈ s.solveStates fuel xs us maxiter feasible reginit, t.Fits := by
    refine forall_solveStates (fun _ _ hab ha => hab.fits ha) fun c hc => ?_
    obtain ⟨hlx, hlu⟩ := Problem.length_trajectory hc
    exact ⟨hf.knots, hlx, hlu⟩
  exact ((hs.solveStates hx hu t ht).equipped (hfits t ht)).isolated

theorem isolated_after_integrator :
    let p : Problem ℝ := .integrator [1, 2] 2
    let xs : List (Vec ℝ) := [[1, 2], [3, 4], [5, 6]]
    let us : List (Vec ℝ) := [[0, 1], [1, 0]]
    let s := (create p .lenient).after
      [.setCandidate (xs.map .ofVec) [] false, .computeDirection true]
    s.SameButTried (s.tries [2, 1]) ∧ ((s.tries [2, 1]).tryStep 1).2 = (s.tryStep 1).2 ∧
      ∃ t ∈ s.solveStates 1 (xs.map .ofVec) (us.map .ofVec) 5 false none,
        t.SameButTried (t.tries [2, 1]) ∧ ((t.tries [2, 1]).tryStep 1).2 = (t.tryStep 1).2 := by
  intro p xs us s
  have hbuild : Problem.build (.ofVec [1, 2]) [.integrator 2, .integrator 2] (.resting 2) =
      .ok p := rfl
  have hvalid (vs : List (Vec ℝ)) : ∀ a ∈ vs.map Tensor.ofVec, a.Valid := Tensor.valid_of_mem_map vs
  have hshaped : p.Shaped xs us := ⟨rfl, rfl⟩
  have hproblem : s.problem = p := problem_after _
  obtain ⟨hisolated, hstates⟩ := isolated_after (Tensor.valid_ofVec _) hbuild .lenient
    [.setCandidate (xs.map .ofVec) [] false, .computeDirection true]
    (by simp [Operation.Valid, Tensor.valid_ofVec])
  have hbegun : s.begun { xs, us } false none ∈
      s.solveStates 1 (xs.map .ofVec) (us.map .ofVec) 5 false none := by
    obtain ⟨rest, heq, -⟩ :=
      trail_moves (hproblem ▸ Problem.trajectory_ofVec hshaped) 1 5 false none
    rw [heq]
    exact List.mem_cons_self
  have hlater := hstates 1 _ _ 5 false none (hvalid xs) (hvalid us) _ hbegun
  exact ⟨hisolated.frame [2, 1], hisolated.again [2, 1] 1, _, hbegun, hlater.frame [2, 1],
    hlater.again [2, 1] 1⟩

end Solver
end Shooting
