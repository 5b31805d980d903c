import Shooting.Proofs.Feasibility
import Shooting.Proofs.Isolation
import Shooting.Proofs.Refusal

/-! # What steps leave of the gaps

Along affine dynamics a direction makes up for all gaps at once, whatever the costs and the damping.
A trial of length `a` has the share `1 - a` of each, and a full step has none. What a solve leaves
of the gaps is the product of these shares over the steps that it accepts, however it ends.
-/

namespace Shooting

open Matrix

namespace Problem

variable {K : Type} [ExactScalar K] {p : Problem K} {c : Trajectory K} {share : K}
  {g : ∀ t, Fin (p.layout.ndxAt t) → K}

/-- A trajectory all of whose gaps are the same share of given ones. -/
structure Leaves (p : Problem K) (share : K) (g : ∀ t, Fin (p.layout.ndxAt t) → K)
    (c : Trajectory K) : Prop where
  shaped : p.Shaped c.xs c.us
  initial : p.layout.stateAt c.xs 0 - Vec.toFun _ p.x0 = share • g 0
  dynamics : ∀ (t : ℕ) (m : Model K)
    (f : AffineDynamics K (p.layout.ndxAt t) (p.layout.nuAt t) (p.layout.ndxAt (t + 1))),
    p.running[t]? = some m → m.Affine f →
      p.layout.stateAt c.xs (t + 1) - f.next (p.layout.stateAt c.xs t) (p.layout.controlAt c.us t) =
        share • g (t + 1)
  measured : p.GapsWhere c.xs c.us fun t => share • g t

theorem Leaves.exact (h : p.Leaves 0 g c) (hp : p.Affine) (hw : p.WellFormed) :
    c.xs.getD 0 [] = p.x0 ∧ ∀ (t : ℕ) (m : Model K) (cost : K) (y : Vec K), p.running[t]? = some m →
      m.eval (c.xs.getD t []) (c.us.getD t []) = .ok (cost, y) → c.xs.getD (t + 1) [] = y := by
  constructor
  · have hm := List.getElem?_eq_getElem hw.horizon
    have hlen := hp.length_state h.shaped (Nat.succ_pos _)
    obtain ⟨-, hx0⟩ := hp.diff_initial hw hm (c.xs.getD 0 [])
    apply (Vec.toFun_eq_iff hlen hx0).mp
    have hzero := h.initial
    rwa [zero_smul, sub_eq_zero] at hzero
  · intro t m cost y hm he
    have ht : t < p.horizon := (List.getElem?_eq_some_iff.mp hm).1
    have hlen := hp.length_state h.shaped (Nat.succ_lt_succ ht)
    obtain ⟨hdiff, hy, -⟩ := hp.diff_next hw h.shaped hm he (c.xs.getD (t + 1) [])
    apply (Vec.toFun_eq_iff hlen hy).mp
    have hzero := h.measured.dynamics t m cost y hm he
    rwa [hdiff, Vec.toFun_sub (hlen.trans hy.symm), zero_smul, sub_eq_zero] at hzero

end Problem

namespace Solver

variable {K : Type} [ExactScalar K] {p : Problem K} {s s' : Solver K}

theorem Sized.movedBy (h : s.Sized p) (a : K) :
    p.MovedBy a s.direction s.candidate.toTrajectory (s.trialAt a) := by
  obtain rfl := h.problem
  have hdx : s.direction.dxs.length = s.problem.horizon + 1 := by
    simpa [Layout.length_ndxs] using congrArg List.length h.direction.dxs
  have hdu : s.direction.dus.length = s.problem.horizon := by
    simpa [Layout.length_nus] using congrArg List.length h.direction.dus
  have hu := h.candidate.length_controls
  constructor
  case shaped => exact h.candidate
  case moved => exact Problem.shaped_trial a h.candidate h.direction.dxs h.direction.dus
  case dxs => exact h.direction.dxs
  case dus => exact h.direction.dus
  case states => exact fun t m hm => Problem.getD_moveStates a h.candidate.length_states hdx hm
  case controls => exact fun t ht => getD_moveControls a (hu.trans hdu.symm) (ht.trans_eq hu.symm)

/-- After a direction has been found, a trial of any length leaves its share of the gaps. -/
theorem Sized.leaves (h : s.Sized p) (hf : s.Fits) (hp : p.Affine) (hw : p.WellFormed)
    (hs : s.computeDirection true = (s', .ok .noError)) :
    ∃ g, p.GapsAlong s.candidate.xs s.candidate.us g ∧
      ∀ a, p.Leaves (1 - a) g (s'.tryStep a).1.attempt.toTrajectory := by
  have hsized := h.computeDirection true
  have hcandidate := (Run.kept_computeDirection { solver := s, events := [] } true).candidate
  rw [hs] at hsized hcandidate
  dsimp only at hsized hcandidate
  obtain ⟨s₁, halong, hprob, -, hfactor⟩ :=
    hf.factorize_of_computeDirection (by nofun) (fun _ => ⟨rfl, rfl⟩) hs
  obtain rfl := hsized.problem
  have hx := h.candidate.length_states
  have hu := h.candidate.length_controls
  obtain ⟨g, hg⟩ := halong.exists_gapsAlong (hprob.trans h.problem) hx hu
  obtain ⟨ks, hl, hc⟩ := halong.closes hfactor hx hu hw.horizon hg
  refine ⟨g, hg, fun a => ?_⟩
  have hmoved := hsized.movedBy a
  rw [hcandidate] at hmoved
  rw [attempt_tryStep]
  constructor
  case shaped => exact hmoved.moved
  case initial => exact hmoved.initial_gap hp hw hg hc
  case dynamics => exact fun t m f hm hf => hmoved.dynamics_gap hp hw hg hc hl hm hf
  case measured => exact hmoved.gapsWhere hp hw hg hc hl

end Solver

section Accepted

variable {α : Type} [Scalar α]

def Run.acceptedIn (fuel iter : ℕ) (r : Run α) : List α :=
  Solver.acceptedSteps
    (((factorize fuel true { r with solver := r.solver.numbered iter }).andThen step).statesThen
      fun r => [r.solver])

def Run.acceptedFrom (fuel : ℕ) : ℕ → ℕ → Run α → List α
  | 0, _, _ => []
  | left + 1, iter, r =>
    r.acceptedIn fuel iter ++
      match r.iterate fuel iter with
      | .next r => acceptedFrom fuel left (iter + 1) r
      | .done _ _ => []

def Solver.acceptedBy (s : Solver α) (fuel : ℕ) (xs us : List (Tensor α)) (maxiter : ℤ)
    (feasible : Bool) (reginit : Weight α) : List α :=
  match s.problem.trajectory xs us with
  | .error _ => []
  | .ok c =>
    match Run.start { solver := s.begun c feasible reginit, events := [] } with
    | (_, some _) => []
    | (r, none) => r.acceptedFrom fuel maxiter.toNat 0

theorem Solver.acceptedBy_eq {s : Solver α} {xs us : List (Tensor α)} {c : Trajectory α}
    {feasible : Bool} {reginit : Weight α} {r : Run α} {fuel : ℕ} {maxiter : ℤ}
    (hc : s.problem.trajectory xs us = .ok c)
    (hstart : Run.start { solver := s.begun c feasible reginit, events := [] } = (r, none)) :
    s.acceptedBy fuel xs us maxiter feasible reginit = r.acceptedFrom fuel maxiter.toNat 0 := by
  rw [acceptedBy, hc]
  dsimp only
  rw [hstart]

namespace Run

variable {r r' : Run α} {fuel iter : ℕ}

theorem candidate_factorize (fuel : ℕ) (relinearize : Bool) (r : Run α) :
    (factorize fuel relinearize r).run.solver.candidate = r.solver.candidate := by
  induction fuel generalizing relinearize r with
  | zero => rfl
  | succ fuel ih =>
    have hkept := (r.kept_computeDirection relinearize).candidate
    rw [factorize_succ]
    rcases hd : r.solver.computeDirection relinearize with ⟨s, f | code⟩ <;> rw [hd] at hkept
    · exact hkept
    · dsimp only
      unfold resume
      split_ifs
      · exact hkept
      · exact hkept
      · exact (ih false _).trans hkept

theorem candidate_step_done {ending : Ending} (h : r.step = .done r' ending) :
    r'.solver.candidate = r.solver.candidate := by
  obtain ⟨w, ⟨knots, attempt, -, rfl⟩, hstate⟩ := r.solver.predict.searchStep_trying
  rw [step_eq] at h
  split at h
  · cases h
    rw [solver_searched, hstate]
    rfl
  · rw [advance_eq, solver_searched, hstate] at h
    split_ifs at h
    split at h <;> cases h
    rename_i hp
    unfold Solver.promote Solver.setCandidate at hp
    dsimp only at hp
    split at hp <;> rename_i hc <;> split at hc <;> cases hc <;> cases hp
    rfl

theorem candidate_adapt (r : Run α) : r.adapt.run.solver.candidate = r.solver.candidate := by
  obtain ⟨xreg, ureg, hadapted⟩ := r.solver.adapted_weights
  rw [adapt_eq]
  change (escalate { r with solver := r.solver.adapted }).run.solver.candidate = _
  rw [hadapted]
  unfold escalate unlessSaturated
  split_ifs <;> rfl

theorem candidate_iterate (fuel iter : ℕ) (r : Run α) :
    (r.iterate fuel iter).run.solver.candidate =
      ((factorize fuel true { r with solver := r.solver.numbered iter }).andThen
        step).run.solver.candidate := by
  rw [iterate_eq, unassessed]
  cases h : (factorize fuel true { r with solver := r.solver.numbered iter }).andThen step with
  | done r' ending => rfl
  | next r' =>
    have hadapt := r'.candidate_adapt
    change (r'.adapt.andThen assess).run.solver.candidate = r'.solver.candidate
    cases ha : r'.adapt with
    | done e ending => rwa [ha] at hadapt
    | next r'' =>
      rw [ha] at hadapt
      exact r''.run_assess.2.trans hadapt

theorem acceptedIn_of_unassessed (h : r.unassessed fuel iter = .next r') :
    r.acceptedIn fuel iter = Solver.acceptedSteps [r'.solver.measureStop] := by
  obtain ⟨r₁, hr₁, hadapt⟩ := Flow.andThen_eq_next h
  obtain ⟨xreg, ureg, hs⟩ := solver_adapt hadapt
  rw [acceptedIn, hr₁, hs, Solver.acceptedSteps_singleton]
  exact Solver.acceptedSteps_singleton _

theorem acceptedFrom_next (h : r.iterate fuel iter = .next r') (left : ℕ) :
    r.acceptedFrom fuel (left + 1) iter =
      r.acceptedIn fuel iter ++ r'.acceptedFrom fuel left (iter + 1) := by
  rw [acceptedFrom, h]

end Run

end Accepted

namespace Run

variable {K : Type} [ExactScalar K] {r r₀ : Run K} {p : Problem K} {fuel iter : ℕ}

theorem reaches_iterate (h : r.Holds Solver.Sound) (hr : r.solver.problem = p) (fuel iter : ℕ) :
    r.solver.candidate.Reaches p (r.acceptedIn fuel iter)
        (r.iterate fuel iter).run.solver.candidate ∧
      ∀ a ∈ r.acceptedIn fuel iter, a ∈ r.solver.search.alphas := by
  subst hr
  rw [candidate_iterate, acceptedIn]
  cases hs : (factorize fuel true { r with solver := r.solver.numbered iter }).andThen step with
  | next r' => exact reaches_of_step h hs
  | done e ending =>
    have hfactor := candidate_factorize fuel true { r with solver := r.solver.numbered iter }
    have hstay : e.solver.candidate = r.solver.candidate := by
      rcases Flow.andThen_eq_done hs with hdone | ⟨r₁, hr₁, hdone⟩
      · rwa [hdone] at hfactor
      · rw [hr₁] at hfactor
        exact (candidate_step_done hdone).trans hfactor
    refine ⟨?_, fun a ha => absurd ha List.not_mem_nil⟩
    change r.solver.candidate.Reaches _ [] e.solver.candidate
    rw [hstay]
    exact .refl _ _

theorem reaches_loop (h : r.Holds Solver.Sound) (hr : r.solver.problem = p) (fuel left iter : ℕ) :
    r.solver.candidate.Reaches p (r.acceptedFrom fuel left iter)
        (r.loop fuel left iter).1.solver.candidate ∧
      ∀ a ∈ r.acceptedFrom fuel left iter, a ∈ r.solver.search.alphas := by
  induction left generalizing r iter with
  | zero => exact ⟨.refl _ _, fun a ha => absurd ha List.not_mem_nil⟩
  | succ left ih =>
    obtain ⟨hstep, hmem⟩ := reaches_iterate h hr fuel iter
    cases hi : r.iterate fuel iter with
    | done e ending =>
      rw [hi] at hstep
      rw [acceptedFrom, loop, hi]
      dsimp only
      rw [List.append_nil]
      exact ⟨hstep, hmem⟩
    | next r' =>
      have hholds := holds_iterate h fuel iter
      have hkept := preserved_iterate fuel iter r
      rw [hi] at hstep hholds hkept
      have hkept' : r.solver.Preserved r'.solver := hkept
      obtain ⟨hrest, hmem'⟩ := ih hholds.sound (hkept'.problem.trans hr) (iter + 1)
      rw [hkept'.search.alphas] at hmem'
      rw [acceptedFrom_next hi, loop_next hi]
      refine ⟨hstep.trans hrest, fun a ha => ?_⟩
      exact (List.mem_append.mp ha).elim (hmem a) (hmem' a)

end Run

namespace Solver

variable {K : Type} [ExactScalar K] {s : Solver K} {xs us : List (Tensor K)} {c : Trajectory K}

theorem Fits.reaches_solve (hf : s.Fits) (hx : ∀ a ∈ xs, a.Valid) (hu : ∀ a ∈ us, a.Valid)
    (hc : s.problem.trajectory xs us = .ok c) (fuel : ℕ) (maxiter : ℤ) (feasible : Bool)
    (reginit : Weight K) :
    Candidate.Reaches { c with feasible } s.problem
        (s.acceptedBy fuel xs us maxiter feasible reginit)
        (s.solve fuel xs us maxiter feasible reginit).1.solver.candidate ∧
      ∀ a ∈ s.acceptedBy fuel xs us maxiter feasible reginit, a ∈ s.search.alphas := by
  let begun : Run K := { solver := s.begun c feasible reginit, events := [] }
  have hholds := Run.holds_start
    (hf.holds_begun (Problem.shaped_trajectory hc hx hu) feasible reginit)
  have hcandidate : begun.start.1.solver.candidate = { c with feasible } :=
    begun.kept_start.candidate
  have hkept : begun.solver.Preserved begun.start.1.solver := begun.preserved_start
  rw [acceptedBy, hc, solve_eq hc]
  dsimp only
  rcases hstart : begun.start with ⟨r, f | _⟩ <;> rw [hstart] at hholds hcandidate hkept
  · have hreaches := Run.reaches_loop hholds hkept.problem fuel maxiter.toNat 0
    rw [hcandidate, hkept.search.alphas] at hreaches
    exact hreaches
  · change r.solver.candidate = _ at hcandidate
    dsimp only
    rw [hcandidate]
    exact ⟨.refl _ _, fun a ha => absurd ha List.not_mem_nil⟩

/-- An iteration starts from the candidate that a solve of as many iterations ends with. -/
theorem Iterates.candidate_eq {fuel iter : ℕ} {maxiter : ℤ} {feasible : Bool} {reginit : Weight K}
    {r : Run K} (h : s.Iterates fuel xs us maxiter feasible reginit iter r) :
    (s.solve fuel xs us iter feasible reginit).1.solver.candidate = r.solver.candidate := by
  obtain ⟨⟨c, r₀, hc, hstart, hvisits⟩, -⟩ := h
  rw [Solver.solve_eq hc, hstart]
  dsimp only
  rw [Int.toNat_natCast, ← Nat.add_zero iter, hvisits.loop_eq]
  rfl

end Solver

namespace Problem

variable {K : Type} [ExactScalar K]

/-- What has become of the gaps of a trajectory, by steps of the given lengths. -/
structure Contracted (p : Problem K) (first : Trajectory K) (steps : List K) (c : Trajectory K) :
    Prop where
  stays : steps = [] → c = first
  evaluated : steps ≠ [] → ∃ g, p.GapsAlong first.xs first.us g
  gaps : ∀ g, p.GapsAlong first.xs first.us g →
    p.GapsAlong c.xs c.us fun t => (steps.map (1 - ·)).prod • g t
  gapless_iff : p.Gapless c.xs c.us ↔ p.Gapless first.xs first.us ∨ 1 ∈ steps

end Problem

theorem Candidate.Reaches.contracted {K : Type} [ExactScalar K] {p : Problem K}
    {first c : Candidate K} {steps : List K} (h : first.Reaches p steps c) (hp : p.Affine)
    (hw : p.WellFormed) (hs : p.Shaped first.xs first.us) (hs' : p.Shaped c.xs c.us) :
    p.Contracted first.toTrajectory steps c.toTrajectory where
  stays := h.stays
  evaluated := h.evaluated
  gaps := h.gaps hp hw
  gapless_iff := h.gapless_iff hp hw hs hs'

namespace Solver

variable {K : Type} [ExactScalar K] {p : Problem K} {s : Solver K}

structure Contracts (p : Problem K) (o : Options K) (s : Solver K) : Prop where
  trial : ∀ s', s.computeDirection true = (s', .ok .noError) →
    ∃ g, p.GapsAlong s.candidate.xs s.candidate.us g ∧
      ∀ a, p.Leaves (1 - a) g (s'.tryStep a).1.attempt.toTrajectory
  fullStep : ∀ s', s.computeDirection true = (s', .ok .noError) →
    let c := (s'.tryStep 1).1.attempt
    c.xs.getD 0 [] = p.x0 ∧ ∀ (t : ℕ) (m : Model K) (cost : K) (y : Vec K), p.running[t]? = some m →
      m.eval (c.xs.getD t []) (c.us.getD t []) = .ok (cost, y) → c.xs.getD (t + 1) [] = y
  solve : ∀ (fuel : ℕ) (xs us : List (Tensor K)) (maxiter : ℤ) (feasible : Bool)
    (reginit : Weight K) (c : Trajectory K), (∀ a ∈ xs, a.Valid) → (∀ a ∈ us, a.Valid) →
    p.trajectory xs us = .ok c →
      (∀ a ∈ s.acceptedBy fuel xs us maxiter feasible reginit, a ∈ o.alphas) ∧
      p.Contracted c (s.acceptedBy fuel xs us maxiter feasible reginit)
        (s.solve fuel xs us maxiter feasible reginit).1.solver.candidate.toTrajectory ∧
      ∀ (iter : ℕ) (r : Run K), s.Iterates fuel xs us maxiter feasible reginit iter r →
        p.Contracted c (s.acceptedBy fuel xs us iter feasible reginit)
          r.solver.candidate.toTrajectory

/-- Whatever a solver has gone through and whatever the damping is, a step of length `a` leaves the
share `1 - a` of every gap. -/
theorem contracts_after {x0 : Tensor K} (hx0 : x0.Valid) {running : List (Model K)}
    {terminal : Model K} (hbuild : Problem.build x0 running terminal = .ok p) (hp : p.Affine)
    (o : Options K) (past : List (Operation K)) (hpast : ∀ op ∈ past, op.Valid) :
    ((create p o).after past).Contracts p o := by
  have hw : p.WellFormed := Problem.wellFormed_of_build hx0 hbuild
  have hsized : ((create p o).after past).Sized p := (sized_create hw o).after hpast
  have hf : ((create p o).after past).Fits := fits_after past
  have halphas : ((create p o).after past).search.alphas = o.alphas := (search_after past).alphas
  generalize (create p o).after past = s at hsized hf halphas ⊢
  have hleaves (s' : Solver K) (hs : s.computeDirection true = (s', .ok .noError)) :=
    hsized.leaves hf hp hw hs
  have hreaches {fuel : ℕ} {xs us : List (Tensor K)} {maxiter : ℤ} {feasible : Bool}
      {reginit : Weight K} {c : Trajectory K} (hx : ∀ a ∈ xs, a.Valid) (hu : ∀ a ∈ us, a.Valid)
      (hc : p.trajectory xs us = .ok c) :
      p.Contracted c (s.acceptedBy fuel xs us maxiter feasible reginit)
        (s.solve fuel xs us maxiter feasible reginit).1.solver.candidate.toTrajectory := by
    let e := (s.solve fuel xs us maxiter feasible reginit).1.solver.candidate
    have hlast : p.Shaped e.xs e.us := (hsized.solve hx hu).candidate
    obtain rfl := hsized.problem
    exact (hf.reaches_solve hx hu hc fuel maxiter feasible reginit).1.contracted hp hw
      (Problem.shaped_trajectory hc hx hu) hlast
  constructor
  case trial => exact hleaves
  case fullStep =>
    intro s' hs
    obtain ⟨g, -, hg⟩ := hleaves s' hs
    have hfull := hg 1
    rw [sub_self] at hfull
    exact hfull.exact hp hw
  case solve =>
    intro fuel xs us maxiter feasible reginit c hx hu hc
    refine ⟨?_, hreaches hx hu hc, fun iter r hr => ?_⟩
    · obtain rfl := hsized.problem
      rw [← halphas]
      exact (hf.reaches_solve hx hu hc fuel maxiter feasible reginit).2
    · rw [← hr.candidate_eq]
      exact hreaches hx hu hc

/-- A solve that starts with the gap of the integrator, and the half step that it accepts. -/
theorem contracts_after_integrator :
    let p : Problem ℝ := .integrator [1] 1
    let c : Trajectory ℝ := { xs := [[1], [3]], us := [[0]] }
    let xs := c.xs.map Tensor.ofVec
    let us := c.us.map Tensor.ofVec
    let s := (create p .halving).after [.setCandidate xs us false]
    p.Affine ∧
      (∃ s' g, s.computeDirection true = (s', .ok .noError) ∧ p.GapsAlong c.xs c.us g ∧
        ∀ a, p.Leaves (1 - a) g (s'.tryStep a).1.attempt.toTrajectory) ∧
      s.acceptedBy 1 xs us 1 false none = [1 / 2] ∧
      p.Contracted c [1 / 2] (s.solve 1 xs us 1 false none).1.solver.candidate.toTrajectory := by
  intro p c xs us s
  have hbuild : Problem.build (.ofVec [1]) [.integrator 1] (.resting 1) = .ok p := rfl
  have hp : p.LinearQuadratic := Problem.linearQuadratic_integrator
  have hw : p.WellFormed := Problem.wellFormed_integrator
  have hshaped : p.Shaped c.xs c.us := ⟨rfl, rfl⟩
  have hx : ∀ a ∈ xs, a.Valid := Tensor.valid_of_mem_map c.xs
  have hu : ∀ a ∈ us, a.Valid := Tensor.valid_of_mem_map c.us
  have hc : p.trajectory xs us = .ok c := Problem.trajectory_ofVec hshaped
  have hcontracts : s.Contracts p .halving :=
    contracts_after (Tensor.valid_ofVec [1]) hbuild hp.affine .halving [.setCandidate xs us false]
      (by simpa [Operation.Valid] using ⟨hx, hu⟩)
  have hs : s = { create p .halving with candidate := { c with feasible := false } } :=
    congrArg Prod.fst (setCandidate_ok hc)
  have hdirection : ∃ s', s.computeDirection true = (s', .ok .noError) := by
    rw [hs]
    obtain ⟨ks, primal, dual, -, hd⟩ := exists_direction
      (s := { create p .halving with candidate := { c with feasible := false } }) hp hw
      Problem.strictlyConvex_integrator ⟨rfl, rfl, rfl⟩ hshaped le_rfl le_rfl
    exact ⟨_, hd⟩
  obtain ⟨s', hs'⟩ := hdirection
  obtain ⟨g, hg, hleaves⟩ := hcontracts.trial s' hs'
  have hcandidate : s.candidate = { c with feasible := false } := by rw [hs]
  rw [hcandidate] at hg
  have haccepted : s.acceptedBy 1 xs us 1 false none = [1 / 2] := by
    have hproblem : s.problem = p := problem_after _
    obtain ⟨r', hiter, hacc, hlength⟩ := iterate_astray (3 : ℝ) [.started]
    obtain ⟨r₁, hr₁, -, hobs, -⟩ := Run.observes_of_next hiter
    have hstart : Run.start { solver := s.begun c false none, events := [] } =
        ({ solver := astray (3 : ℝ), events := [.started] }, none) := by
      rw [hs]
      rfl
    rw [acceptedBy_eq (hproblem ▸ hc) hstart]
    change Run.acceptedFrom 1 1 0 _ = _
    rw [Run.acceptedFrom_next hiter, Run.acceptedIn_of_unassessed hr₁, ← hobs.solver]
    simp [Run.acceptedFrom, acceptedSteps, hacc, hlength]
  obtain ⟨-, hcontracted, -⟩ := hcontracts.solve 1 xs us 1 false none c hx hu hc
  rw [haccepted] at hcontracted
  exact ⟨hp.affine, ⟨s', g, hs', hg, hleaves⟩, haccepted, hcontracted⟩

end Solver
end Shooting
