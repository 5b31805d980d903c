import Shooting.Proofs.Outcome
import Shooting.Model.Symbolic

/-! # Faults of models

A trial step may fail, however often; a linearization may not. A solve only ever linearizes where it
has evaluated before, at the trajectory that it was given or at an accepted trial. So if models
raise nothing but what a trial may raise, and only when they are evaluated, then no fault gets out
of a solve that starts from a trajectory which can be evaluated.
-/

namespace Shooting

variable {α : Type}

/-- At states and controls of the right size, evaluations raise nothing but what a trial may raise,
and derivatives raise nothing where an evaluation succeeds. -/
structure Model.Tame (m : Model α) : Prop where
  eval : ∀ x u f, x.length = m.state.nx → u.length = m.nu → m.eval x u = .error f →
    f.family.endsTrial = true
  deriv : ∀ x u r, x.length = m.state.nx → u.length = m.nu → m.eval x u = .ok r →
    ∃ slopes, m.deriv x u = .ok slopes

def Problem.Tame (p : Problem α) : Prop := ∀ m ∈ p.models, m.Tame

section Symbolic

variable [Scalar α] {state : Manifold} {cost : Expr α} {dynamics : Option (Dynamics α)} {nu : ℤ}
  {next : Option Manifold} {guard : Option (Guard α)} {m : Model α}

theorem Model.eval_of_ofExprs (h : ofExprs state cost dynamics nu next guard = .ok m)
    (x u : Vec α) :
    m.eval x u = (guard.elim (.ok ()) (·.check x)).map fun _ => (cost.eval x u,
      ((dynamics.map (·.embedding state)).map (·.map (Expr.eval x u))).getD x) := by
  unfold ofExprs at h
  split_ifs at h
  cases h
  cases guard with
  | none => rfl
  | some g =>
    dsimp only [Option.elim_some, bind, Except.bind]
    cases g.check x <;> rfl

theorem Model.tame_of_ofExprs (h : ofExprs state cost dynamics nu next guard = .ok m)
    (hg : ∀ g ∈ guard, g.fault.family.endsTrial = true) : m.Tame := by
  constructor
  · intro x u f _ _ hf
    rw [eval_of_ofExprs h] at hf
    cases guard with
    | none => cases hf
    | some g =>
      dsimp only [Option.elim_some, Guard.check] at hf
      split_ifs at hf with hle
      · cases hf
        exact hg g rfl
      · cases hf
  · intro x u r _ _ _
    unfold ofExprs at h
    split_ifs at h
    cases h
    exact ⟨_, rfl⟩

end Symbolic

namespace Problem

variable [Scalar α] {p : Problem α} {ks ks' : Knots α} {xs us : List (Vec α)} {c : α} {f : Fault}

theorem evaluateRunning_error {P : Fault → Prop} {ms : List (Model α)} {ks : List (Knot α)}
    {xs us : List (Vec α)}
    (h : AtKnots (fun m _ x u => ∀ f, m.eval x u = .error f → P f) ms ks xs us)
    (hf : (evaluateRunning ms ks xs us c).2 = .error f) : P f := by
  induction h generalizing c with
  | nil => cases hf
  | @cons m k x u ms ks xs us hm _ ih =>
    rw [evaluateRunning_cons] at hf
    cases he : m.eval x u with
    | error f' =>
      rw [he] at hf
      cases hf
      exact hm f he
    | ok r =>
      rw [he] at hf
      exact ih hf

theorem Tame.endsTrial (hp : p.Tame) (hw : p.WellFormed) (hs : p.Shaped xs us)
    (hf : p.Fits ks xs us) (he : (p.evaluate ks xs us).2 = .error f) :
    f.family.endsTrial = true := by
  have hrun : AtKnots (fun m _ x u => ∀ f, m.eval x u = .error f → f.family.endsTrial = true)
      p.running ks.running xs.dropLast us := by
    refine .of_forall hf.aligned fun t m k x u hm _ hx hu f hf => ?_
    obtain ⟨hxlen, hulen⟩ := hs.size hm hx hu
    exact (hp m (List.mem_of_getElem? (models_running hm))).eval x u f hxlen hulen hf
  rw [hf.evaluate_snd] at he
  cases hr : (evaluateRunning p.running ks.running xs.dropLast us 0).2 with
  | error f' =>
    rw [hr] at he
    cases he
    exact evaluateRunning_error hrun hr
  | ok total =>
    rw [hr] at he
    cases ht : p.terminal.eval (xs.getLastD []) [] with
    | error f' =>
      rw [ht] at he
      cases he
      have hlast := hp p.terminal (List.mem_of_getElem? p.models_terminal)
      refine hlast.eval _ [] _ ?_ hw.terminal.symm ht
      rw [hs.getLastD]
      exact hs.length_state p.models_terminal
    | ok r =>
      rw [ht] at he
      cases he

/-- Where a problem can be evaluated it can be linearized. -/
theorem Tame.linearize (hp : p.Tame) (hw : p.WellFormed) (hs : p.Shaped xs us)
    (hf : p.Fits ks xs us) (he : (p.evaluate ks xs us).2 = .ok c) :
    (p.linearize ks xs us).2 = .ok c := by
  obtain ⟨hrun, hlast⟩ := hf.evaluate_ok (Prod.ext rfl he)
  have hpass : (linearizeRunning p.running (p.evaluate ks xs us).1.running xs.dropLast us).2 =
      .ok () := by
    refine linearizeRunning_total (.of_forall hf.evaluate.aligned fun t m k x u hm hk hx hu => ?_)
    obtain ⟨hxlen, hulen⟩ := hs.size hm hx hu
    obtain ⟨k', x', u', -, hx', hu', heval⟩ := hrun.get hm
    obtain rfl : x = x' := Option.some.inj (hx.symm.trans hx')
    obtain rfl : u = u' := Option.some.inj (hu.symm.trans hu')
    exact (hp m (List.mem_of_getElem? (models_running hm))).deriv x u _ hxlen hulen heval
  have hterm : ∃ slopes, p.terminal.deriv (xs.getLastD []) [] = .ok slopes := by
    have htame := hp p.terminal (List.mem_of_getElem? p.models_terminal)
    refine htame.deriv _ [] _ ?_ hw.terminal.symm hlast
    rw [hs.getLastD]
    exact hs.length_state p.models_terminal
  obtain ⟨slopes, hslopes⟩ := hterm
  rw [linearize_snd, he]
  change (linearizeRunning _ _ _ _).2.bind _ = _
  rw [hpass, hslopes]
  rfl

end Problem

theorem Search.walk_total {σ : Type} [Scalar α] {P : σ → Prop}
    {trial : σ → α → σ × Except Fault (Trial α)}
    (htrial : ∀ w a, P w → P (trial w a).1 ∧ ∃ t, (trial w a).2 = .ok t) {d : α × α}
    {feasible : Bool} (alphas : List α) {w : σ} (hw : P w) (s : Search α) :
    ∃ a, (walk trial d feasible alphas w s).result = .ok a := by
  induction alphas generalizing w s with
  | nil => exact ⟨_, rfl⟩
  | cons b rest ih =>
    obtain ⟨hb, t, ht⟩ := htrial w b hw
    unfold walk
    dsimp only
    split <;> rename_i hres <;> rw [hres] at hb ht
    · cases ht
    · exact ih hb _
    · split
      · exact ⟨_, rfl⟩
      · exact ih hb _

variable [Scalar α] {p : Problem α}

theorem Solver.Directed.tryStep_ok {s w : Solver α} (h : s.Directed) (hp : s.problem.Tame)
    (hwf : s.problem.WellFormed) (hw : s.Trying w) (a : α) : ∃ t, (w.tryStep a).2 = .ok t := by
  obtain ⟨knots, attempt, hlen, rfl⟩ := hw
  have hshaped : s.problem.Shaped (s.trialAt a).xs (s.trialAt a).us :=
    Problem.shaped_trial a h.shaped h.dxs h.dus
  have hfits : s.problem.Fits knots (s.trialAt a).xs (s.trialAt a).us :=
    ⟨hlen.trans h.knots, hshaped.length_states, hshaped.length_controls⟩
  have hends (f : Fault)
      (he : (s.problem.evaluate knots (s.trialAt a).xs (s.trialAt a).us).2 = .error f) :
      f.family.endsTrial = true := hp.endsTrial hwf hshaped hfits he
  unfold tryStep
  dsimp only
  split <;> rename_i he
  · rw [if_pos (hends _ (congrArg Prod.snd he))]
    exact ⟨_, rfl⟩
  · exact ⟨_, rfl⟩

theorem Solver.Directed.searchStep_ok {s : Solver α} (h : s.Directed) (hp : s.problem.Tame)
    (hwf : s.problem.WellFormed) : ∃ a, s.searchStep.result = .ok a :=
  Search.walk_total (P := s.Trying)
    (fun _ a hw => ⟨hw.tryStep a, h.tryStep_ok hp hwf hw a⟩) _ ⟨_, _, rfl, rfl⟩ _

namespace Run

variable {r r' : Run α} {fuel iter left : ℕ}

theorem step_next (h : r.solver.Directed) (hp : r.solver.problem.Tame)
    (hwf : r.solver.problem.WellFormed) :
    ∃ a r', r.step = .next r' ∧ r.solver.Steps a r'.solver := by
  obtain ⟨a, ha⟩ := h.predict.searchStep_ok hp hwf
  obtain ⟨r', hr', -, -, -, hsteps⟩ := step_steps h ha
  exact ⟨a, r', hr', hsteps⟩

/-- A run at the start of an iteration, at a trajectory that can be evaluated. -/
structure Underway (p : Problem α) (r : Run α) : Prop where
  holds : r.Holds Solver.Sound
  problem : r.solver.problem = p
  evaluated : ∃ cost, (p.evaluate r.solver.knots r.solver.candidate.xs
    r.solver.candidate.us).2 = .ok cost
  callbacks : .table 0 ∉ r.solver.callbacks

end Run

/-- A phase that does not end with a fault. -/
def Flow.Contained : Flow α → Prop
  | .done _ (.raised _) => False
  | _ => True

omit [Scalar α] in
theorem Flow.Contained.andThen {flow : Flow α} {phase : Run α → Flow α} (h : flow.Contained)
    (hphase : ∀ r, flow = .next r → (phase r).Contained) : (flow.andThen phase).Contained := by
  cases flow with
  | next r => exact hphase r rfl
  | done r ending => exact h

namespace Run

variable {r r' : Run α} {fuel iter left : ℕ}

omit [Scalar α] in
theorem contained_finished (r : Run α) (status : SolveStatus) : (r.finished status).Contained :=
  trivial

theorem contained_resume {code : ErrorCode}
    (h : ∀ r : Run α, (factorize fuel false r).Contained) : (r.resume fuel code).Contained := by
  unfold resume
  split_ifs
  · trivial
  · exact contained_finished _ _
  · exact h _

theorem contained_factorize_again (fuel : ℕ) (r : Run α) :
    (factorize fuel false r).Contained := by
  induction fuel generalizing r with
  | zero => trivial
  | succ fuel ih =>
    rw [factorize_succ, Solver.computeDirection_false]
    exact contained_resume ih

theorem Underway.numbered (h : r.Underway p) (iter : ℕ) :
    ({ r with solver := r.solver.numbered iter } : Run α).Underway p :=
  ⟨h.holds.numbered iter, h.problem, h.evaluated, h.callbacks⟩

theorem Underway.contained_factorize (h : r.Underway p) (hp : p.Tame) (hwf : p.WellFormed)
    (fuel : ℕ) : (factorize fuel true r).Contained := by
  obtain ⟨cost, hcost⟩ := h.evaluated
  have hsound := h.holds.solver
  obtain rfl := h.problem
  have hlin := hp.linearize hwf hsound.shaped hsound.fits hcost
  cases fuel with
  | zero => trivial
  | succ fuel =>
    have hl : ∃ s, r.solver.linearize = (s, .ok cost) := by
      rcases hk : r.solver.problem.linearize r.solver.knots r.solver.candidate.xs
        r.solver.candidate.us with ⟨knots, res⟩
      rw [hk] at hlin
      obtain rfl : res = .ok cost := hlin
      unfold Solver.linearize
      rw [hk]
      exact ⟨_, rfl⟩
    obtain ⟨s, hs⟩ := hl
    rw [factorize_succ, Solver.computeDirection_true hs]
    exact contained_resume fun r => contained_factorize_again fuel r

theorem contained_adapt (r : Run α) : r.adapt.Contained := by
  rw [adapt_eq]
  change (escalate { r with solver := r.solver.adapted }).Contained
  unfold escalate unlessSaturated
  split_ifs
  · exact contained_finished _ _
  · trivial
  · trivial

theorem contained_assess (h : .table 0 ∉ r.solver.callbacks) : r.assess.Contained := by
  have hquiet : (Callback.observeAll r.solver.measureStop r.solver.measureStop.callbacks).2 =
    none := Callback.observeAll_snd _ h
  rcases assess_quiet hquiet with ⟨-, ha⟩ | ⟨-, ha⟩
  · rw [ha]
    exact contained_finished _ _
  · rw [ha]
    trivial

theorem Underway.step_next (h : r.Underway p) (hp : p.Tame) (hwf : p.WellFormed)
    (hr' : factorize fuel true { r with solver := r.solver.numbered iter } = .next r') :
    ∃ a r'', r'.step = .next r'' ∧ r'.solver.Steps a r''.solver := by
  have hdirected := holds_factorize fuel (h.holds.numbered iter)
  have hkept := preserved_factorize fuel true { r with solver := r.solver.numbered iter }
  rw [hr'] at hdirected hkept
  have hprob : r'.solver.problem = p := hkept.problem.trans h.problem
  subst hprob
  exact Run.step_next hdirected.solver hp hwf

theorem Underway.contained_iterate (h : r.Underway p) (hp : p.Tame) (hwf : p.WellFormed)
    (fuel iter : ℕ) : (r.iterate fuel iter).Contained := by
  have hbefore : (r.unassessed fuel iter).Contained := by
    refine (((h.numbered iter).contained_factorize hp hwf fuel).andThen fun r₁ hr₁ => ?_).andThen
      fun r₂ _ => contained_adapt r₂
    obtain ⟨a, r₂, hr₂, -⟩ := h.step_next hp hwf hr₁
    rw [hr₂]
    trivial
  rw [iterate_eq]
  refine hbefore.andThen fun r₃ hr₃ => contained_assess ?_
  rw [(marked_of_unassessed hr₃).callbacks]
  exact h.callbacks

/-- The next iteration starts from a trajectory that has just been evaluated, or from the last. -/
theorem Underway.iterate (h : r.Underway p) (hr' : r.iterate fuel iter = .next r') :
    r'.Underway p := by
  have hcosted := holds_iterate h.holds fuel iter
  have hkept := preserved_iterate fuel iter r
  rw [hr'] at hcosted hkept
  have hprob : r'.solver.problem = p := hkept.problem.trans h.problem
  have hcost := hcosted.solver.cost
  rw [Solver.CostIsCurrent, hprob] at hcost
  refine ⟨hcosted.sound, hprob, ⟨_, hcost⟩, ?_⟩
  obtain ⟨r₁, -, -, hobs, -⟩ := observes_of_next hr'
  rw [hobs.solver, hobs.callbacks]
  exact h.callbacks

theorem Underway.visits {r₀ : Run α} (h : r₀.Underway p) (hr : r₀.Visits fuel iter r) :
    r.Underway p := by
  induction hr with
  | first => exact h
  | next _ hnext ih => exact ih.iterate hnext

theorem Underway.contained_loop (h : r.Underway p) (hp : p.Tame) (hwf : p.WellFormed)
    (fuel left iter : ℕ) : ∀ f, (r.loop fuel left iter).2 ≠ .raised f := by
  induction left generalizing r iter with
  | zero => exact fun f => Ending.noConfusion
  | succ left ih =>
    have hiter := h.contained_iterate hp hwf fuel iter
    unfold loop
    cases hi : r.iterate fuel iter with
    | next r' => exact ih (h.iterate hi) (iter + 1)
    | done e ending =>
      rw [hi] at hiter
      rintro f rfl
      exact hiter

theorem Underway.ended (h : r.Underway p) (hp : p.Tame) (hwf : p.WellFormed) {e : Run α}
    {ending : Ending} (hdone : r.iterate fuel iter = .done e ending) :
    ending = .outOfFuel ∨
    (e.solver.stats.status = .maxRegularization ∧
      e.solver.xreg.saturated e.solver.options = true) ∨
    (e.solver.stats.status = .success ∧ e.solver.Converged) := by
  have hsafe := h.contained_iterate hp hwf fuel iter
  rw [hdone] at hsafe
  cases ending with
  | outOfFuel => exact .inl rfl
  | raised f => exact hsafe.elim
  | returned b =>
    right
    rcases overdamped_or_observes hdone with
      ⟨-, r', hover, hend⟩ | ⟨r₁, r', -, -, hobs, hc, hend⟩
    · obtain rfl := congrArg Prod.fst hend
      exact .inl ⟨rfl, hover.saturated⟩
    · obtain rfl := congrArg Prod.fst hend
      refine .inr ⟨rfl, ?_⟩
      rw [← hobs.solver] at hc
      exact hc

theorem Underway.start (h : r.Underway p) : ∃ r', r.start = (r', none) ∧ r'.Underway p := by
  have hholds := holds_start h.holds
  have hkept := r.kept_start
  have hprob := r.preserved_start.problem.trans h.problem
  obtain ⟨cost, hcost⟩ := h.evaluated
  have hnone : r.start.2 = none := by
    rw [start_eq, h.problem, hcost]
    split <;> rfl
  have hcost' : (p.evaluate r.start.1.solver.knots r.start.1.solver.candidate.xs
      r.start.1.solver.candidate.us).2 = .ok cost := by
    have hfits := hholds.solver.fits
    have hfits₀ := h.holds.solver.fits
    rw [Solver.Fits, hprob, hkept.candidate] at hfits
    rw [Solver.Fits, h.problem] at hfits₀
    rw [hkept.candidate, hfits.evaluate_congr hfits₀, hcost]
  exact ⟨r.start.1, Prod.ext rfl hnone, hholds, hprob, ⟨cost, hcost'⟩,
    hkept.callbacks ▸ h.callbacks⟩

end Run

namespace Solver

section

variable {s : Solver α} {xs us : List (Tensor α)} {c : Trajectory α} {feasible : Bool}
  {reginit : Weight α}

theorem underway_begun (hf : s.Fits) (hs : s.problem.Shaped c.xs c.us)
    (hcallbacks : .table 0 ∉ s.callbacks) {cost : α}
    (hcost : (s.problem.evaluate s.problem.fresh c.xs c.us).2 = .ok cost) (feasible : Bool)
    (reginit : Weight α) :
    Run.Underway s.problem { solver := s.begun c feasible reginit, events := [] } := by
  have hfits : s.problem.Fits s.knots c.xs c.us :=
    ⟨hf.knots, hs.length_states, hs.length_controls⟩
  have hfresh : s.problem.Fits s.problem.fresh c.xs c.us :=
    ⟨by simp [Problem.fresh, Problem.horizon], hfits.states, hfits.controls⟩
  exact ⟨hf.holds_begun hs feasible reginit, rfl,
    ⟨cost, (hfits.evaluate_congr hfresh).trans hcost⟩, hcallbacks⟩

theorem Iterates.underway {fuel iter : ℕ} {maxiter : ℤ} {r r₀ : Run α}
    (h : s.Iterates fuel xs us maxiter feasible reginit iter r)
    (htraj : s.problem.trajectory xs us = .ok c)
    (hstart : Run.start { solver := s.begun c feasible reginit, events := [] } = (r₀, none))
    (hr₀ : r₀.Underway s.problem) : r.Underway s.problem := by
  obtain ⟨⟨c', r₁, hc', hstart', hvisits⟩, -⟩ := h
  obtain rfl : c = c' := Except.ok.inj (htraj.symm.trans hc')
  obtain rfl : r₀ = r₁ := congrArg Prod.fst (hstart.symm.trans hstart')
  exact hr₀.visits hvisits

end

/-- What a solve makes of faults. -/
structure Withstands (s : Solver α) (fuel : ℕ) (xs us : List (Tensor α)) (maxiter : ℤ)
    (feasible : Bool) (reginit : Weight α) : Prop where
  ending : (s.solve fuel xs us maxiter feasible reginit).2 = .outOfFuel ∨
    ∃ b, (s.solve fuel xs us maxiter feasible reginit).2 = .returned b ∧
      (s.solve fuel xs us maxiter feasible reginit).1.solver.stats.status ≠ .unsolved ∧
      (b = true ↔
        (s.solve fuel xs us maxiter feasible reginit).1.solver.stats.status = .success)
  /-- A search ends with a step or where it began, however many of its trials fail. -/
  stepped : ∀ iter r r', s.Iterates fuel xs us maxiter feasible reginit iter r →
    Run.factorize fuel true { r with solver := r.solver.numbered iter } = .next r' →
    ∃ a r'', r'.step = .next r'' ∧ r'.solver.Steps a r''.solver
  ended : ∀ iter r e ending, s.Iterates fuel xs us maxiter feasible reginit iter r →
    r.iterate fuel iter = .done e ending →
    ending = .outOfFuel ∨
    (e.solver.stats.status = .maxRegularization ∧
      e.solver.xreg.saturated e.solver.options = true) ∨
    (e.solver.stats.status = .success ∧ e.solver.Converged)

variable {xs us : List (Tensor α)} {c : Trajectory α}

/-- No fault of a model gets out of a solve, whatever the options and the past of the solver. -/
theorem withstands_after {x0 : Tensor α} (hx0 : x0.Valid) {running : List (Model α)}
    {terminal : Model α} (hbuild : Problem.build x0 running terminal = .ok p) (hp : p.Tame)
    (o : Options α) (past : List (Operation α))
    (hcallbacks : .table 0 ∉ ((create p o).after past).callbacks) (hx : ∀ a ∈ xs, a.Valid)
    (hu : ∀ a ∈ us, a.Valid) (htraj : p.trajectory xs us = .ok c) {cost : α}
    (hcost : (p.evaluate p.fresh c.xs c.us).2 = .ok cost) (fuel : ℕ) (maxiter : ℤ)
    (feasible : Bool) (reginit : Weight α) :
    ((create p o).after past).Withstands fuel xs us maxiter feasible reginit := by
  have hwf := Problem.wellFormed_of_build hx0 hbuild
  have hprob := problem_after (p := p) (o := o) past
  have hf := fits_after (p := p) (o := o) past
  generalize (create p o).after past = s at *
  subst hprob
  have hshaped := Problem.shaped_trajectory htraj hx hu
  obtain ⟨r₀, hstart, hr₀⟩ :=
    (underway_begun hf hshaped hcallbacks hcost feasible reginit).start
  constructor
  case ending =>
    have hsafe := hr₀.contained_loop hp hwf fuel maxiter.toNat 0
    have hsolve : s.solve fuel xs us maxiter feasible reginit = r₀.loop fuel maxiter.toNat 0 := by
      rw [solve_eq htraj, hstart]
    cases hend : (s.solve fuel xs us maxiter feasible reginit).2 with
    | outOfFuel => exact .inl rfl
    | raised f => exact absurd (hsolve ▸ hend) (hsafe f)
    | returned b =>
      obtain ⟨c', r, e, status, -, hcourse, hfinish⟩ := course_of_returned hend
      rw [hfinish] at hend ⊢
      refine .inr ⟨b, rfl, hcourse.ne_unsolved, ?_⟩
      have hb : decide (status = .success) = b := Ending.returned.inj hend
      rw [← hb]
      exact decide_eq_true_iff
  case stepped =>
    exact fun iter r r' hr hr' => (hr.underway htraj hstart hr₀).step_next hp hwf hr'
  case ended =>
    exact fun iter r e ending hr hdone => (hr.underway htraj hstart hr₀).ended hp hwf hdone

theorem withstands_after_log :
    let guard : Guard ℝ := { i := 0, bound := 0, fault := .raised .domain none "no logarithm" }
    let move : Dynamics ℝ := .entries [.add (.state 0) (.control 0)]
    ∃ m t p, Model.ofExprs (.euclidean 1) (.apply .log (.state 0)) (some move) 1 none (some guard) =
        .ok m ∧
      Model.ofExprs (.euclidean 1) (.pow (.state 0) 2) none 0 none none = .ok t ∧
      Problem.build (.ofVec [1]) [m] t = .ok p ∧ m.eval [0] [0] = .error guard.fault ∧
      ((create p .lenient).after [.tryStep 1, .setCallbacks [.table 10]]).Withstands 5
        [.ofVec [1], .ofVec [1]] [.ofVec [0]] 10 true none := by
  intro guard move
  obtain ⟨m, hm⟩ : ∃ m, Model.ofExprs (.euclidean 1) (.apply .log (.state 0)) (some move) 1 none
      (some guard) = .ok m := ⟨_, rfl⟩
  obtain ⟨t, ht⟩ : ∃ t : Model ℝ,
      Model.ofExprs (.euclidean 1) (.pow (.state 0) 2) none 0 none none = .ok t := ⟨_, rfl⟩
  let p : Problem ℝ := { x0 := [1], running := [m], terminal := t }
  have hdims : m.state = .euclidean 1 ∧ m.next = .euclidean 1 ∧ m.nu = 1 ∧ t.state = .euclidean 1 ∧
      t.nu = 0 := by
    cases hm
    cases ht
    exact ⟨rfl, rfl, rfl, rfl, rfl⟩
  obtain ⟨hstate, hnext, hnu, hstate', hnu'⟩ := hdims
  have hbuild : Problem.build (.ofVec [1]) [m] t = .ok p := by
    simp [Problem.build, Problem.brokenLink, hstate, hnext, hstate', hnu', Tensor.ofVec,
      Manifold.nx, p]
  have htame : p.Tame := by
    intro m' hm'
    rcases List.mem_pair.mp hm' with rfl | rfl
    · exact Model.tame_of_ofExprs hm (by rintro g ⟨⟩; rfl)
    · exact Model.tame_of_ofExprs ht (by rintro g ⟨⟩)
  have hcheck (a : ℝ) : m.eval [a] [0] = if a ≤ 0 then .error guard.fault
      else .ok (Real.log a, [a + 0]) := by
    have hguard : guard.check [a] = if a ≤ 0 then .error guard.fault else .ok () :=
      if_congr ExactScalar.le_iff rfl rfl
    rw [Model.eval_of_ofExprs hm, Option.elim_some, hguard]
    split_ifs <;> rfl
  have hraised : m.eval [0] [0] = .error guard.fault := by
    rw [hcheck, if_pos le_rfl]
  have hshaped : p.Shaped [[1], [1]] [[0]] := by
    constructor
    · simp [Problem.models, p, hstate, hstate', Manifold.nx]
    · simp [p, hnu]
  have hcost : ∃ cost, (p.evaluate p.fresh [[1], [1]] [[0]]).2 = .ok cost := by
    have hfits : p.Fits p.fresh [[1], [1]] [[0]] := ⟨rfl, rfl, rfl⟩
    have hone : m.eval [1] [0] = _ := (hcheck 1).trans (if_neg one_pos.not_ge)
    rw [hfits.evaluate_snd]
    change ∃ cost, (Problem.evaluateRunning [m] [m.fresh] [[1]] [[0]] 0).2.bind _ = _
    rw [Problem.evaluateRunning_cons, hone]
    change ∃ cost, (t.eval [1] []).map _ = .ok cost
    rw [Model.eval_of_ofExprs ht]
    exact ⟨_, rfl⟩
  have hcallbacks : .table 0 ∉ ((create p .lenient).after
      [.tryStep 1, .setCallbacks [.table 10]]).callbacks := by
    change .table 0 ∉ [Callback.table 10]
    decide
  obtain ⟨cost, hcost⟩ := hcost
  exact ⟨m, t, p, hm, ht, hbuild, hraised, withstands_after (Tensor.valid_ofVec _) hbuild htame _
    [.tryStep 1, .setCallbacks [.table 10]] hcallbacks (Tensor.valid_of_mem_map [[1], [1]])
    (Tensor.valid_of_mem_map [[0]]) (Problem.trajectory_ofVec hshaped) hcost 5 10 true none⟩

end Solver
end Shooting
