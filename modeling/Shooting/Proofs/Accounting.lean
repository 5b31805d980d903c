import Shooting.Proofs.Convergence
import Shooting.Proofs.Relinearization

/-! # Accounting for the cost

Trials overwrite the records of the knots and the attempt, whether they fail or not. All the same
the cost that a solver holds is that of its candidate whenever an observer looks at it and whenever
a solve returns: an accepted trial is taken over as a whole, and a search without success leaves the
trajectory and its cost as they were.
-/

namespace Shooting

variable {α : Type} [Scalar α]

def Solver.CostIsCurrent (s : Solver α) : Prop :=
  (s.problem.evaluate s.knots s.candidate.xs s.candidate.us).2 = .ok s.cost

namespace Solver

structure Sound (s : Solver α) : Prop where
  knots : s.knots.running.length = s.problem.horizon
  shaped : s.problem.Shaped s.candidate.xs s.candidate.us

structure Costed (s : Solver α) : Prop extends s.Sound where
  cost : s.CostIsCurrent

structure Solvable (s : Solver α) : Prop extends s.Costed where
  rows : s.layout.nprimal ≤ s.system.matrix.length

/-- There is an increment for every state and every control of the candidate. -/
structure Directed (s : Solver α) : Prop extends s.Costed where
  dxs : s.direction.dxs.map List.length = s.problem.layout.ndxs
  dus : s.direction.dus.map List.length = s.problem.layout.nus

variable {s s' : Solver α} {a cost : α}

omit [Scalar α] in
theorem Sound.fits (h : s.Sound) : s.Fits :=
  ⟨h.knots, h.shaped.length_states, h.shaped.length_controls⟩

omit [Scalar α] in
theorem Sound.of_eq (h : s.Sound) (hp : s'.problem = s.problem) (hc : s'.candidate = s.candidate)
    (hk : s'.knots.running.length = s.knots.running.length) : s'.Sound := by
  obtain ⟨hknots, hshaped⟩ := h
  constructor
  · rw [hk, hp, hknots]
  · rw [hp, hc]
    exact hshaped

theorem Costed.of_eq (h : s.Costed) (hp : s'.problem = s.problem) (hc : s'.candidate = s.candidate)
    (hcost : s'.cost = s.cost) (hk : s'.knots.running.length = s.knots.running.length) :
    s'.Costed := by
  have hs := h.toSound.of_eq hp hc hk
  refine ⟨hs, ?_⟩
  have hcongr := Problem.Fits.evaluate_congr (hs.fits : s'.problem.Fits _ _ _)
    (⟨h.knots.trans (by rw [hp]), hs.fits.states, hs.fits.controls⟩ :
      s'.problem.Fits s.knots s'.candidate.xs s'.candidate.us)
  rw [CostIsCurrent, hcongr, hp, hc, hcost]
  exact h.cost

theorem Sound.linearize (h : s.Sound) (hl : s.linearize = (s', .ok cost)) : s'.Solvable := by
  obtain ⟨knots, hknots, rfl⟩ := linearize_eq_ok hl
  obtain ⟨hat, hcost⟩ := h.fits.linearize_ok hknots
  have hlen : knots.running.length = s.problem.horizon := hat.running.length_eq
  have hs : ({ s with knots } : Solver α).Sound := ⟨hlen, h.shaped⟩
  constructor
  · refine ⟨⟨hlen, h.shaped⟩, ?_⟩
    exact (Problem.Fits.evaluate_congr hs.fits h.fits).trans hcost
  · have hrows : (System.assemble s.layout knots
        (s.problem.gaps knots s.candidate.xs)).matrix.length = s.layout.nprimal + s.layout.ndx := by
      simp [System.assemble, Layout.length_slots]
    rw [System.damp, Mat.length_setDiagonal, hrows]
    exact Nat.le_add_right _ _

theorem Solvable.increase (h : s.Solvable) : s.increase.Solvable :=
  ⟨h.toCosted.of_eq rfl rfl rfl rfl, h.rows⟩

theorem Solvable.redamp (h : s.Solvable) : s.redamp.Solvable := by
  refine ⟨h.toCosted.of_eq rfl rfl rfl rfl, ?_⟩
  rw [Solver.redamp, System.damp, Mat.length_setDiagonal]
  exact h.rows

theorem Solvable.factorize (h : s.Solvable) : s.factorize.1.Solvable := by
  rw [factorize_fst]
  exact ⟨h.toCosted.of_eq rfl rfl rfl rfl, h.rows⟩

theorem Solvable.directed (h : s.Solvable) (hcode : s.factorize.2 = .noError) :
    s.factorize.1.Directed := by
  have hfactored := h.factorize
  obtain ⟨t, ht⟩ : ∃ t, s.factorize = (t, .noError) := ⟨_, Prod.ext rfl hcode⟩
  rw [ht] at hfactored ⊢
  obtain ⟨primal, dual, hsolve, rfl⟩ := factorize_eq_noError ht
  have hlen : primal.length = s.layout.nprimal := RangeSpace.length_of_solve? hsolve h.rows
  constructor
  · exact hfactored.toCosted
  · exact Layout.lengths_split (Layout.length_take_ndx hlen)
  · exact Layout.lengths_split (Layout.length_drop_ndx hlen)

/-- What trials lead to: other records and another attempt. -/
def Trying (s w : Solver α) : Prop :=
  ∃ knots attempt, knots.running.length = s.knots.running.length ∧ w = { s with knots, attempt }

theorem Trying.tryStep {w : Solver α} (h : s.Trying w) (a : α) : s.Trying (w.tryStep a).1 := by
  obtain ⟨knots, attempt, hlen, rfl⟩ := h
  unfold Solver.tryStep
  dsimp only
  split <;> rename_i he <;> exact ⟨_, _, (Problem.length_of_evaluate he).trans hlen, rfl⟩

/-- A trial that measures a decrease has evaluated its whole trajectory, at a finite cost. -/
theorem tryStep_eq_ok {dV : α} (h : s.tryStep a = (s', .ok (.ok dV))) :
    ∃ cost, (s.problem.evaluate s.knots (s.trialAt a).xs (s.trialAt a).us).2 = .ok cost ∧
      Scalar.isFinite cost = true ∧ s' = s.tried a cost ∧ dV = s.cost - cost := by
  unfold tryStep at h
  dsimp only at h
  split at h
  · split at h <;> cases h
  · rename_i knots cost he
    split at h
    · rename_i hfin
      cases h
      refine ⟨cost, congrArg Prod.snd he, hfin, ?_, rfl⟩
      rw [tried, he]
    · cases h

end Solver

theorem Search.walk_accepted {σ : Type} {P : σ → Prop} {trial : σ → α → σ × Except Fault (Trial α)}
    (htrial : ∀ w a, P w → P (trial w a).1) {d : α × α} {feasible : Bool} (alphas : List α) {w : σ}
    (hw : P w) {s : Search α} {a : α} (h : (walk trial d feasible alphas w s).result = .ok a)
    (hacc : (walk trial d feasible alphas w s).search.accepted = true) :
    a ∈ alphas ∧ ∃ w', P w' ∧ trial w' a =
      ((walk trial d feasible alphas w s).state,
        .ok (.ok (walk trial d feasible alphas w s).search.dV)) := by
  -- No trial follows the one that passed, so state and decrease are the ones it has left.
  induction alphas generalizing w s with
  | nil => cases hacc
  | cons b rest ih =>
    have hb := htrial w b hw
    unfold walk at h hacc ⊢
    dsimp only at h hacc ⊢
    split at h <;> rename_i ht <;> rw [ht] at hb hacc
    · cases h
    · obtain ⟨ha, hlast⟩ := ih hb h hacc
      exact ⟨List.mem_cons_of_mem _ ha, hlast⟩
    · split at h <;> rename_i hv
      · obtain rfl : b = a := Except.ok.inj h
        exact ⟨List.mem_cons_self, w, hw, ht⟩
      · simp only [hv] at hacc ⊢
        obtain ⟨ha, hlast⟩ := ih hb h hacc
        exact ⟨List.mem_cons_of_mem _ ha, hlast⟩

namespace Solver

variable {s s' : Solver α} {a : α}

def noted (s : Solver α) (a : α) : Solver α :=
  { s with steplength := a, dV := s.search.dV, dVexp := s.search.dVexp }

/-- What has become of a solver once a search along its direction has ended at a step length: it has
moved to the accepted trial, or stays where it was. -/
structure Steps (s : Solver α) (a : α) (s' : Solver α) : Prop where
  steplength : s'.steplength = a
  current : s'.CostIsCurrent
  shaped : s.problem.Shaped s'.candidate.xs s'.candidate.us
  states : s'.search.accepted = true → ∀ t m, s.problem.models[t]? = some m →
    s'.candidate.xs.getD t [] =
      m.state.integrate (s.candidate.xs.getD t []) (Vec.scale a (s.direction.dxs.getD t []))
  controls : s'.search.accepted = true → ∀ t < s.problem.horizon,
    s'.candidate.us.getD t [] =
      Vec.add (s.candidate.us.getD t []) (Vec.scale a (s.direction.dus.getD t []))
  finite : s'.search.accepted = true → Scalar.isFinite s'.cost = true
  decrease : s'.search.accepted = true → s'.dV = s.cost - s'.cost
  rejected : s'.search.accepted = false →
    s'.candidate = s.candidate ∧ s'.wasFeasible = s.wasFeasible ∧ s'.cost = s.cost

theorem searchStep_accepted (h : s.searchStep.result = .ok a)
    (hacc : s.searchStep.state.search.accepted = true) :
    a ∈ s.search.alphas ∧ ∃ w cost, s.Trying w ∧
      (s.problem.evaluate w.knots (s.trialAt a).xs (s.trialAt a).us).2 = .ok cost ∧
      Scalar.isFinite cost = true ∧ s.searchStep.search.dV = s.cost - cost ∧
      s.searchStep.state = { w.tried a cost with search := s.searchStep.search } := by
  obtain ⟨ha, w, hw, ht⟩ := Search.walk_accepted (P := s.Trying) (fun w a hw => hw.tryStep a) _
    ⟨_, _, rfl, rfl⟩ h hacc
  obtain ⟨cost, he, hfin, hstate, hdV⟩ := tryStep_eq_ok ht
  have htrying := hw
  obtain ⟨knots, attempt, -, rfl⟩ := hw
  refine ⟨ha, _, cost, htrying, he, hfin, hdV, ?_⟩
  exact congrArg (fun state => { state with search := s.searchStep.search }) hstate

theorem searchStep_trying (s : Solver α) : ∃ w, s.Trying w ∧
    s.searchStep.state = { w with search := s.searchStep.search } :=
  ⟨_, Search.walk_induction (P := s.Trying) (fun _ a hw => hw.tryStep a) _ ⟨_, _, rfl, rfl⟩ _, rfl⟩

theorem Directed.predict (h : s.Directed) : s.predict.Directed :=
  ⟨h.toCosted.of_eq rfl rfl rfl rfl, h.dxs, h.dus⟩

theorem Steps.of_predict (h : s.predict.Steps a s') : s.Steps a s' :=
  ⟨h.steplength, h.current, h.shaped, h.states, h.controls, h.finite, h.decrease, h.rejected⟩

/-- A trial of the right shape is taken over as it stands. -/
theorem Directed.promote {w : Solver α} {cost : α} (h : s.Directed) (hw : s.Trying w)
    (he : (s.problem.evaluate w.knots (s.trialAt a).xs (s.trialAt a).us).2 = .ok cost)
    (hfin : Scalar.isFinite cost = true) {search : Search α} (hdV : search.dV = s.cost - cost)
    (hacc : search.accepted = true) :
    ∃ s', (noted { w.tried a cost with search } a).promote = (s', .ok ()) ∧
      s'.search = search ∧ s'.Costed ∧ s.Steps a s' := by
  obtain ⟨knots, attempt, hlen, rfl⟩ := hw
  have hshaped : s.problem.Shaped (s.trialAt a).xs (s.trialAt a).us :=
    Problem.shaped_trial a h.shaped h.dxs h.dus
  have hevaluated := Problem.length_evaluate s.problem knots (s.trialAt a).xs (s.trialAt a).us
  have hknots : knots.running.length = s.problem.horizon := hlen.trans h.knots
  have hfits : s.problem.Fits knots (s.trialAt a).xs (s.trialAt a).us :=
    ⟨hknots, hshaped.length_states, hshaped.length_controls⟩
  -- The records are those that the trial has left; a second evaluation has the same outcome.
  have hcost := (Problem.Fits.evaluate_congr hfits.evaluate hfits).trans he
  refine ⟨_, promote_shaped hshaped, rfl, ⟨⟨hevaluated.trans hknots, hshaped⟩, hcost⟩, ?_⟩
  have hdx : s.direction.dxs.length = s.problem.horizon + 1 := by
    simpa [Layout.length_ndxs] using congrArg List.length h.dxs
  have hdu : s.direction.dus.length = s.problem.horizon := by
    simpa [Layout.length_nus] using congrArg List.length h.dus
  constructor
  case steplength => rfl
  case current => exact hcost
  case shaped => exact hshaped
  case states =>
    intro _ t m hm
    exact Problem.getD_moveStates a h.shaped.length_states hdx hm
  case controls =>
    intro _ t ht
    exact getD_moveControls a (h.shaped.length_controls.trans hdu.symm)
      (ht.trans_eq h.shaped.length_controls.symm)
  case finite => exact fun _ => hfin
  case decrease => exact fun _ => hdV
  case rejected =>
    intro hrej
    cases hacc.symm.trans hrej

theorem Costed.stay {w : Solver α} (h : s.Costed) (hw : s.Trying w) {search : Search α}
    (hrej : search.accepted = false) :
    (noted { w with search } a).Costed ∧ s.Steps a (noted { w with search } a) := by
  obtain ⟨knots, attempt, hlen, rfl⟩ := hw
  have hcosted : (noted { s with knots, attempt, search } a).Costed := h.of_eq rfl rfl rfl hlen
  have hnot {P : Prop} (hacc : search.accepted = true) : P := by
    cases hrej.symm.trans hacc
  exact ⟨hcosted, rfl, hcosted.cost, h.shaped, hnot, hnot, hnot, hnot, fun _ => ⟨rfl, rfl, rfl⟩⟩

end Solver

/-- Whenever a recorder was called, the cost was current. -/
def Run.Recorded (r : Run α) : Prop := ∀ s, .recorded s ∈ r.events → s.CostIsCurrent

structure Run.Holds (P : Solver α → Prop) (r : Run α) : Prop where
  solver : P r.solver
  recorded : r.Recorded

/-- A run that has ended, with the cost current if it was not cut short. -/
structure Run.Ended (r : Run α) (ending : Ending) : Prop where
  recorded : r.Recorded
  current : ∀ b, ending = .returned b → r.solver.CostIsCurrent

def Flow.Holds (P : Solver α → Prop) : Flow α → Prop
  | .next r => r.Holds P
  | .done r ending => r.Ended ending

theorem Flow.Holds.andThen {P Q : Solver α → Prop} {flow : Flow α} {phase : Run α → Flow α}
    (h : flow.Holds P) (hphase : ∀ r : Run α, r.Holds P → (phase r).Holds Q) :
    (flow.andThen phase).Holds Q := by
  cases flow with
  | next r => exact hphase r h
  | done r ending => exact h

namespace Run

variable {P Q : Solver α → Prop} {r : Run α} {events : List (Event α)}

theorem Recorded.report (h : r.Recorded)
    (he : ∀ s, .recorded s ∈ events → s.CostIsCurrent) : (r.report events).Recorded :=
  fun s hs => (List.mem_append.mp hs).elim (h s) (he s)

theorem Recorded.ended (h : r.Recorded) {ending : Ending} (hne : ∀ b, ending ≠ .returned b) :
    r.Ended ending := ⟨h, fun b hb => absurd hb (hne b)⟩

theorem Holds.mono (h : r.Holds P) {s : Solver α} (hs : Q s) :
    ({ r with solver := s } : Run α).Holds Q := ⟨hs, h.recorded⟩

theorem Holds.finish (h : r.Holds Solver.Costed) (status : SolveStatus) :
    (r.finish status).1.Ended (r.finish status).2 := by
  constructor
  · exact Recorded.report h.recorded (by simp)
  · rintro b -
    exact h.solver.cost

theorem Holds.finished (h : r.Holds Solver.Costed) (status : SolveStatus) :
    (r.finished status).Holds P := h.finish status

theorem holds_resume (h : r.Holds Solver.Solvable) {fuel : ℕ} {code : ErrorCode}
    (hdir : code = .noError → r.solver.Directed)
    (hnext : ∀ r : Run α, r.Holds Solver.Solvable →
      (factorize fuel false r).Holds Solver.Directed) :
    (r.resume fuel code).Holds Solver.Directed := by
  unfold resume
  split
  · exact h.mono (hdir ‹_›)
  · split
    · exact Holds.finished ⟨h.solver.toCosted, h.recorded⟩ _
    · exact hnext _ ⟨h.solver.increase, Recorded.report h.recorded (by simp)⟩

theorem holds_factorize_again (fuel : ℕ) (h : r.Holds Solver.Solvable) :
    (factorize fuel false r).Holds Solver.Directed := by
  induction fuel generalizing r with
  | zero => exact h.recorded.ended (by simp)
  | succ fuel ih =>
    have hredamp := h.solver.redamp
    rw [factorize_succ, Solver.computeDirection_false]
    exact holds_resume (h.mono hredamp.factorize) hredamp.directed fun r h => ih h

theorem holds_factorize (fuel : ℕ) (h : r.Holds Solver.Sound) :
    (factorize fuel true r).Holds Solver.Directed := by
  cases fuel with
  | zero => exact h.recorded.ended (by simp)
  | succ fuel =>
    rw [factorize_succ]
    rcases hl : r.solver.linearize with ⟨s, f | cost⟩
    · have hd : r.solver.computeDirection true = (s, .error f) := by
        rw [Solver.computeDirection, if_pos rfl, hl]
      rw [hd]
      exact Recorded.ended (r := { r with solver := s }) h.recorded (by simp)
    · have hs := h.solver.linearize hl
      rw [Solver.computeDirection_true hl]
      exact holds_resume (h.mono hs.factorize) hs.directed fun r h => holds_factorize_again fuel h

theorem recorded_searched (h : r.Recorded) : r.searched.Recorded :=
  Recorded.report (r := { r with solver := r.solver.predict.searchStep.state }) h (by simp)

theorem solver_searched (r : Run α) : r.searched.solver = r.solver.predict.searchStep.state := rfl

theorem advance_eq (r : Run α) (a : α) :
    r.advance a = if r.solver.search.accepted then
        match (r.solver.noted a).promote with
        | (solver, .error f) => .done { r with solver } (.raised f)
        | (solver, .ok ()) => .next { r with solver }
      else .next { r with solver := r.solver.noted a } := rfl

theorem step_steps {a : α} (h : r.solver.Directed)
    (hres : r.solver.predict.searchStep.result = .ok a) :
    ∃ r', r.step = .next r' ∧ r'.events = r.searched.events ∧
      r'.solver.search = r.solver.predict.searchStep.search ∧ r'.solver.Costed ∧
      r.solver.Steps a r'.solver := by
  have hd := h.predict
  rw [step_eq, hres]
  dsimp only
  rw [advance_eq]
  cases hacc : r.searched.solver.search.accepted with
  | false =>
    obtain ⟨w, hw, hstate⟩ := r.solver.predict.searchStep_trying
    obtain ⟨hcosted, hsteps⟩ := hd.toCosted.stay (a := a) hw hacc
    refine ⟨_, if_neg (by simp), rfl, rfl, ?_⟩
    rw [solver_searched, hstate]
    exact ⟨hcosted, hsteps.of_predict⟩
  | true =>
    obtain ⟨-, w, cost, hw, he, hfin, hdV, hstate⟩ := Solver.searchStep_accepted hres hacc
    obtain ⟨s', hs', hsearch, hcosted, hsteps⟩ := hd.promote hw he hfin hdV hacc
    rw [if_pos rfl, solver_searched, hstate]
    dsimp only
    rw [hs']
    exact ⟨_, rfl, rfl, hsearch, hcosted, hsteps.of_predict⟩

theorem steps_of_next {r' : Run α} (h : r.solver.Directed) (hr' : r.step = .next r') :
    ∃ a, r.solver.predict.searchStep.result = .ok a ∧
      r'.solver.search = r.solver.predict.searchStep.search ∧ r.solver.Steps a r'.solver := by
  cases hres : r.solver.predict.searchStep.result with
  | error f =>
    rw [step_eq, hres] at hr'
    cases hr'
  | ok a =>
    obtain ⟨r₁, hr₁, -, hsearch, -, hsteps⟩ := step_steps h hres
    obtain rfl := Flow.next.inj (hr₁.symm.trans hr')
    exact ⟨a, rfl, hsearch, hsteps⟩

theorem holds_step (h : r.Holds Solver.Directed) : r.step.Holds Solver.Costed := by
  cases hres : r.solver.predict.searchStep.result with
  | error f =>
    rw [step_eq, hres]
    exact (recorded_searched h.recorded).ended (by simp)
  | ok a =>
    obtain ⟨r', hr', hevents, -, hcosted, -⟩ := step_steps h.solver hres
    rw [hr']
    refine ⟨hcosted, ?_⟩
    rw [Recorded, hevents]
    exact recorded_searched h.recorded

theorem holds_adapt (h : r.Holds Solver.Costed) : r.adapt.Holds Solver.Costed := by
  have hadapted : r.solver.adapted.Costed := by
    unfold Solver.adapted
    split <;> exact h.solver.of_eq rfl rfl rfl rfl
  have hincreased : r.solver.adapted.increase.Costed := hadapted.of_eq rfl rfl rfl rfl
  rw [adapt_eq]
  change (escalate { r with solver := r.solver.adapted }).Holds Solver.Costed
  unfold escalate
  split
  · have hreport : Recorded (({ r with solver := r.solver.adapted.increase } : Run α).report
        [.shortestStep r.solver.adapted.increase.xreg]) := Recorded.report h.recorded (by simp)
    unfold unlessSaturated
    split
    · exact Holds.finished ⟨hincreased, hreport⟩ _
    · exact ⟨hincreased, hreport⟩
  · exact h.mono hadapted

end Run

omit [Scalar α] in
theorem Callback.recorded_mem_observeAll {s t : Solver α} {cs : List Callback}
    (h : .recorded t ∈ (observeAll s cs).1) : t = s := by
  induction cs with
  | nil => cases h
  | cons c cs ih =>
    unfold observeAll at h
    cases c with
    | recorder =>
      rcases List.mem_cons.mp h with h | h
      · exact Event.recorded.inj h
      · exact ih h
    | table period =>
      unfold observe TableRow.events at h
      dsimp only at h
      split_ifs at h
      · cases h
      · rcases List.mem_append.mp h with h | h
        · simp at h
        · exact ih h
      · rcases List.mem_append.mp h with h | h
        · simp at h
        · exact ih h

namespace Run

variable {r : Run α}

theorem holds_assess (h : r.Holds Solver.Costed) : r.assess.Holds Solver.Costed := by
  have hmeasured : r.solver.measureStop.Costed := h.solver.of_eq rfl rfl rfl rfl
  have hobserved : Recorded (({ r with solver := r.solver.measureStop } : Run α).report
      (Callback.observeAll r.solver.measureStop r.solver.measureStop.callbacks).1) := by
    refine Recorded.report h.recorded fun s hs => ?_
    rw [Callback.recorded_mem_observeAll hs]
    exact hmeasured.cost
  rw [assess_eq]
  dsimp only
  unfold conclude
  split
  · exact hobserved.ended (by simp)
  · split
    · exact Holds.finished ⟨hmeasured, hobserved.report (by simp)⟩ _
    · exact ⟨hmeasured, hobserved.report (by simp)⟩

theorem Holds.sound (h : r.Holds Solver.Costed) : r.Holds Solver.Sound :=
  ⟨h.solver.toSound, h.recorded⟩

/-- All of an iteration but its end, which is where the observers are called. -/
def unassessed (fuel iter : ℕ) (r : Run α) : Flow α :=
  ((factorize fuel true { r with solver := r.solver.numbered iter }).andThen step).andThen adapt

theorem iterate_eq (fuel iter : ℕ) (r : Run α) :
    r.iterate fuel iter = (r.unassessed fuel iter).andThen assess := rfl

theorem preserved_unassessed (fuel iter : ℕ) (r : Run α) :
    (r.unassessed fuel iter).Preserved r.solver := by
  have hfactor := (preserved_factorize fuel true { r with solver := r.solver.numbered iter }).after
    (s := r.solver) (.of_eq rfl rfl rfl rfl rfl rfl)
  exact (hfactor.andThen preserved_step).andThen preserved_adapt

theorem Holds.numbered (h : r.Holds Solver.Sound) (iter : ℕ) :
    ({ r with solver := r.solver.numbered iter } : Run α).Holds Solver.Sound :=
  h.mono (h.solver.of_eq rfl rfl rfl)

theorem holds_unassessed (h : r.Holds Solver.Sound) (fuel iter : ℕ) :
    (r.unassessed fuel iter).Holds Solver.Costed :=
  ((holds_factorize fuel (h.numbered iter)).andThen fun _ => holds_step).andThen fun _ =>
    holds_adapt

theorem holds_iterate (h : r.Holds Solver.Sound) (fuel iter : ℕ) :
    (r.iterate fuel iter).Holds Solver.Costed := by
  rw [iterate_eq]
  exact (holds_unassessed h fuel iter).andThen fun _ => holds_assess

/-- The runs that the iterations of a loop start from, by their numbers. -/
inductive Visits (fuel : ℕ) (r₀ : Run α) : ℕ → Run α → Prop
  | first : Visits fuel r₀ 0 r₀
  | next {iter r r'} (h : Visits fuel r₀ iter r) (hr : r.iterate fuel iter = .next r') :
    Visits fuel r₀ (iter + 1) r'

variable {r₀ : Run α} {fuel iter : ℕ}

theorem Visits.loop_eq (h : r₀.Visits fuel iter r) (left : ℕ) :
    r₀.loop fuel (iter + left) 0 = r.loop fuel left iter := by
  induction h generalizing left with
  | first => rw [Nat.zero_add]
  | @next iter r r' _ hr ih => rw [Nat.add_assoc, Nat.add_comm 1, ih, loop_next hr]

theorem Visits.holds (hr : r₀.Holds Solver.Sound) (h : r₀.Visits fuel iter r) :
    r.Holds Solver.Sound := by
  induction h with
  | first => exact hr
  | @next iter r r' _ hnext ih =>
    have := holds_iterate ih fuel iter
    rw [hnext] at this
    exact this.sound

theorem ended_loop (h : r.Holds Solver.Sound) (fuel left iter : ℕ)
    (hc : left = 0 → r.solver.CostIsCurrent) :
    (r.loop fuel left iter).1.Ended (r.loop fuel left iter).2 := by
  induction left generalizing r iter with
  | zero => exact Holds.finish ⟨⟨h.solver, hc rfl⟩, h.recorded⟩ _
  | succ left ih =>
    have hiter := holds_iterate h fuel iter
    unfold loop
    cases hi : r.iterate fuel iter with
    | next r' =>
      rw [hi] at hiter
      exact ih hiter.sound (iter + 1) fun _ => hiter.solver.cost
    | done r' ending =>
      rw [hi] at hiter
      exact hiter

theorem recorded_loop (h : r.Holds Solver.Sound) (fuel left iter : ℕ) :
    (r.loop fuel left iter).1.Recorded := by
  cases left with
  | zero => exact Recorded.report h.recorded (by simp)
  | succ left => exact (ended_loop h fuel (left + 1) iter (by simp)).recorded

theorem holds_start (h : r.Holds Solver.Sound) : r.start.1.Holds Solver.Sound := by
  have hevaluated : r.solver.evaluated.Sound :=
    h.solver.of_eq rfl rfl (Problem.length_evaluate _ _ _ _)
  have hstarted : Recorded (({ r with solver := r.solver.evaluated } : Run α).report [.started]) :=
    Recorded.report h.recorded (by simp)
  rw [start_eq]
  split
  · split
    · exact ⟨hevaluated, hstarted⟩
    · exact ⟨hevaluated, hstarted.report (by simp)⟩
  · exact ⟨h.solver, h.recorded.report (by simp)⟩

end Run

namespace Solver

variable {s : Solver α} {xs us : List (Tensor α)} {c : Trajectory α}

theorem Fits.holds_begun (h : s.Fits) (hc : s.problem.Shaped c.xs c.us) (feasible : Bool)
    (reginit : Weight α) :
    Run.Holds Sound { solver := s.begun c feasible reginit, events := [] } :=
  ⟨⟨h.knots, hc⟩, by simp [Run.Recorded]⟩

/-- The iteration with a number is one of a solve, and starts from a run. -/
structure Iterates (s : Solver α) (fuel : ℕ) (xs us : List (Tensor α)) (maxiter : ℤ)
    (feasible : Bool) (reginit : Weight α) (iter : ℕ) (r : Run α) : Prop where
  visits : ∃ c r₀, s.problem.trajectory xs us = .ok c ∧
    Run.start { solver := s.begun c feasible reginit, events := [] } = (r₀, none) ∧
    r₀.Visits fuel iter r
  lt : (iter : ℤ) < maxiter

theorem Iterates.solve_eq {fuel iter : ℕ} {maxiter : ℤ} {feasible : Bool} {reginit : Weight α}
    {r : Run α} (h : s.Iterates fuel xs us maxiter feasible reginit iter r) :
    s.solve fuel xs us maxiter feasible reginit = r.loop fuel (maxiter.toNat - iter) iter := by
  obtain ⟨⟨c, r₀, hc, hstart, hvisits⟩, hlt⟩ := h
  have hleft : maxiter.toNat = iter + (maxiter.toNat - iter) := by omega
  rw [Solver.solve_eq hc, hstart]
  dsimp only
  rw [← hvisits.loop_eq, ← hleft]

theorem Iterates.holds {fuel iter : ℕ} {maxiter : ℤ} {feasible : Bool} {reginit : Weight α}
    {r : Run α} (h : s.Iterates fuel xs us maxiter feasible reginit iter r) (hf : s.Fits)
    (hx : ∀ a ∈ xs, a.Valid) (hu : ∀ a ∈ us, a.Valid) : r.Holds Sound := by
  obtain ⟨⟨c, r₀, hc, hstart, hvisits⟩, -⟩ := h
  have hshaped := Problem.shaped_trajectory hc hx hu
  have hbegun := Run.holds_start (hf.holds_begun hshaped feasible reginit)
  rw [hstart] at hbegun
  exact hvisits.holds hbegun

theorem Fits.solve_cases (hf : s.Fits) (hx : ∀ a ∈ xs, a.Valid) (hu : ∀ a ∈ us, a.Valid) (fuel : ℕ)
    (maxiter : ℤ) (feasible : Bool) (reginit : Weight α) :
    (∃ (r : Run α) (f : Fault), r.Recorded ∧
      s.solve fuel xs us maxiter feasible reginit = (r, .raised f)) ∨
    ∃ r : Run α, r.Holds Sound ∧
      s.solve fuel xs us maxiter feasible reginit = r.loop fuel maxiter.toNat 0 := by
  cases hc : s.problem.trajectory xs us with
  | error f =>
    refine .inl ⟨_, f, ?_, solve_refused hc fuel maxiter feasible reginit⟩
    simp [Run.Recorded]
  | ok c =>
    have hstart := Run.holds_start
      (hf.holds_begun (Problem.shaped_trajectory hc hx hu) feasible reginit)
    rw [solve_eq hc]
    split <;> rename_i hs <;> rw [hs] at hstart
    · exact .inl ⟨_, _, hstart.recorded, rfl⟩
    · exact .inr ⟨_, hstart, rfl⟩

/-- A solve that is given iterations to go through returns with the cost current. -/
theorem Fits.current_of_returned (hf : s.Fits) (hx : ∀ a ∈ xs, a.Valid) (hu : ∀ a ∈ us, a.Valid)
    {fuel : ℕ} {maxiter : ℤ} {feasible : Bool} {reginit : Weight α} {b : Bool}
    (h : (s.solve fuel xs us maxiter feasible reginit).2 = .returned b) (hmax : 0 < maxiter) :
    (s.solve fuel xs us maxiter feasible reginit).1.solver.CostIsCurrent := by
  rcases hf.solve_cases hx hu fuel maxiter feasible reginit with ⟨r, f, -, heq⟩ | ⟨r, hr, heq⟩
  · rw [heq] at h
    cases h
  · rw [heq] at h ⊢
    exact (Run.ended_loop hr fuel maxiter.toNat 0 (by omega)).current b h

/-- How a solve accounts for the cost and for the trajectory. -/
structure Accounts (s : Solver α) (fuel : ℕ) (xs us : List (Tensor α)) (maxiter : ℤ)
    (feasible : Bool) (reginit : Weight α) : Prop where
  recorded : ∀ t, .recorded t ∈ (s.solve fuel xs us maxiter feasible reginit).1.events →
    t.CostIsCurrent
  returned : ∀ b, (s.solve fuel xs us maxiter feasible reginit).2 = .returned b → 0 < maxiter →
    (s.solve fuel xs us maxiter feasible reginit).1.solver.CostIsCurrent
  /-- The iterations spoken of are those that the solve goes through. -/
  resumed : ∀ iter r, s.Iterates fuel xs us maxiter feasible reginit iter r →
    s.solve fuel xs us maxiter feasible reginit = r.loop fuel (maxiter.toNat - iter) iter
  observed : ∀ iter r r', s.Iterates fuel xs us maxiter feasible reginit iter r →
    r.unassessed fuel iter = .next r' → r'.solver.measureStop.CostIsCurrent
  stepped : ∀ iter r r' a, s.Iterates fuel xs us maxiter feasible reginit iter r →
    Run.factorize fuel true { r with solver := r.solver.numbered iter } = .next r' →
    r'.solver.predict.searchStep.result = .ok a →
    r'.solver.Directed ∧ ∃ r'', r'.step = .next r'' ∧
      r''.solver.search = r'.solver.predict.searchStep.search ∧ r'.solver.Steps a r''.solver

/-- Any solve accounts for the cost and for the trajectory, whatever the solver has done before. -/
theorem accounts_after (p : Problem α) (o : Options α) (past : List (Operation α))
    {xs us : List (Tensor α)} (hx : ∀ a ∈ xs, a.Valid) (hu : ∀ a ∈ us, a.Valid) (fuel : ℕ)
    (maxiter : ℤ) (feasible : Bool) (reginit : Weight α) :
    ((create p o).after past).Accounts fuel xs us maxiter feasible reginit := by
  have hf : ((create p o).after past).Fits := fits_after past
  constructor
  case recorded =>
    rcases hf.solve_cases hx hu fuel maxiter feasible reginit with ⟨r, f, hr, heq⟩ | ⟨r, hr, heq⟩
    · rw [heq]
      exact hr
    · rw [heq]
      exact Run.recorded_loop hr fuel _ 0
  case returned => exact fun b hb hmax => hf.current_of_returned hx hu hb hmax
  case resumed => exact fun iter r hr => hr.solve_eq
  case observed =>
    intro iter r r' hr hr'
    have hcosted := Run.holds_unassessed (hr.holds hf hx hu) fuel iter
    rw [hr'] at hcosted
    exact hcosted.solver.cost
  case stepped =>
    intro iter r r' a hr hr' ha
    have hdirected := Run.holds_factorize fuel ((hr.holds hf hx hu).numbered iter)
    rw [hr'] at hdirected
    obtain ⟨r'', hstep, -, hsearch, -, hsteps⟩ := Run.step_steps hdirected.solver ha
    exact ⟨hdirected.solver, r'', hstep, hsearch, hsteps⟩

section Witness

variable {K : Type} [ExactScalar K] {s : Solver K}

theorem Ready.searchStep_infeasible (hp : s.problem.LinearQuadratic) (hw : s.problem.WellFormed)
    (hc : s.problem.StrictlyConvex) (hr : s.Ready) (hf : s.candidate.feasible = false) :
    ∃ s', s.computeDirection true = (s', .ok .noError) ∧ s'.predict.searchStep.result = .ok 1 ∧
      s'.predict.searchStep.state.search.accepted = true := by
  obtain ⟨ks, primal, dual, hsol, hd⟩ := hr.exists_direction hp hw hc
  obtain ⟨-, -, heval⟩ := hsol.trial hp hw hr.shaped
  obtain ⟨a, rest, ha⟩ := hr.steps
  have hacc : s.AcceptsFullStep ks (Vec.toFun _ primal) := .inr (.inl hf)
  obtain ⟨code, hcode⟩ := hacc.verdict dual hr hsol.length_primal rfl
  obtain ⟨hresult, hstate⟩ := searchStep_first (s := (s.directed ks primal dual).predict)
    (hr.search_eq.1.trans ha) heval rfl hcode
  refine ⟨_, hd, hresult, ?_⟩
  rw [hstate]
  exact Search.accepted_of_verdict hcode

end Witness

/-- The first iteration from a trajectory that does not follow the dynamics takes the full step. -/
theorem accounts_after_integrator :
    let s : Solver ℝ := (create (.integrator [1] 1) .lenient).after
      [.increase, .tryStep 1, .setCallbacks [.table 10, .recorder]]
    s.Accounts 1 [.ofVec [1], .ofVec [3]] [.ofVec [2]] 5 false none ∧
    ∃ r r' r'', s.Iterates 1 [.ofVec [1], .ofVec [3]] [.ofVec [2]] 5 false none 0 r ∧
      Run.factorize 1 true { r with solver := r.solver.numbered 0 } = .next r' ∧
      r'.step = .next r'' ∧ r'.solver.Steps 1 r''.solver ∧
      r''.solver.search.accepted = true := by
  intro s
  have haccounts : s.Accounts 1 ([[1], [3]].map .ofVec) ([[2]].map .ofVec) 5 false none :=
    accounts_after _ _ _ (Tensor.valid_of_mem_map _) (Tensor.valid_of_mem_map _) 1 5 false none
  refine ⟨haccounts, ?_⟩
  have hshaped : (Problem.integrator [(1 : ℝ)] 1).Shaped [[1], [3]] [[2]] := ⟨rfl, rfl⟩
  let c : Trajectory ℝ := { xs := [[1], [3]], us := [[2]] }
  let r : Run ℝ := { solver := s.begun c false none, events := [.started] }
  have hbegun : r.solver.Ready :=
    ready_begun Options.fault?_lenient rfl [.increase, .tryStep 1] (by decide) hshaped false
  have hiterates : s.Iterates 1 ([[1], [3]].map .ofVec) ([[2]].map .ofVec) 5 false none 0 r :=
    ⟨⟨c, r, Problem.trajectory_ofVec hshaped, rfl, .first⟩, by decide⟩
  obtain ⟨s', hd, hresult, hacc⟩ := (hbegun.numbered 0).searchStep_infeasible
    Problem.linearQuadratic_integrator Problem.wellFormed_integrator
    Problem.strictlyConvex_integrator rfl
  have hfactor : Run.factorize 1 true { r with solver := r.solver.numbered 0 } =
      .next { r with solver := s' } := by
    rw [Run.factorize_succ, hd]
    rfl
  obtain ⟨-, r'', hstep, hsearch, hsteps⟩ := haccounts.stepped 0 r _ 1 hiterates hfactor hresult
  refine ⟨r, _, r'', hiterates, hfactor, hstep, hsteps, ?_⟩
  rw [hsearch]
  exact hacc

end Solver
end Shooting
