import Shooting.Proofs.Independence
import Shooting.Proofs.Course

/-! # Presentations of a solve

How much a solve reports, and who observes it, has no part in it. To change the settings of what is
shown, to take the observers away and to leave out some reports commutes with every phase, as long
as the observers raise no fault.
-/

namespace Shooting

variable {α : Type}

def Event.fromIteration : Event α → Bool
  | .damped .. | .shortestStep _ | .search _ | .summary _ | .finished .. => true
  | _ => false

/-- A way to present a solve without its observers: with other settings of what is shown, and
without some of the reports. Those of observers are always left out, those of iterations never. -/
structure Presentation (α : Type) where
  verbosity : Verbosity → Verbosity
  verbose : Bool → Bool
  hidden : Event α → Bool
  hidden_observer : ∀ e : Event α, e.fromObserver = true → hidden e = true
  shown_iteration : ∀ e : Event α, e.fromIteration = true → hidden e = false

variable (P : Presentation α)

def Search.presented (s : Search α) : Search α := { s with verbose := P.verbose s.verbose }

def Solver.presented (s : Solver α) : Solver α :=
  { s with
    options := { s.options with verbosity := P.verbosity s.options.verbosity }
    search := s.search.presented P
    callbacks := [] }

def Run.presented (r : Run α) : Run α where
  solver := r.solver.presented P
  events := r.events.filter fun e => !P.hidden e

def Flow.presented : Flow α → Flow α
  | .next r => .next (r.presented P)
  | .done r ending => .done (r.presented P) ending

variable {P}

theorem Run.report_nil (r : Run α) : r.report [] = r := by
  rw [report, List.append_nil]

theorem Run.presented_report (r : Run α) (events : List (Event α)) :
    (r.report events).presented P =
      (r.presented P).report (events.filter fun e => !P.hidden e) := by
  unfold presented report
  rw [List.filter_append]

theorem Run.presented_report_iteration (r : Run α) (events : List (Event α))
    (he : ∀ e ∈ events, e.fromIteration = true) :
    (r.report events).presented P = (r.presented P).report events := by
  have hall : events.filter (fun e => !P.hidden e) = events := by
    apply List.filter_eq_self.mpr
    intro e h
    rw [P.shown_iteration e (he e h)]
    rfl
  rw [presented_report, hall]

theorem Run.presented_report_observer (r : Run α) (events : List (Event α))
    (he : ∀ e ∈ events, e.fromObserver = true) :
    (r.report events).presented P = r.presented P := by
  have hnil : events.filter (fun e => !P.hidden e) = [] := by
    rw [List.filter_eq_nil_iff]
    intro e h
    simp [P.hidden_observer e (he e h)]
  rw [presented_report, hnil, report_nil]

theorem Flow.presented_andThen {flow : Flow α} {phase : Run α → Flow α}
    (hphase : ∀ r, phase (r.presented P) = (phase r).presented P) :
    (flow.andThen phase).presented P = (flow.presented P).andThen phase := by
  cases flow with
  | next r => exact (hphase r).symm
  | done r ending => rfl

theorem Run.finish_presented (r : Run α) (status : SolveStatus) :
    (r.presented P).finish status = ((r.finish status).1.presented P, (r.finish status).2) := by
  unfold finish
  dsimp only
  rw [presented_report_iteration _ _ (by simp [Event.fromIteration])]
  rfl

theorem Run.finished_presented (r : Run α) (status : SolveStatus) :
    (r.presented P).finished status = (r.finished status).presented P := by
  unfold finished
  rw [finish_presented]
  rfl

variable [Scalar α]

theorem Search.walk_presented {σ : Type} (trial : σ → α → σ × Except Fault (Trial α)) (d : α × α)
    (feasible : Bool) (alphas : List α) (w : σ) (s : Search α) :
    walk trial d feasible alphas w (s.presented P) =
      { walk trial d feasible alphas w s with
        search := (walk trial d feasible alphas w s).search.presented P } := by
  induction alphas generalizing w s with
  | nil => rfl
  | cons a rest ih =>
    unfold walk
    dsimp only
    rcases trial w a with ⟨w', f | failure | dV⟩
    · rfl
    · have h := ih w' { s with
        steplength := a, iterations := s.iterations + 1, failures := s.failures + 1 }
      dsimp only [presented] at h ⊢
      rw [h]
    · have hverdict : verdict { s.presented P with
          steplength := a, iterations := s.iterations + 1, dV, dVexp := expectedDecrease d a }
          d feasible = verdict { s with
            steplength := a, iterations := s.iterations + 1, dV, dVexp := expectedDecrease d a }
            d feasible := rfl
      have h := ih w' { s with
        steplength := a, iterations := s.iterations + 1, dV, dVexp := expectedDecrease d a }
      dsimp only [presented] at h hverdict ⊢
      rw [hverdict]
      split
      · rfl
      · rw [h]

namespace Solver

variable (s : Solver α)

theorem linearize_presented :
    (s.presented P).linearize = (s.linearize.1.presented P, s.linearize.2) := by
  unfold linearize
  dsimp only [presented]
  rcases s.problem.linearize s.knots s.candidate.xs s.candidate.us with ⟨knots, f | cost⟩ <;> rfl

theorem factorize_presented :
    (s.presented P).factorize = (s.factorize.1.presented P, s.factorize.2) := by
  unfold factorize solveSystem
  dsimp only [presented, layout]
  cases RangeSpace.solve? s.system.matrix s.system.residual
    (Layout.ofProblem s.problem).nprimal <;> rfl

theorem computeDirection_presented (relinearize : Bool) :
    (s.presented P).computeDirection relinearize =
      ((s.computeDirection relinearize).1.presented P, (s.computeDirection relinearize).2) := by
  cases relinearize with
  | false =>
    rw [computeDirection_false, computeDirection_false]
    change ((s.redamp.presented P).factorize.1, Except.ok (s.redamp.presented P).factorize.2) = _
    rw [factorize_presented]
  | true =>
    unfold computeDirection
    rw [if_pos rfl, if_pos rfl, linearize_presented]
    rcases s.linearize with ⟨s', f | cost⟩
    · rfl
    · dsimp only
      rw [factorize_presented]

theorem tryStep_presented (a : α) :
    (s.presented P).tryStep a = ((s.tryStep a).1.presented P, (s.tryStep a).2) := by
  unfold tryStep
  dsimp only [presented, trialAt]
  rcases s.problem.evaluate s.knots _ _ with ⟨knots, f | cost⟩ <;> rfl

theorem promote_presented :
    (s.presented P).promote = (s.promote.1.presented P, s.promote.2) := by
  unfold promote setCandidate
  dsimp only [presented]
  cases s.problem.trajectory (s.attempt.xs.map .ofVec) (s.attempt.us.map .ofVec) <;> rfl

def walked : SearchRun (Solver α) α :=
  Search.walk tryStep s.d s.candidate.feasible s.search.alphas s
    { s.search with iterations := 0, failures := 0, dV := 0, dVexp := 0, code := .noError }

theorem searchStep_eq : s.searchStep =
    { s.walked with
      state := { s.walked.state with search := s.walked.search }
      events := .started s.d s.candidate.feasible :: s.walked.events } := rfl

theorem walked_presented : (s.presented P).walked =
    { s.walked with
      state := s.walked.state.presented P
      search := s.walked.search.presented P } := by
  have htrial (w w' : Solver α) (a : α) (hw : w' = w.presented P) :
      (w.tryStep a).2 = (w'.tryStep a).2 ∧ (w'.tryStep a).1 = (w.tryStep a).1.presented P ∧
        ∀ dV, (w.tryStep a).2 = .ok (.ok dV) → True := by
    rw [hw, tryStep_presented]
    exact ⟨rfl, rfl, fun _ _ => trivial⟩
  let cleared : Search α :=
    { s.search with iterations := 0, failures := 0, dV := 0, dVexp := 0, code := .noError }
  obtain ⟨hsearch, hevents, hresult, hstate, -⟩ :=
    Search.walk_congr (R := fun w w' => w' = w.presented P) (Q := fun _ _ => True) htrial s.d
      s.candidate.feasible s.search.alphas (w := s) rfl cleared
  change Search.walk tryStep s.d s.candidate.feasible s.search.alphas (s.presented P)
    (cleared.presented P) = _
  rw [Search.walk_presented]
  dsimp only
  rw [← hsearch, ← hevents, ← hresult, hstate]
  rfl

theorem searchStep_presented : (s.presented P).searchStep =
    { s.searchStep with
      state := s.searchStep.state.presented P
      search := s.searchStep.search.presented P } := by
  rw [searchStep_eq, walked_presented]
  rfl

end Solver

namespace Run

variable (r : Run α)

theorem saturated_presented :
    (r.presented P).solver.xreg.saturated (r.presented P).solver.options =
      r.solver.xreg.saturated r.solver.options := rfl

theorem resume_presented {fuel : ℕ} {code : ErrorCode}
    (hnext : ∀ r : Run α,
      factorize fuel false (r.presented P) = (factorize fuel false r).presented P) :
    (r.presented P).resume fuel code = (r.resume fuel code).presented P := by
  unfold resume
  rw [saturated_presented]
  split_ifs
  · rfl
  · exact r.finished_presented _
  · rw [← hnext, presented_report_iteration _ _ (by simp [Event.fromIteration])]
    rfl

theorem factorize_presented (fuel : ℕ) (relinearize : Bool) :
    factorize fuel relinearize (r.presented P) = (factorize fuel relinearize r).presented P := by
  induction fuel generalizing relinearize r with
  | zero => rfl
  | succ fuel ih =>
    have hd := r.solver.computeDirection_presented (P := P) relinearize
    change (r.presented P).solver.computeDirection relinearize = _ at hd
    rw [factorize_succ, factorize_succ, hd]
    rcases r.solver.computeDirection relinearize with ⟨s, f | code⟩
    · rfl
    · exact resume_presented { r with solver := s } fun r => ih r false

theorem searched_presented : (r.presented P).searched = r.searched.presented P := by
  have hsearch := r.solver.predict.searchStep_presented (P := P)
  change (r.presented P).solver.predict.searchStep = _ at hsearch
  unfold searched
  rw [hsearch, presented_report_iteration]
  · rfl
  · rintro e he
    obtain ⟨event, -, rfl⟩ := List.mem_map.mp he
    rfl

theorem advance_presented (a : α) : (r.presented P).advance a = (r.advance a).presented P := by
  have hp : ((r.presented P).solver.noted a).promote =
      ((r.solver.noted a).promote.1.presented P, (r.solver.noted a).promote.2) :=
    (r.solver.noted a).promote_presented
  have hacc : (r.presented P).solver.search.accepted = r.solver.search.accepted := rfl
  rw [advance_eq, advance_eq, hp, hacc]
  split_ifs
  · rcases (r.solver.noted a).promote with ⟨s, f | _⟩ <;> rfl
  · rfl

theorem step_presented : (r.presented P).step = r.step.presented P := by
  have hsearch := r.solver.predict.searchStep_presented (P := P)
  change (r.presented P).solver.predict.searchStep = _ at hsearch
  rw [step_eq, step_eq, hsearch]
  cases r.solver.predict.searchStep.result with
  | error f =>
    rw [searched_presented]
    rfl
  | ok a =>
    rw [searched_presented]
    exact advance_presented _ a

theorem unlessSaturated_presented :
    (r.presented P).unlessSaturated = r.unlessSaturated.presented P := by
  unfold unlessSaturated
  rw [saturated_presented]
  split_ifs
  · exact r.finished_presented _
  · rfl

theorem escalate_presented : (r.presented P).escalate = r.escalate.presented P := by
  have hlast : (r.presented P).solver.options.alphas.getLast?.any
      (Scalar.eq (r.presented P).solver.steplength) =
        r.solver.options.alphas.getLast?.any (Scalar.eq r.solver.steplength) := rfl
  have hraised :
      ({ r.presented P with solver := (r.presented P).solver.increase } : Run α).report
        [.shortestStep (r.presented P).solver.increase.xreg] =
          (({ r with solver := r.solver.increase } : Run α).report
            [.shortestStep r.solver.increase.xreg]).presented P := by
    rw [presented_report_iteration _ _ (by simp [Event.fromIteration])]
    rfl
  unfold escalate
  rw [hlast, hraised]
  split_ifs
  · exact unlessSaturated_presented _
  · rfl

theorem adapt_presented : (r.presented P).adapt = r.adapt.presented P := by
  have hadapted : (r.presented P).solver.adapted = r.solver.adapted.presented P := by
    unfold Solver.adapted
    rw [apply_ite (Solver.presented P)]
    rfl
  rw [adapt_eq, adapt_eq]
  change escalate { r.presented P with solver := (r.presented P).solver.adapted } =
    (escalate { r with solver := r.solver.adapted }).presented P
  rw [hadapted]
  exact escalate_presented { r with solver := r.solver.adapted }

theorem unassessed_presented (fuel iter : ℕ) :
    (r.presented P).unassessed fuel iter = (r.unassessed fuel iter).presented P := by
  unfold unassessed
  rw [Flow.presented_andThen adapt_presented, Flow.presented_andThen step_presented,
    ← factorize_presented]
  rfl

theorem conclude_presented : (r.presented P).conclude none = (r.conclude none).presented P := by
  have hconverged : ((r.presented P).solver.wasFeasible &&
      Scalar.lt (r.presented P).solver.stop (r.presented P).solver.options.stopThreshold) =
      (r.solver.wasFeasible && Scalar.lt r.solver.stop r.solver.options.stopThreshold) := rfl
  have hreport := r.presented_report_iteration (P := P) [.summary r.solver.summary]
    (by simp [Event.fromIteration])
  unfold conclude
  rw [hconverged]
  split_ifs
  · rw [← finished_presented, hreport]
    rfl
  · exact congrArg Flow.next hreport.symm

/-- Observers that raise nothing can as well be left out at the end of an iteration. -/
theorem assess_presented
    (hquiet : (Callback.observeAll r.solver.measureStop r.solver.measureStop.callbacks).2 =
      none) : (r.presented P).assess = r.assess.presented P := by
  have hreport := presented_report_observer (P := P) { r with solver := r.solver.measureStop }
    (Callback.observeAll r.solver.measureStop r.solver.measureStop.callbacks).1
    fun _ he => Callback.fromObserver_of_mem he
  rw [assess_eq, assess_eq]
  dsimp only
  rw [hquiet, ← conclude_presented, hreport]
  change conclude ((presented P { r with solver := r.solver.measureStop }).report []) none = _
  rw [report_nil]

variable {r} {fuel left iter : ℕ}

theorem iterate_presented
    (hquiet : ∀ r₁, r.unassessed fuel iter = .next r₁ →
      (Callback.observeAll r₁.solver.measureStop r₁.solver.measureStop.callbacks).2 = none) :
    (r.presented P).iterate fuel iter = (r.iterate fuel iter).presented P := by
  rw [iterate_eq, unassessed_presented, iterate_eq]
  cases hr : r.unassessed fuel iter with
  | done e ending => rfl
  | next r₁ => exact assess_presented r₁ (hquiet r₁ hr)

/-- If no fault ends a loop, the observers have raised none. -/
theorem loop_presented_of_ne_raised (h : ∀ f, (r.loop fuel left iter).2 ≠ .raised f) :
    (r.presented P).loop fuel left iter =
      ((r.loop fuel left iter).1.presented P, (r.loop fuel left iter).2) := by
  induction left generalizing iter r with
  | zero => exact r.finish_presented _
  | succ left ih =>
    have hiterate : (r.presented P).iterate fuel iter = (r.iterate fuel iter).presented P := by
      refine iterate_presented fun r₁ hr₁ => Option.eq_none_iff_forall_ne_some.mpr fun f hf => ?_
      obtain ⟨e, he⟩ := assess_raised hf
      rw [loop, iterate_eq, hr₁, Flow.andThen, he] at h
      exact h f rfl
    unfold loop at h ⊢
    rw [hiterate]
    cases hi : r.iterate fuel iter with
    | done e ending => rfl
    | next r' =>
      rw [hi] at h
      exact ih h

/-- Tables with a header now and then, and recorders, never raise a fault. -/
theorem loop_presented (h : .table 0 ∉ r.solver.callbacks) :
    (r.presented P).loop fuel left iter =
      ((r.loop fuel left iter).1.presented P, (r.loop fuel left iter).2) := by
  induction left generalizing iter r with
  | zero => exact r.finish_presented _
  | succ left ih =>
    have hiterate : (r.presented P).iterate fuel iter = (r.iterate fuel iter).presented P := by
      refine iterate_presented fun r₁ hr₁ => Callback.observeAll_snd _ ?_
      have hkept : r₁.solver.callbacks = r.solver.callbacks := (marked_of_unassessed hr₁).callbacks
      exact hkept ▸ h
    unfold loop
    rw [hiterate]
    cases hi : r.iterate fuel iter with
    | done e ending => rfl
    | next r' =>
      obtain ⟨r₁, -, -, hobserves, -⟩ := observes_of_next hi
      have hkept : r'.solver.callbacks = r.solver.callbacks :=
        hobserves.solver ▸ hobserves.callbacks
      exact ih (hkept ▸ h)

end Run
end Shooting
