import Shooting.Proofs.Observers
import Shooting.Proofs.Outcome

/-! # The statistics of a solve

A solve fills in its statistics from the solver when it returns. What it reports on the way tells
which of these values it has set itself: the residual with the first iteration that gets to its end,
the step length with the first trial, and the cost with the first linearization. The other entries
show what the solver held before.
-/

namespace Shooting

variable {α : Type}

def SearchEvent.trial? : SearchEvent α → Option α
  | .failed a _ | .measured a _ _ => some a
  | .started .. | .exhausted => none

def Event.trial? : Event α → Option α
  | .search event => event.trial?
  | _ => none

def Event.summary? : Event α → Option (Summary α)
  | .summary report => some report
  | _ => none

theorem Event.trial?_of_fromObserver {e : Event α} (h : e.fromObserver = true) :
    e.trial? = none := by
  cases e <;> first | rfl | cases h

theorem Event.summary?_of_fromObserver {e : Event α} (h : e.fromObserver = true) :
    e.summary? = none := by
  cases e <;> first | rfl | cases h

theorem Callback.filterMap_observeAll {β : Type} {f : Event α → Option β}
    (hf : ∀ e : Event α, e.fromObserver = true → f e = none) (s : Solver α) (cs : List Callback) :
    (observeAll s cs).1.filterMap f = [] :=
  List.filterMap_eq_nil_iff.mpr fun e he => hf e (fromObserver_of_mem he)

/-- Runs that show the same without their observers have reported the same apart from them. -/
theorem Run.filterMap_events_congr {β : Type} {f : Event α → Option β}
    (hf : ∀ e : Event α, e.fromObserver = true → f e = none) {r r' : Run α}
    (h : (r.presented .unobserved).observations = (r'.presented .unobserved).observations) :
    r.events.filterMap f = r'.events.filterMap f := by
  let g : Observation α → Option β
    | .snapshot _ => none
    | .report e => f e
  have hread (r : Run α) :
      (r.presented .unobserved).observations.filterMap g = r.events.filterMap f := by
    unfold observations presented
    rw [List.filterMap_map, List.filterMap_filter]
    congr
    funext e
    cases e with
    | header | row | recorded => exact (hf _ rfl).symm
    | _ => rfl
  rw [← hread, ← hread, h]

namespace Run

def trials (r : Run α) : List α := r.events.filterMap Event.trial?

def summaries (r : Run α) : List (Summary α) := r.events.filterMap Event.summary?

theorem trials_report (r : Run α) (events : List (Event α)) :
    (r.report events).trials = r.trials ++ events.filterMap Event.trial? := List.filterMap_append

theorem summaries_report (r : Run α) (events : List (Event α)) :
    (r.report events).summaries = r.summaries ++ events.filterMap Event.summary? :=
  List.filterMap_append

end Run

/-- A run that holds what it has reported last, or what it began with, after so many iterations. -/
structure Run.Reads (s : Solver α) (completed : ℕ) (iterations : ℤ) (r : Run α) : Prop where
  stop : (r.summaries.getLast?.map Summary.stop).getD s.stop = r.solver.stop
  steplength : r.trials.getLast?.getD s.steplength = r.solver.steplength
  summaries : r.summaries.length = completed
  trials : 0 < completed → r.trials ≠ []
  iterations : r.solver.stats.iterations = iterations
  alphas : r.solver.search.alphas ≠ []

def Stats.completed (s : Stats α) : ℤ :=
  if s.status = .maxRegularization then s.iterations - 1 else s.iterations

/-- The statistics of a run that has returned, as they can be read off. -/
structure Run.Told (s : Solver α) (r : Run α) : Prop where
  cost : r.solver.stats.cost = r.solver.cost
  xreg : r.solver.stats.xreg = r.solver.xreg
  stop : r.solver.stats.stop = (r.summaries.getLast?.map Summary.stop).getD s.stop
  steplength : r.solver.stats.steplength = r.trials.getLast?.getD s.steplength
  summaries : r.summaries.length = r.solver.stats.completed
  trials : r.summaries ≠ [] → r.trials ≠ []

def Flow.Tells (s : Solver α) (P : Run α → Prop) : Flow α → Prop
  | .next r => P r
  | .done r ending => ∀ b, ending = .returned b → r.Told s

theorem Flow.Tells.andThen {s : Solver α} {P Q : Run α → Prop} {flow : Flow α}
    {phase : Run α → Flow α} (h : flow.Tells s P) (hphase : ∀ r, P r → (phase r).Tells s Q) :
    (flow.andThen phase).Tells s Q := by
  cases flow with
  | next r => exact hphase r h
  | done r ending => exact h

namespace Run

variable {s : Solver α} {r r' : Run α} {n : ℕ} {i : ℤ} {P : Run α → Prop}

theorem Reads.of_eq (h : r.Reads s n i) {t : Solver α} (hstop : t.stop = r.solver.stop)
    (hstep : t.steplength = r.solver.steplength) (hstats : t.stats = r.solver.stats)
    (halphas : t.search.alphas = r.solver.search.alphas) :
    ({ r with solver := t } : Run α).Reads s n i where
  stop := h.stop.trans hstop.symm
  steplength := h.steplength.trans hstep.symm
  summaries := h.summaries
  trials := h.trials
  iterations := hstats ▸ h.iterations
  alphas := halphas ▸ h.alphas

theorem Reads.report (h : r.Reads s n i) (events : List (Event α))
    (htrials : events.filterMap Event.trial? = [])
    (hsummaries : events.filterMap Event.summary? = []) : (r.report events).Reads s n i := by
  have ht : (r.report events).trials = r.trials := by
    rw [trials_report, htrials, List.append_nil]
  have hs : (r.report events).summaries = r.summaries := by
    rw [summaries_report, hsummaries, List.append_nil]
  constructor
  · rw [hs]
    exact h.stop
  · rw [ht]
    exact h.steplength
  · rw [hs, h.summaries]
  · rw [ht]
    exact h.trials
  · exact h.iterations
  · exact h.alphas

theorem Reads.finish (h : r.Reads s n i) {status : SolveStatus}
    (hn : (n : ℤ) = if status = .maxRegularization then i - 1 else i) :
    (r.finish status).1.Told s := by
  have ht : (r.finish status).1.trials = r.trials := by
    unfold Run.finish
    rw [trials_report]
    exact List.append_nil _
  have hs : (r.finish status).1.summaries = r.summaries := by
    unfold Run.finish
    rw [summaries_report]
    exact List.append_nil _
  constructor
  case cost => rfl
  case xreg => rfl
  case stop =>
    rw [hs, h.stop]
    rfl
  case steplength =>
    rw [ht, h.steplength]
    rfl
  case summaries =>
    rw [hs, h.summaries, hn, ← h.iterations]
    rfl
  case trials =>
    rw [ht, hs]
    intro hne
    exact h.trials (h.summaries ▸ List.length_pos_iff.mpr hne)

theorem Reads.saturated (h : r.Reads s n (n + 1)) :
    (r.finished .maxRegularization).Tells s P := by
  rintro b -
  exact h.finish (by simp)

end Run

variable [Scalar α]

section Search

variable {σ : Type} {trial : σ → α → σ × Except Fault (Trial α)} {d : α × α} {feasible : Bool}
  {w : σ} {s : Search α} {a : α} {alphas : List α}

theorem Search.walk_last (h : (walk trial d feasible alphas w s).result = .ok a) :
    (s.steplength :: (walk trial d feasible alphas w s).events.filterMap
      SearchEvent.trial?).getLast? = some a := by
  induction alphas generalizing w s with
  | nil =>
    cases h
    rfl
  | cons b rest ih =>
    unfold walk at h ⊢
    dsimp only at h ⊢
    split at h
    · cases h
    · exact ih h
    · split at h
      · cases h
        rfl
      · exact ih h

theorem Search.walk_trials (ha : alphas ≠ [])
    (h : (walk trial d feasible alphas w s).result = .ok a) :
    ((walk trial d feasible alphas w s).events.filterMap SearchEvent.trial?).getLast? = some a := by
  have hlast := walk_last h
  obtain ⟨b, rest, rfl⟩ := List.exists_cons_of_ne_nil ha
  have htried :
      (walk trial d feasible (b :: rest) w s).events.filterMap SearchEvent.trial? ≠ [] := by
    unfold walk at h ⊢
    dsimp only at h ⊢
    split at h
    · cases h
    · exact List.cons_ne_nil _ _
    · split <;> exact List.cons_ne_nil _ _
  obtain ⟨c, rest', htrials⟩ := List.exists_cons_of_ne_nil htried
  rw [htrials, List.getLast?_cons_cons] at hlast
  rw [htrials]
  exact hlast

end Search

namespace Run

variable {s : Solver α} {r r' : Run α} {n fuel : ℕ} {i : ℤ}

theorem Reads.increase (h : r.Reads s n i) :
    ({ r with solver := r.solver.increase } : Run α).Reads s n i := h.of_eq rfl rfl rfl rfl

theorem reads_factorize (h : r.Reads s n (n + 1)) (fuel : ℕ) (relinearize : Bool) :
    (factorize fuel relinearize r).Tells s fun r => r.Reads s n (n + 1) := by
  induction fuel generalizing relinearize r with
  | zero =>
    rintro b hb
    cases hb
  | succ fuel ih =>
    obtain ⟨knots, cost, system, direction, hd⟩ := r.solver.computeDirection_fst relinearize
    rw [factorize_succ]
    rcases hc : r.solver.computeDirection relinearize with ⟨t, f | code⟩
    · rintro b hb
      cases hb
    · rw [hc] at hd
      have ht : ({ r with solver := t } : Run α).Reads s n (n + 1) := by
        subst hd
        exact h.of_eq rfl rfl rfl rfl
      change (resume fuel code { r with solver := t }).Tells s _
      unfold resume
      split_ifs
      · exact ht
      · exact ht.saturated
      · exact ih (ht.increase.report [.damped code t.increase.xreg] rfl rfl) false

theorem trials_searched {a : α} (ha : r.solver.search.alphas ≠ [])
    (hres : r.solver.predict.searchStep.result = .ok a) : r.searched.trials.getLast? = some a := by
  have hlast :
      (r.solver.predict.searchStep.events.filterMap SearchEvent.trial?).getLast? = some a :=
    Search.walk_trials ha hres
  have hread : Event.trial? ∘ Event.search = SearchEvent.trial? (α := α) := rfl
  unfold searched
  rw [trials_report, List.filterMap_map, hread, List.getLast?_append, hlast]
  rfl

theorem summaries_searched (r : Run α) : r.searched.summaries = r.summaries := by
  have hnone (events : List (SearchEvent α)) :
      (events.map Event.search).filterMap Event.summary? = [] := by
    rw [List.filterMap_map]
    exact List.filterMap_eq_nil_iff.mpr fun e he => rfl
  unfold searched
  rw [summaries_report, hnone]
  exact List.append_nil _

theorem Reads.searched (h : r.Reads s n i) {a : α}
    (hres : r.solver.predict.searchStep.result = .ok a) {t : Solver α}
    (hstop : t.stop = r.solver.stop) (hstep : t.steplength = a)
    (hstats : t.stats = r.solver.stats) (halphas : t.search.alphas = r.solver.search.alphas) :
    ({ r.searched with solver := t } : Run α).Reads s n i ∧ r.searched.trials ≠ [] := by
  have hlast := trials_searched h.alphas hres
  have htried : r.searched.trials ≠ [] := by
    rintro hnil
    rw [hnil] at hlast
    cases hlast
  refine ⟨?_, htried⟩
  constructor
  case stop =>
    change (r.searched.summaries.getLast?.map Summary.stop).getD s.stop = t.stop
    rw [summaries_searched, h.stop, hstop]
  case steplength =>
    change r.searched.trials.getLast?.getD s.steplength = t.steplength
    rw [hlast, hstep]
    rfl
  case summaries =>
    change r.searched.summaries.length = n
    rw [summaries_searched, h.summaries]
  case trials => exact fun _ => htried
  case iterations => exact hstats ▸ h.iterations
  case alphas => exact halphas ▸ h.alphas

theorem reads_step (h : r.Reads s n i) :
    r.step.Tells s fun r => r.Reads s n i ∧ r.trials ≠ [] := by
  have hsettings := r.solver.predict.preserved_searchStep.search.alphas
  obtain ⟨w, ⟨knots, attempt, -, rfl⟩, hstate⟩ := r.solver.predict.searchStep_trying
  rw [step_eq]
  cases hres : r.solver.predict.searchStep.result with
  | error f =>
    rintro b hb
    cases hb
  | ok a =>
    dsimp only
    rw [advance_eq, solver_searched]
    rw [hstate] at hsettings ⊢
    split_ifs with hacc
    · split
      · rintro b hb
        cases hb
      · rename_i t hp
        obtain ⟨c, rfl⟩ := Solver.promote_eq_ok hp
        exact h.searched hres rfl rfl rfl hsettings
    · exact h.searched hres rfl rfl rfl hsettings

theorem reads_adapt (h : r.Reads s n (n + 1)) (ht : r.trials ≠ []) :
    r.adapt.Tells s fun r => r.Reads s n (n + 1) ∧ r.trials ≠ [] := by
  have hadapted : ({ r with solver := r.solver.adapted } : Run α).Reads s n (n + 1) := by
    unfold Solver.adapted
    split_ifs
    · exact h.of_eq rfl rfl rfl rfl
    · exact h
  rw [adapt_eq]
  change (escalate { r with solver := r.solver.adapted }).Tells s _
  unfold escalate
  split_ifs
  · have hraised : Reads s n (n + 1) (report { r with solver := r.solver.adapted.increase }
        [.shortestStep r.solver.adapted.increase.xreg]) :=
      hadapted.increase.report [.shortestStep r.solver.adapted.increase.xreg] rfl rfl
    unfold unlessSaturated
    split_ifs
    · exact hraised.saturated
    · refine ⟨hraised, ?_⟩
      rw [trials_report]
      exact List.append_ne_nil_of_left_ne_nil ht _
  · exact ⟨hadapted, ht⟩

theorem reads_assess (h : r.Reads s n (n + 1)) (ht : r.trials ≠ []) :
    r.assess.Tells s fun r => r.Reads s (n + 1) (n + 1) := by
  have htrials : (r.observedBy r.solver.measureStop).trials = r.trials := by
    unfold observedBy
    rw [trials_report, trials_report,
      Callback.filterMap_observeAll fun e => Event.trial?_of_fromObserver]
    change (r.trials ++ []) ++ [] = r.trials
    rw [List.append_nil, List.append_nil]
  have hsummaries : (r.observedBy r.solver.measureStop).summaries =
      r.summaries ++ [r.solver.measureStop.summary] := by
    unfold observedBy
    rw [summaries_report, summaries_report,
      Callback.filterMap_observeAll fun e => Event.summary?_of_fromObserver]
    change (r.summaries ++ []) ++ _ = _
    rw [List.append_nil]
    rfl
  have hsummary : Reads s (n + 1) (n + 1) (r.observedBy r.solver.measureStop) := by
    constructor
    case stop =>
      rw [hsummaries, List.getLast?_concat]
      rfl
    case steplength =>
      rw [htrials]
      exact h.steplength
    case summaries => rw [hsummaries, List.length_append, h.summaries, List.length_singleton]
    case trials =>
      rw [htrials]
      exact fun _ => ht
    case iterations => exact h.iterations
    case alphas => exact h.alphas
  cases hq : (Callback.observeAll r.solver.measureStop r.solver.measureStop.callbacks).2 with
  | some f =>
    obtain ⟨e, he⟩ := assess_raised hq
    rw [he]
    rintro b hb
    cases hb
  | none =>
    rcases assess_quiet hq with ⟨-, ha⟩ | ⟨-, ha⟩
    · rw [ha]
      rintro b -
      exact hsummary.finish (by simp)
    · rw [ha]
      exact hsummary

theorem reads_iterate (h : r.Reads s n n) (fuel : ℕ) :
    (r.iterate fuel n).Tells s fun r => r.Reads s (n + 1) (n + 1) := by
  have hnumbered : ({ r with solver := r.solver.numbered n } : Run α).Reads s n (n + 1) :=
    ⟨h.stop, h.steplength, h.summaries, h.trials, rfl, h.alphas⟩
  have hfactor := reads_factorize hnumbered fuel true
  have hstep := hfactor.andThen fun r hr => reads_step hr
  have hadapt := hstep.andThen fun r hr => reads_adapt hr.1 hr.2
  exact hadapt.andThen fun r hr => reads_assess hr.1 hr.2

theorem told_loop {left : ℕ} {b : Bool} (h : r.Reads s n n)
    (hb : (r.loop fuel left n).2 = .returned b) : (r.loop fuel left n).1.Told s := by
  induction left generalizing n r with
  | zero => exact h.finish (by simp)
  | succ left ih =>
    have hi := reads_iterate h fuel
    unfold loop at hb ⊢
    cases hr : r.iterate fuel n with
    | done e ending =>
      rw [hr] at hi hb
      exact hi b hb
    | next r' =>
      rw [hr] at hi hb
      exact ih (by exact_mod_cast hi) hb

theorem reads_start (h : r.Reads s n i) : r.start.1.Reads s n i := by
  have hevaluated : ({ r with solver := r.solver.evaluated } : Run α).Reads s n i :=
    h.of_eq rfl rfl rfl rfl
  rw [start_eq]
  split_ifs
  · split
    · exact hevaluated.report [.started] rfl rfl
    · exact (hevaluated.report [.started] rfl rfl).report [.initialCost _] rfl rfl
  · exact h.report [.started] rfl rfl

theorem cost_start (r : Run α) : r.start.1.solver.cost = r.solver.cost := by
  rw [start_eq]
  split_ifs
  · split <;> rfl
  · rfl

end Run

namespace Solver

variable {s : Solver α} {fuel : ℕ} {xs us : List (Tensor α)} {maxiter : ℤ} {feasible : Bool}
  {reginit : Weight α} {b : Bool}

theorem told_of_returned (ha : s.search.alphas ≠ [])
    (h : (s.solve fuel xs us maxiter feasible reginit).2 = .returned b) :
    (s.solve fuel xs us maxiter feasible reginit).1.Told s := by
  obtain ⟨c, r, -, hstart, hloop⟩ := loop_of_returned h
  have hbegun : Run.Reads s 0 0 { solver := s.begun c feasible reginit, events := [] } :=
    ⟨rfl, rfl, rfl, nofun, rfl, ha⟩
  have hreads := Run.reads_start hbegun
  rw [hstart] at hreads
  rw [hloop] at h ⊢
  exact Run.told_loop hreads h

/-- Without an iteration the cost is that of another time. -/
theorem cost_of_returned (hmax : maxiter ≤ 0)
    (h : (s.solve fuel xs us maxiter feasible reginit).2 = .returned b) :
    (s.solve fuel xs us maxiter feasible reginit).1.solver.stats.cost = s.cost := by
  obtain ⟨c, r, -, hstart, hloop⟩ := loop_of_returned h
  have hcost := Run.cost_start { solver := s.begun c feasible reginit, events := [] }
  rw [hstart] at hcost
  rw [hloop, Int.toNat_of_nonpos hmax]
  exact hcost

end Solver

theorem Run.Course.iterations_eq_zero_iff {left : ℕ} {r e : Run α} {points : List (Solver α)}
    {status : SolveStatus} (h : Course left 0 r points e status)
    (hr : r.solver.stats.iterations = 0) : e.solver.stats.iterations = 0 ↔ left = 0 := by
  have hcount := h.iterations hr
  cases h with
  | exhausted => exact iff_of_true hr rfl
  | overdamped =>
    rw [List.length_nil, if_pos rfl] at hcount
    omega
  | converged =>
    rw [List.length_singleton, if_neg (by decide)] at hcount
    omega
  | next =>
    rw [List.length_cons] at hcount
    split_ifs at hcount <;> omega

namespace Solver

variable {s t : Solver α} {fuel : ℕ} {xs us : List (Tensor α)} {maxiter : ℤ} {feasible : Bool}
  {reginit : Weight α} {b b' : Bool}

/-- Solves that return on two solvers have the same outcome and report the same trials and
summaries, whoever observes them. -/
theorem solve_agree (hp : s.problem = t.problem) (ho : s.options = t.options)
    (hs : s.search.SameSettings t.search) (hfs : s.Fits) (hft : t.Fits) (ha : s.search.alphas ≠ [])
    (h : (s.solve fuel xs us maxiter feasible reginit).2 = .returned b)
    (h' : (t.solve fuel xs us maxiter feasible reginit).2 = .returned b') :
    SameOutcome (s.solve fuel xs us maxiter feasible reginit).1.solver
        (t.solve fuel xs us maxiter feasible reginit).1.solver ∧
      (s.solve fuel xs us maxiter feasible reginit).1.trials =
        (t.solve fuel xs us maxiter feasible reginit).1.trials ∧
      (s.solve fuel xs us maxiter feasible reginit).1.summaries =
        (t.solve fuel xs us maxiter feasible reginit).1.summaries := by
  obtain ⟨c, r, hc, -, -⟩ := loop_of_returned h
  have hsolve := solve_unobserved (s := s) fun f hf => by cases h.symm.trans hf
  have hsolve' := solve_unobserved (s := t) fun f hf => by cases h'.symm.trans hf
  obtain ⟨hrun, -⟩ := solve_alike (s := s.presented .unobserved) (t := t.presented .unobserved) hp
    ho rfl hs hfs hft ha hc fuel maxiter feasible reginit
  rw [hsolve, hsolve'] at hrun
  obtain ⟨hout, hobs⟩ := hrun
  refine ⟨?_, ?_, ?_⟩
  · exact ⟨hout.status, hout.iterations, hout.candidate, hout.wasFeasible, hout.xreg, hout.ureg⟩
  · exact Run.filterMap_events_congr (fun e => Event.trial?_of_fromObserver) hobs
  · exact Run.filterMap_events_congr (fun e => Event.summary?_of_fromObserver) hobs

/-- How the statistics of one solve on two solvers, in a run of each, compare. They agree but for
what the solvers held before, and that shows exactly where the solve has not come to set a value of
its own. -/
structure StatsAgree (s t : Solver α) (r r' : Run α) : Prop where
  status : r.solver.stats.status = r'.solver.stats.status
  iterations : r.solver.stats.iterations = r'.solver.stats.iterations
  xreg : r.solver.stats.xreg = r'.solver.stats.xreg
  cost : r.solver.stats.cost = r'.solver.stats.cost ↔
    (r.solver.stats.iterations = 0 → s.cost = t.cost)
  stop : r.solver.stats.stop = r'.solver.stats.stop ↔
    (r.solver.stats.completed = 0 → s.stop = t.stop)
  steplength : r.solver.stats.steplength = r'.solver.stats.steplength ↔
    (r.trials = [] → s.steplength = t.steplength)
  trials : r.trials = r'.trials ∧ (r.solver.stats.completed ≠ 0 → r.trials ≠ [])

theorem completed_pos (h : (s.solve fuel xs us maxiter feasible reginit).2 = .returned true) :
    0 < (s.solve fuel xs us maxiter feasible reginit).1.solver.stats.completed := by
  obtain ⟨c, r, e, status, hkept, hcourse, hend⟩ := course_of_returned h
  rw [hend] at h ⊢
  obtain rfl : status = .success := of_decide_eq_true (Ending.returned.inj h)
  obtain ⟨t, ht, -⟩ := hcourse.success_iff.mp rfl
  have hpos := List.length_pos_of_mem ht
  have hcount := hcourse.iterations (congrArg Stats.iterations hkept.stats)
  change 0 < e.solver.stats.iterations
  rw [hcount, if_neg (by decide)]
  change (0 : ℤ) < 0 + _ + 0
  omega

theorem CostIsCurrent.cost_eq (h : s.CostIsCurrent) (h' : t.CostIsCurrent)
    (hp : s.problem = t.problem) (hc : s.candidate = t.candidate) (hs : s.Fits) (ht : t.Fits) :
    s.cost = t.cost := by
  have ht' : s.problem.Fits t.knots s.candidate.xs s.candidate.us := by
    rw [hp, hc]
    exact ht
  unfold CostIsCurrent at h h'
  rw [← hp, ← hc, ← Problem.Fits.evaluate_congr hs ht'] at h'
  exact Except.ok.inj (h.symm.trans h')

theorem iterations_eq_zero_iff (h : (s.solve fuel xs us maxiter feasible reginit).2 = .returned b) :
    (s.solve fuel xs us maxiter feasible reginit).1.solver.stats.iterations = 0 ↔ maxiter ≤ 0 := by
  obtain ⟨c, r, e, status, hkept, hcourse, hend⟩ := course_of_returned h
  have hcount := hcourse.iterations_eq_zero_iff (congrArg Stats.iterations hkept.stats)
  rw [hend]
  exact hcount.trans Int.toNat_eq_zero

theorem getD_eq_getD_iff {β : Type} (o : Option β) (a b : β) :
    o.getD a = o.getD b ↔ (o = none → a = b) := by
  cases o <;> simp

/-- The statistics of a solve do not depend on what the solver has been through but for the cost,
the residual and the step length, each of which a solve leaves as it finds it until it computes
one. -/
theorem stats_agree_after (p : Problem α) {o : Options α} (ho : o.fault? = none)
    (past past' : List (Operation α)) {xs us : List (Tensor α)} (hx : ∀ a ∈ xs, a.Valid)
    (hu : ∀ a ∈ us, a.Valid) {fuel : ℕ} {maxiter : ℤ} {feasible : Bool} {reginit : Weight α}
    (h : (((create p o).after past).solve fuel xs us maxiter feasible reginit).2 = .returned b)
    (h' : (((create p o).after past').solve fuel xs us maxiter feasible reginit).2 =
      .returned b') :
    StatsAgree ((create p o).after past) ((create p o).after past')
      (((create p o).after past).solve fuel xs us maxiter feasible reginit).1
      (((create p o).after past').solve fuel xs us maxiter feasible reginit).1 := by
  have hs := preserved_after (create p o) past
  have ht := preserved_after (create p o) past'
  have hfs : ((create p o).after past).Fits := fits_after past
  have hft : ((create p o).after past').Fits := fits_after past'
  have hprob := hs.problem.trans ht.problem.symm
  have hopt := hs.options.trans ht.options.symm
  have hset := Search.SameSettings.symm hs.search |>.trans ht.search
  have ha : ((create p o).after past).search.alphas ≠ [] :=
    hs.search.alphas ▸ Options.alphas_ne_nil ho
  have ha' : ((create p o).after past').search.alphas ≠ [] :=
    ht.search.alphas ▸ Options.alphas_ne_nil ho
  clear hs ht
  generalize (create p o).after past = s at *
  generalize (create p o).after past' = t at *
  have htold := told_of_returned ha h
  have htold' := told_of_returned ha' h'
  obtain ⟨hout, htrials, hsummaries⟩ := solve_agree hprob hopt hset hfs hft ha h h'
  constructor
  case status => exact hout.status
  case iterations => exact hout.iterations
  case xreg => rw [htold.xreg, htold'.xreg, hout.xreg]
  case cost =>
    rw [iterations_eq_zero_iff h]
    -- Given iterations, both costs are that of the shared candidate; given none, both are old.
    rcases lt_or_ge 0 maxiter with hmax | hmax
    · have hrun := s.preserved_solve fuel xs us maxiter feasible reginit
      have hrun' := t.preserved_solve fuel xs us maxiter feasible reginit
      have hproblem := hrun.problem.trans hprob |>.trans hrun'.problem.symm
      refine iff_of_true ?_ fun hle => absurd hmax hle.not_gt
      rw [htold.cost, htold'.cost]
      exact (hfs.current_of_returned hx hu h hmax).cost_eq (hft.current_of_returned hx hu h' hmax)
        hproblem hout.candidate (hrun.fits hfs) (hrun'.fits hft)
    · rw [cost_of_returned hmax h, cost_of_returned hmax h']
      exact ⟨fun heq _ => heq, fun heq => heq hmax⟩
  case stop =>
    rw [htold.stop, htold'.stop, ← hsummaries, getD_eq_getD_iff, Option.map_eq_none_iff,
      List.getLast?_eq_none_iff, ← htold.summaries, Nat.cast_eq_zero, List.length_eq_zero_iff]
  case steplength =>
    rw [htold.steplength, htold'.steplength, ← htrials, getD_eq_getD_iff, List.getLast?_eq_none_iff]
  case trials =>
    refine ⟨htrials, fun hne => htold.trials fun hnil => hne ?_⟩
    rw [← htold.summaries, hnil]
    rfl

theorem stats_agree_after_integrator :
    let past : List (Operation ℝ) := [.increase, .tryStep 1, .setCallbacks [.table 10, .recorder]]
    let s : Solver ℝ := (create (.integrator [1] 1) .lenient).after []
    let t : Solver ℝ := (create (.integrator [1] 1) .lenient).after past
    let xs : List (Tensor ℝ) := [[1], [3]].map .ofVec
    let us : List (Tensor ℝ) := [[2]].map .ofVec
    (s.solve 1 xs us 5 false none).2 = .returned true ∧
      (t.solve 1 xs us 5 false none).2 = .returned true ∧
      StatsAgree s t (s.solve 1 xs us 5 false none).1 (t.solve 1 xs us 5 false none).1 ∧
      0 < (s.solve 1 xs us 5 false none).1.solver.stats.completed := by
  intro past s t xs us
  have h : (s.solve 1 xs us 5 false none).2 = .returned true := returned_integrator [] (by decide)
  have h' : (t.solve 1 xs us 5 false none).2 = .returned true :=
    returned_integrator [.increase, .tryStep 1] (by decide)
  exact ⟨h, h', stats_agree_after (.integrator [1] 1) Options.fault?_lenient [] past
    (Tensor.valid_of_mem_map _) (Tensor.valid_of_mem_map _) h h', completed_pos h⟩

/-- A solve without iterations gives the cost of the last linearization, whenever that was. -/
theorem stats_cost_stale :
    let s : Solver ℝ := (create (.integrator [1] 1) .lenient).after []
    let t : Solver ℝ := (create (.integrator [1] 1) .lenient).after [.linearize]
    let result := s.solve 1 [] [] 0 false none
    let result' := t.solve 1 [] [] 0 false none
    result.2 = .returned false ∧ result'.2 = .returned false ∧
      result.1.solver.stats.cost = 0 ∧ result'.1.solver.stats.cost = 1 / 2 := by
  intro s t result result'
  have h : result.2 = .returned false := rfl
  have h' : result'.2 = .returned false := rfl
  have hcost : t.cost =
      0 + Scalar.half * (Vec.normSq [1] + Vec.normSq [0]) + Scalar.half * Vec.normSq [0] := rfl
  refine ⟨h, h', cost_of_returned le_rfl h, (cost_of_returned le_rfl h').trans ?_⟩
  rw [hcost]
  norm_num [Vec.normSq]

end Solver
end Shooting
