import Shooting.Proofs.Integrator
import Shooting.Proofs.History
import Shooting.Proofs.Phases

/-! # Independence of the past

A solve overwrites whatever it reads. Two solvers with different pasts, given the same inputs, run in
lockstep: at every stage they differ at most in fields that are yet to be computed.
-/

namespace Shooting

variable {α : Type} [Scalar α]

/-- What a recorder is held to show of a solver. -/
structure Snapshot (α : Type) where
  xs : List (Vec α)
  us : List (Vec α)
  cost : α
  stop : α
  d : α × α
  xreg : Weight α
  ureg : Weight α
  steplength : α
  dV : α
  dVexp : α
  iter : ℕ
  dxs : List (Vec α)
  dus : List (Vec α)
  lambdas : List (Vec α)
  matrix : Mat α
  residual : Vec α
  primal : Vec α
  dual : Vec α

def Solver.snapshot (s : Solver α) : Snapshot α where
  xs := s.candidate.xs
  us := s.candidate.us
  cost := s.cost
  stop := s.stop
  d := s.d
  xreg := s.xreg
  ureg := s.ureg
  steplength := s.steplength
  dV := s.dV
  dVexp := s.dVexp
  iter := s.iter
  dxs := s.direction.dxs
  dus := s.direction.dus
  lambdas := s.direction.lambdas
  matrix := s.system.matrix
  residual := s.system.residual
  primal := s.direction.primal
  dual := s.direction.dual

/-- A report, of which a recorded solver only counts as far as its snapshot goes. -/
inductive Observation (α : Type)
  | snapshot (snapshot : Snapshot α)
  | report (event : Event α)

def Event.observation : Event α → Observation α
  | .recorded s => .snapshot s.snapshot
  | e => .report e

def Run.observations (r : Run α) : List (Observation α) := r.events.map Event.observation

omit [Scalar α] in
theorem Run.observations_report (r : Run α) (events : List (Event α)) :
    (r.report events).observations = r.observations ++ events.map Event.observation := by
  simp [report, observations]

namespace Solver

structure SameOutcome (s t : Solver α) : Prop where
  status : s.stats.status = t.stats.status
  iterations : s.stats.iterations = t.stats.iterations
  candidate : s.candidate = t.candidate
  wasFeasible : s.wasFeasible = t.wasFeasible
  xreg : s.xreg = t.xreg
  ureg : s.ureg = t.ureg

def SameInputs (s t : Solver α) : Prop :=
  ∃ knots iter cost stop d steplength dV dVexp system direction attempt search,
    knots.running.length = s.knots.running.length ∧ s.search.SameSettings search ∧
      t = { s with
        knots, iter, cost, stop, d, steplength, dV, dVexp, system, direction, attempt, search }

/-- Solvers that differ at most in what an iteration computes after the linearization. -/
def SameLinearization (s t : Solver α) : Prop :=
  ∃ stop d steplength dV dVexp direction attempt search, s.search.SameSettings search ∧
    t = { s with stop, d, steplength, dV, dVexp, direction, attempt, search }

def SameDirection (s t : Solver α) : Prop :=
  ∃ stop d steplength dV dVexp attempt search, s.search.SameSettings search ∧
    t = { s with stop, d, steplength, dV, dVexp, attempt, search }

def SamePrediction (s t : Solver α) : Prop :=
  ∃ stop steplength dV dVexp attempt search, s.search.SameSettings search ∧
    t = { s with stop, steplength, dV, dVexp, attempt, search }

def SameStep (s t : Solver α) : Prop := ∃ stop attempt, t = { s with stop, attempt }

variable {s t : Solver α}

omit [Scalar α] in
theorem SameInputs.sameOutcome (h : s.SameInputs t) : s.SameOutcome t := by
  obtain ⟨_, _, _, _, _, _, _, _, _, _, _, _, -, -, rfl⟩ := h
  exact ⟨rfl, rfl, rfl, rfl, rfl, rfl⟩

omit [Scalar α] in
theorem SameLinearization.sameInputs (h : s.SameLinearization t) : s.SameInputs t := by
  obtain ⟨_, _, _, _, _, _, _, _, hs, rfl⟩ := h
  exact ⟨_, _, _, _, _, _, _, _, _, _, _, _, rfl, hs, rfl⟩

omit [Scalar α] in
theorem SameDirection.sameLinearization (h : s.SameDirection t) : s.SameLinearization t := by
  obtain ⟨_, _, _, _, _, _, _, hs, rfl⟩ := h
  exact ⟨_, _, _, _, _, _, _, _, hs, rfl⟩

omit [Scalar α] in
theorem SamePrediction.sameDirection (h : s.SamePrediction t) : s.SameDirection t := by
  obtain ⟨_, _, _, _, _, _, hs, rfl⟩ := h
  exact ⟨_, _, _, _, _, _, _, hs, rfl⟩

omit [Scalar α] in
theorem SameStep.sameInputs (h : s.SameStep t) : s.SameInputs t := by
  obtain ⟨_, _, rfl⟩ := h
  exact ⟨_, _, _, _, _, _, _, _, _, _, _, _, rfl, .refl _, rfl⟩

/-- Whatever the records held before, a linearization that succeeds fills all of them. -/
theorem SameInputs.linearize (hf : s.Fits) (h : s.SameInputs t) (hiter : s.iter = t.iter) :
    s.linearize.2 = t.linearize.2 ∧ s.linearize.1.SameInputs t.linearize.1 ∧
      ∀ c, s.linearize.2 = .ok c → s.linearize.1.SameLinearization t.linearize.1 := by
  obtain ⟨knots, iter, cost, stop, d, steplength, dV, dVexp, system, direction, attempt, search,
    hlen, hset, rfl⟩ := h
  obtain rfl : s.iter = iter := hiter
  have hf' : s.problem.Fits knots s.candidate.xs s.candidate.us :=
    ⟨hlen.trans hf.knots, hf.states, hf.controls⟩
  have hres := hf.linearize_congr hf'
  have hl := Problem.length_linearize s.problem s.knots s.candidate.xs s.candidate.us
  have hl' := Problem.length_linearize s.problem knots s.candidate.xs s.candidate.us
  unfold Solver.linearize
  rcases he : s.problem.linearize s.knots s.candidate.xs s.candidate.us with ⟨ks, f | c⟩ <;>
    rcases he' : s.problem.linearize knots s.candidate.xs s.candidate.us with ⟨ks', f' | c'⟩ <;>
    rw [he, he'] at hres <;> cases hres
  · rw [he] at hl
    rw [he'] at hl'
    refine ⟨rfl, ?_, fun c hc => by cases hc⟩
    exact ⟨_, _, _, _, _, _, _, _, _, _, _, _, hl'.trans (hlen.trans hl.symm), hset, rfl⟩
  · obtain rfl : ks = ks' := (hf.linearize_ok he).1.unique (hf'.linearize_ok he').1
    refine ⟨rfl, SameLinearization.sameInputs ?_, fun _ _ => ?_⟩ <;>
      exact ⟨_, _, _, _, _, _, _, _, hset, rfl⟩

theorem SameLinearization.redamp (h : s.SameLinearization t) :
    s.redamp.SameLinearization t.redamp := by
  obtain ⟨_, _, _, _, _, _, _, _, hset, rfl⟩ := h
  exact ⟨_, _, _, _, _, _, _, _, hset, rfl⟩

theorem SameLinearization.increase (h : s.SameLinearization t) :
    s.increase.SameLinearization t.increase := by
  obtain ⟨_, _, _, _, _, _, _, _, hset, rfl⟩ := h
  exact ⟨_, _, _, _, _, _, _, _, hset, rfl⟩

theorem SameLinearization.factorize (h : s.SameLinearization t) :
    s.factorize.2 = t.factorize.2 ∧ s.factorize.1.SameLinearization t.factorize.1 ∧
      (s.factorize.2 = .noError → s.factorize.1.SameDirection t.factorize.1) := by
  obtain ⟨stop, d, steplength, dV, dVexp, direction, attempt, search, hset, rfl⟩ := h
  unfold Solver.factorize solveSystem
  dsimp only [layout]
  cases RangeSpace.solve? s.system.matrix s.system.residual (Layout.ofProblem s.problem).nprimal with
  | none => exact ⟨rfl, ⟨_, _, _, _, _, _, _, _, hset, rfl⟩, fun he => by cases he⟩
  | some r =>
    refine ⟨rfl, SameDirection.sameLinearization ?_, fun _ => ?_⟩ <;>
      exact ⟨_, _, _, _, _, _, _, hset, rfl⟩

theorem SameLinearization.computeDirection (h : s.SameLinearization t) :
    ∃ code, (s.computeDirection false).2 = .ok code ∧ (t.computeDirection false).2 = .ok code ∧
      (s.computeDirection false).1.SameLinearization (t.computeDirection false).1 ∧
      (code = .noError →
        (s.computeDirection false).1.SameDirection (t.computeDirection false).1) := by
  obtain ⟨hcode, hlin, hdir⟩ := h.redamp.factorize
  exact ⟨s.redamp.factorize.2, rfl, congrArg Except.ok hcode.symm, hlin, hdir⟩

theorem SameInputs.computeDirection (hf : s.Fits) (h : s.SameInputs t) (hiter : s.iter = t.iter) :
    (s.computeDirection true).2 = (t.computeDirection true).2 ∧
      (s.computeDirection true).1.SameInputs (t.computeDirection true).1 ∧
      ∀ code, (s.computeDirection true).2 = .ok code →
        (s.computeDirection true).1.SameLinearization (t.computeDirection true).1 ∧
        (code = .noError →
          (s.computeDirection true).1.SameDirection (t.computeDirection true).1) := by
  obtain ⟨hres, hin, hlin⟩ := h.linearize hf hiter
  unfold Solver.computeDirection
  rw [if_pos rfl, if_pos rfl]
  rcases hs : s.linearize with ⟨s₁, f | c⟩ <;> rcases ht : t.linearize with ⟨t₁, f' | c'⟩ <;>
    rw [hs, ht] at hres hin <;> cases hres
  · exact ⟨rfl, hin, fun code hc => by cases hc⟩
  · rw [hs, ht] at hlin
    obtain ⟨hcode, hlin', hdir⟩ := (hlin c rfl).factorize
    refine ⟨congrArg Except.ok hcode, hlin'.sameInputs, fun code hc => ⟨hlin', ?_⟩⟩
    rintro rfl
    exact hdir (Except.ok.inj hc)

end Solver

section Search

variable {σ : Type} {R Q : σ → σ → Prop} {trial : σ → α → σ × Except Fault (Trial α)}

/-- Runs of a search with the same reports and results, in related states. After an accepted step
the states are related more closely. -/
structure SearchRun.Alike (R Q : σ → σ → Prop) (run run' : SearchRun σ α) : Prop where
  search : run.search = run'.search
  events : run.events = run'.events
  result : run.result = run'.result
  state : R run.state run'.state
  accepted : ∀ a, run.result = .ok a → run.search.accepted = true → Q run.state run'.state

omit [Scalar α] in
theorem SearchRun.Alike.cons {run run' : SearchRun σ α} (h : run.Alike R Q run')
    (event : SearchEvent α) :
    Alike R Q { run with events := event :: run.events }
      { run' with events := event :: run'.events } :=
  ⟨h.search, congrArg (event :: ·) h.events, h.result, h.state, h.accepted⟩

/-- What holds of the states after every trial that gives a decrease holds after an accepted
step. -/
theorem Search.walk_congr (htrial : ∀ w w' a, R w w' →
      (trial w a).2 = (trial w' a).2 ∧ R (trial w a).1 (trial w' a).1 ∧
        ∀ dV, (trial w a).2 = .ok (.ok dV) → Q (trial w a).1 (trial w' a).1)
    (d : α × α) (feasible : Bool) (alphas : List α) {w w' : σ} (hw : R w w') (s : Search α) :
    (walk trial d feasible alphas w s).Alike R Q (walk trial d feasible alphas w' s) := by
  induction alphas generalizing w w' s with
  | nil => exact ⟨rfl, rfl, rfl, hw, fun a _ h => by cases h⟩
  | cons alpha rest ih =>
    obtain ⟨hres, hR, hQ⟩ := htrial w w' alpha hw
    unfold walk
    dsimp only
    rcases ht : trial w alpha with ⟨w₁, f | failure | dV⟩ <;>
      rcases ht' : trial w' alpha with ⟨w₁', f' | failure' | dV'⟩ <;>
      rw [ht, ht'] at hres hR <;> cases hres
    · exact ⟨rfl, rfl, rfl, hR, fun a h => by cases h⟩
    · exact (ih hR _).cons _
    · rw [ht, ht'] at hQ
      dsimp only
      split
      · exact ⟨rfl, rfl, rfl, hR, fun a _ _ => hQ dV rfl⟩
      · exact (ih hR _).cons _

theorem Search.walk_steplength {alphas : List α} (ha : alphas ≠ []) (d : α × α) (feasible : Bool)
    (w : σ) (s : Search α) (steplength : α) :
    walk trial d feasible alphas w { s with steplength } = walk trial d feasible alphas w s := by
  cases alphas with
  | nil => exact absurd rfl ha
  | cons alpha rest =>
    unfold walk
    rfl

theorem Search.run_congr (htrial : ∀ w w' a, R w w' →
      (trial w a).2 = (trial w' a).2 ∧ R (trial w a).1 (trial w' a).1 ∧
        ∀ dV, (trial w a).2 = .ok (.ok dV) → Q (trial w a).1 (trial w' a).1)
    {s s' : Search α} (hs : s.SameSettings s') (ha : s.alphas ≠ []) (d : α × α) (feasible : Bool)
    {w w' : σ} (hw : R w w') :
    (s.run trial d feasible w).Alike R Q (s'.run trial d feasible w') := by
  obtain ⟨steplength, dV, dVexp, iterations, failures, code, rfl⟩ := hs
  have h := walk_congr htrial d feasible s.alphas hw
    { s with iterations := 0, failures := 0, dV := 0, dVexp := 0, code := .noError }
  rw [← walk_steplength ha d feasible w' _ steplength] at h
  exact h.cons _

end Search

namespace Solver

variable {s t : Solver α}

def SameAttempt (s t : Solver α) : Prop := s.attempt = t.attempt

/-- A trial may fail half-way: then the cost of the attempt is that of an earlier one. -/
theorem SamePrediction.tryStep (h : s.SamePrediction t) (alpha : α) :
    (s.tryStep alpha).2 = (t.tryStep alpha).2 ∧
      (s.tryStep alpha).1.SamePrediction (t.tryStep alpha).1 ∧
      ∀ dV, (s.tryStep alpha).2 = .ok (.ok dV) →
        (s.tryStep alpha).1.SameAttempt (t.tryStep alpha).1 := by
  obtain ⟨stop, steplength, dV, dVexp, attempt, search, hset, rfl⟩ := h
  unfold Solver.tryStep
  dsimp only [trialAt]
  rcases s.problem.evaluate s.knots _ _ with ⟨ks, f | c⟩
  · refine ⟨rfl, ⟨_, _, _, _, _, _, hset, rfl⟩, ?_⟩
    intro dV hdV
    dsimp only at hdV
    split at hdV <;> cases hdV
  · exact ⟨rfl, ⟨_, _, _, _, _, _, hset, rfl⟩, fun _ _ => rfl⟩

theorem SamePrediction.searchStep (h : s.SamePrediction t) (ha : s.search.alphas ≠ []) :
    s.searchStep.Alike (fun s t => s.SamePrediction t ∧ s.search = t.search)
      SameAttempt t.searchStep := by
  have hset : s.search.SameSettings t.search ∧ s.d = t.d ∧ s.candidate = t.candidate := by
    obtain ⟨_, _, _, _, _, _, hset, rfl⟩ := h
    exact ⟨hset, rfl, rfl⟩
  obtain ⟨hset, hd, hc⟩ := hset
  obtain ⟨hsearch, hevents, hresult, hstate, haccepted⟩ :=
    Search.run_congr (R := SamePrediction) (Q := SameAttempt) (fun _ _ a hw => hw.tryStep a)
      hset ha s.d s.candidate.feasible h
  unfold Solver.searchStep
  rw [← hd, ← hc]
  refine ⟨hsearch, hevents, hresult, ⟨?_, hsearch⟩, haccepted⟩
  obtain ⟨_, _, _, _, _, _, -, hst⟩ := hstate
  dsimp only
  rw [hst, hsearch]
  exact ⟨_, _, _, _, _, _, .refl _, rfl⟩

omit [Scalar α] in
theorem SamePrediction.recorded (h : s.SamePrediction t) (hs : s.search = t.search)
    (steplength dV dVexp : α) :
    SameStep { s with steplength, dV, dVexp } { t with steplength, dV, dVexp } := by
  obtain ⟨stop, _, _, _, attempt, search, -, rfl⟩ := h
  obtain rfl : s.search = search := hs
  exact ⟨stop, attempt, rfl⟩

theorem SameStep.promote (h : s.SameStep t) (ha : s.SameAttempt t) :
    s.promote.2 = t.promote.2 ∧ s.promote.1.SameStep t.promote.1 := by
  obtain ⟨stop, attempt, rfl⟩ := h
  obtain rfl : s.attempt = attempt := ha
  unfold Solver.promote setCandidate
  dsimp only
  cases s.problem.trajectory (s.attempt.xs.map .ofVec) (s.attempt.us.map .ofVec) with
  | error f => exact ⟨rfl, ⟨_, _, rfl⟩⟩
  | ok c => exact ⟨rfl, ⟨_, _, rfl⟩⟩

theorem SameDirection.predict (h : s.SameDirection t) : s.predict.SamePrediction t.predict := by
  obtain ⟨_, _, _, _, _, _, _, hset, rfl⟩ := h
  exact ⟨_, _, _, _, _, _, hset, rfl⟩

/-- Solvers that differ at most in the last attempt: nothing that is shown does. -/
def SameReport (s t : Solver α) : Prop := ∃ attempt, t = { s with attempt }

omit [Scalar α] in
theorem SameReport.sameInputs (h : s.SameReport t) : s.SameInputs t := by
  obtain ⟨_, rfl⟩ := h
  exact SameStep.sameInputs ⟨_, _, rfl⟩

theorem SameStep.measureStop (h : s.SameStep t) : s.measureStop.SameReport t.measureStop := by
  obtain ⟨stop, attempt, rfl⟩ := h
  exact ⟨attempt, rfl⟩

omit [Scalar α] in
theorem SameReport.observeAll (h : s.SameReport t) (cs : List Callback) :
    (Callback.observeAll s cs).2 = (Callback.observeAll t cs).2 ∧
      (Callback.observeAll s cs).1.map Event.observation =
        (Callback.observeAll t cs).1.map Event.observation := by
  obtain ⟨attempt, rfl⟩ := h
  induction cs with
  | nil => exact ⟨rfl, rfl⟩
  | cons c cs ih =>
    obtain ⟨hfault, hevents⟩ := ih
    cases c with
    | recorder =>
      unfold Callback.observeAll
      simp only [Callback.observe]
      exact ⟨hfault, congrArg (_ :: ·) hevents⟩
    | table period =>
      have hrow : tableRow { s with attempt } = s.tableRow := rfl
      unfold Callback.observeAll
      simp only [Callback.observe, hrow]
      cases s.tableRow.events period with
      | error f => exact ⟨rfl, rfl⟩
      | ok events =>
        dsimp only
        rw [List.map_append, List.map_append, hevents]
        exact ⟨hfault, rfl⟩

end Solver

structure Run.Alike (R : Solver α → Solver α → Prop) (r r' : Run α) : Prop where
  solver : R r.solver r'.solver
  observations : r.observations = r'.observations

/-- Phases that hand on related runs, or end in the same way. -/
inductive Flow.Alike (R : Solver α → Solver α → Prop) : Flow α → Flow α → Prop
  | next {r r' : Run α} : r.Alike R r' → Alike R (.next r) (.next r')
  | done {r r' : Run α} (ending : Ending) : r.Alike Solver.SameOutcome r' →
      Alike R (.done r ending) (.done r' ending)

section Lockstep

variable {R S : Solver α → Solver α → Prop} {r r' : Run α}

omit [Scalar α] in
theorem Run.Alike.mono (h : r.Alike R r') (hRS : R r.solver r'.solver → S r.solver r'.solver) :
    r.Alike S r' := ⟨hRS h.solver, h.observations⟩

omit [Scalar α] in
theorem Run.Alike.report (h : r.Alike R r') {events events' : List (Event α)}
    (he : events.map Event.observation = events'.map Event.observation) :
    (r.report events).Alike R (r'.report events') := by
  constructor
  · exact h.solver
  · rw [observations_report, observations_report, h.observations, he]

theorem Flow.Alike.andThen {flow flow' : Flow α} (h : flow.Alike R flow') {s : Solver α}
    (hp : flow.Preserved s) {phase : Run α → Flow α}
    (hphase : ∀ r r', s.Preserved r.solver → r.Alike R r' → (phase r).Alike S (phase r')) :
    (flow.andThen phase).Alike S (flow'.andThen phase) := by
  cases h with
  | next h => exact hphase _ _ hp h
  | done e h => exact .done e h

omit [Scalar α] in
theorem Run.Alike.finish (h : r.Alike Solver.SameInputs r') (status : SolveStatus) :
    (r.finish status).1.Alike Solver.SameOutcome (r'.finish status).1 := by
  obtain ⟨hs, ho⟩ := h
  obtain ⟨s, events⟩ := r
  obtain ⟨t, events'⟩ := r'
  obtain ⟨_, _, _, _, _, _, _, _, _, _, _, _, -, -, ht⟩ := hs
  dsimp only at ht
  subst ht
  refine ⟨⟨rfl, rfl, rfl, rfl, rfl, rfl⟩, ?_⟩
  unfold Run.finish
  rw [observations_report, observations_report]
  exact congrArg (· ++ _) ho

omit [Scalar α] in
theorem Run.Alike.finished (h : r.Alike Solver.SameInputs r') (status : SolveStatus) :
    (r.finished status).Alike R (r'.finished status) := .done _ (h.finish status)

theorem Run.Alike.resume {fuel : ℕ} {code : ErrorCode} (h : r.Alike Solver.SameLinearization r')
    (hdir : code = .noError → r.solver.SameDirection r'.solver)
    (hnext : ∀ r r' : Run α, r.Alike Solver.SameLinearization r' →
      (factorize fuel false r).Alike Solver.SameDirection (factorize fuel false r')) :
    (r.resume fuel code).Alike Solver.SameDirection (r'.resume fuel code) := by
  have hopt : r.solver.options = r'.solver.options ∧ r.solver.xreg = r'.solver.xreg := by
    obtain ⟨_, _, _, _, _, _, _, _, -, ht⟩ := h.solver
    rw [ht]
    exact ⟨rfl, rfl⟩
  unfold Run.resume
  rw [← hopt.1, ← hopt.2]
  split
  · rename_i hcode
    exact .next ⟨hdir hcode, h.observations⟩
  · split
    · exact (h.mono fun h => h.sameInputs).finished _
    · have hup : Run.Alike Solver.SameLinearization { r with solver := r.solver.increase }
          { r' with solver := r'.solver.increase } := ⟨h.solver.increase, h.observations⟩
      refine hnext _ _ (hup.report ?_)
      rw [Solver.increase, Solver.increase, ← hopt.1, ← hopt.2]

theorem Run.Alike.factorize_again (fuel : ℕ) {r r' : Run α}
    (h : r.Alike Solver.SameLinearization r') :
    (factorize fuel false r).Alike Solver.SameDirection (factorize fuel false r') := by
  induction fuel generalizing r r' with
  | zero => exact .done _ (h.mono fun h => h.sameInputs.sameOutcome)
  | succ fuel ih =>
    obtain ⟨code, hs, ht, hlin, hdir⟩ := h.solver.computeDirection
    rw [factorize_succ, factorize_succ]
    rcases hd : r.solver.computeDirection false with ⟨s₁, res⟩
    rcases hd' : r'.solver.computeDirection false with ⟨t₁, res'⟩
    rw [hd] at hs hlin hdir
    rw [hd'] at ht hlin hdir
    obtain rfl : res = .ok code := hs
    obtain rfl : res' = .ok code := ht
    exact resume ⟨hlin, h.observations⟩ hdir fun _ _ h => ih h

theorem Run.Alike.factorize (h : r.Alike Solver.SameInputs r') (fuel : ℕ) (hf : r.solver.Fits)
    (hiter : r.solver.iter = r'.solver.iter) :
    (factorize fuel true r).Alike Solver.SameDirection (factorize fuel true r') := by
  cases fuel with
  | zero => exact .done _ (h.mono fun h => h.sameOutcome)
  | succ fuel =>
    obtain ⟨hres, hin, hlin⟩ := h.solver.computeDirection hf hiter
    rw [factorize_succ, factorize_succ]
    rcases hd : r.solver.computeDirection true with ⟨s₁, f | code⟩ <;>
      rcases hd' : r'.solver.computeDirection true with ⟨t₁, f' | code'⟩ <;>
      rw [hd, hd'] at hres hin hlin <;> cases hres
    · exact .done _ ⟨hin.sameOutcome, h.observations⟩
    · obtain ⟨hlin, hdir⟩ := hlin code rfl
      exact resume ⟨hlin, h.observations⟩ hdir fun _ _ h => factorize_again fuel h

theorem Run.Alike.advance (h : r.Alike Solver.SamePrediction r')
    (hsearch : r.solver.search = r'.solver.search)
    (haccepted : r.solver.search.accepted = true → r.solver.SameAttempt r'.solver)
    (steplength : α) :
    (r.advance steplength).Alike Solver.SameStep (r'.advance steplength) := by
  obtain ⟨s, events⟩ := r
  obtain ⟨t, events'⟩ := r'
  obtain ⟨⟨stop, _, _, _, attempt, search, -, ht⟩, ho⟩ := h
  dsimp only at hsearch haccepted ht
  subst ht
  obtain rfl : s.search = search := hsearch
  have hst : Solver.SameStep { s with steplength, dV := s.search.dV, dVexp := s.search.dVexp }
      { s with steplength, dV := s.search.dV, dVexp := s.search.dVexp, stop, attempt } :=
    ⟨_, _, rfl⟩
  unfold Run.advance
  dsimp only
  by_cases hacc : s.search.accepted = true
  · obtain ⟨hres, hst'⟩ := hst.promote (haccepted hacc)
    rw [if_pos hacc, if_pos hacc]
    revert hres hst'
    generalize @Solver.promote α _ _ = q
    generalize @Solver.promote α _ _ = q'
    rcases q with ⟨s₁, f | _⟩ <;> rcases q' with ⟨t₁, f' | _⟩ <;> intro hres hst' <;> cases hres
    · exact .done _ ⟨hst'.sameInputs.sameOutcome, ho⟩
    · exact .next ⟨hst', ho⟩
  · rw [if_neg hacc, if_neg hacc]
    exact .next ⟨hst, ho⟩

theorem Run.Alike.step (h : r.Alike Solver.SameDirection r') (ha : r.solver.search.alphas ≠ []) :
    r.step.Alike Solver.SameStep r'.step := by
  obtain ⟨-, hevents, hresult, ⟨hstate, hsearch⟩, haccepted⟩ := h.solver.predict.searchStep ha
  have hr : Run.Alike Solver.SamePrediction { r with solver := r.solver.predict.searchStep.state }
      { r' with solver := r'.solver.predict.searchStep.state } := ⟨hstate, h.observations⟩
  have hs : r.searched.Alike Solver.SamePrediction r'.searched := by
    unfold Run.searched
    rw [← hevents]
    exact hr.report rfl
  rw [step_eq, step_eq, ← hresult]
  cases hres : r.solver.predict.searchStep.result with
  | error f =>
    exact .done _ (hs.mono fun h => h.sameDirection.sameLinearization.sameInputs.sameOutcome)
  | ok steplength => exact hs.advance hsearch (haccepted steplength hres) steplength

theorem Run.Alike.unlessSaturated (h : r.Alike Solver.SameStep r') :
    r.unlessSaturated.Alike Solver.SameStep r'.unlessSaturated := by
  have hsat : r.solver.xreg.saturated r.solver.options =
      r'.solver.xreg.saturated r'.solver.options := by
    obtain ⟨_, _, ht⟩ := h.solver
    rw [ht]
  unfold Run.unlessSaturated
  rw [← hsat]
  split
  · exact (h.mono fun h => h.sameInputs).finished _
  · exact .next h

theorem Run.Alike.escalate (h : r.Alike Solver.SameStep r') :
    r.escalate.Alike Solver.SameStep r'.escalate := by
  obtain ⟨s, events⟩ := r
  obtain ⟨t, events'⟩ := r'
  obtain ⟨⟨stop, attempt, ht⟩, ho⟩ := h
  dsimp only at ht
  subst ht
  have hup : Run.Alike Solver.SameStep { solver := s.increase, events }
      { solver := Solver.increase { s with stop, attempt }, events := events' } :=
    ⟨⟨stop, attempt, rfl⟩, ho⟩
  unfold Run.escalate
  dsimp only
  split
  · exact unlessSaturated (hup.report rfl)
  · exact .next ⟨⟨stop, attempt, rfl⟩, ho⟩

theorem Run.Alike.adapt (h : r.Alike Solver.SameStep r') :
    r.adapt.Alike Solver.SameStep r'.adapt := by
  obtain ⟨s, events⟩ := r
  obtain ⟨t, events'⟩ := r'
  obtain ⟨⟨stop, attempt, ht⟩, ho⟩ := h
  dsimp only at ht
  subst ht
  rw [adapt_eq, adapt_eq]
  refine escalate ⟨?_, ho⟩
  dsimp only
  split <;> exact ⟨stop, attempt, rfl⟩

theorem Run.Alike.conclude (h : r.Alike Solver.SameReport r') (fault : Option Fault) :
    (r.conclude fault).Alike Solver.SameInputs (r'.conclude fault) := by
  have hsame : r.solver.summary = r'.solver.summary ∧ r.solver.wasFeasible = r'.solver.wasFeasible ∧
      r.solver.stop = r'.solver.stop ∧ r.solver.options = r'.solver.options := by
    obtain ⟨_, ht⟩ := h.solver
    rw [ht]
    exact ⟨rfl, rfl, rfl, rfl⟩
  obtain ⟨hsum, hwas, hstop, hopt⟩ := hsame
  have hin := h.mono fun h => h.sameInputs
  unfold Run.conclude
  rw [← hsum, ← hwas, ← hstop, ← hopt]
  cases fault with
  | some f => exact .done _ (hin.mono fun h => h.sameOutcome)
  | none =>
    dsimp only
    split
    · exact (hin.report rfl).finished _
    · exact .next (hin.report rfl)

theorem Run.Alike.assess (h : r.Alike Solver.SameStep r') :
    r.assess.Alike Solver.SameInputs r'.assess := by
  have hstop := h.solver.measureStop
  have hcall : r.solver.measureStop.callbacks = r'.solver.measureStop.callbacks := by
    obtain ⟨_, ht⟩ := hstop
    rw [ht]
  have hr : Run.Alike Solver.SameReport { r with solver := r.solver.measureStop }
      { r' with solver := r'.solver.measureStop } := ⟨hstop, h.observations⟩
  obtain ⟨hfault, hshown⟩ := hstop.observeAll r.solver.measureStop.callbacks
  rw [assess_eq, assess_eq]
  dsimp only
  rw [← hcall, ← hfault]
  exact conclude (hr.report hshown) _

/-- One iteration keeps two runs in lockstep. -/
theorem Run.Alike.iterate (h : r.Alike Solver.SameInputs r') (fuel iter : ℕ) (hf : r.solver.Fits)
    (ha : r.solver.search.alphas ≠ []) :
    (r.iterate fuel iter).Alike Solver.SameInputs (r'.iterate fuel iter) := by
  let numbered (s : Solver α) : Solver α :=
    { s with iter, stats := { s.stats with iterations := iter + 1 } }
  have hstart : Run.Alike Solver.SameInputs { r with solver := numbered r.solver }
      { r' with solver := numbered r'.solver } := by
    obtain ⟨⟨_, _, _, _, _, _, _, _, _, _, _, _, hlen, hset, ht⟩, ho⟩ := h
    exact ⟨⟨_, _, _, _, _, _, _, _, _, _, _, _, hlen, hset, by rw [ht]⟩, ho⟩
  have hp := preserved_factorize fuel true { r with solver := numbered r.solver }
  have hfactor := hstart.factorize fuel hf rfl
  have hstep := hfactor.andThen hp fun _ _ hp₁ h₁ => h₁.step (hp₁.search.alphas ▸ ha)
  have hadapt := hstep.andThen (hp.andThen preserved_step) fun _ _ _ h₁ => h₁.adapt
  exact hadapt.andThen ((hp.andThen preserved_step).andThen preserved_adapt)
    fun _ _ _ h₁ => h₁.assess

theorem Run.Alike.loop (h : r.Alike Solver.SameInputs r') (fuel left iter : ℕ) (hf : r.solver.Fits)
    (ha : r.solver.search.alphas ≠ []) :
    (r.loop fuel left iter).1.Alike Solver.SameOutcome (r'.loop fuel left iter).1 ∧
      (r.loop fuel left iter).2 = (r'.loop fuel left iter).2 := by
  induction left generalizing iter r r' with
  | zero => exact ⟨h.finish _, rfl⟩
  | succ left ih =>
    have hp := preserved_iterate fuel iter r
    have hi := h.iterate fuel iter hf ha
    unfold Run.loop
    revert hp hi
    generalize r.iterate fuel iter = flow
    generalize r'.iterate fuel iter = flow'
    intro hp hi
    cases hi with
    | next h₁ =>
      exact ih h₁ (iter + 1) (hp.fits hf) (hp.search.alphas ▸ ha)
    | done e h₁ => exact ⟨h₁, rfl⟩

theorem Solver.SameInputs.evaluated {s t : Solver α} (h : s.SameInputs t) (hf : s.Fits) :
    (s.problem.evaluate s.knots s.candidate.xs s.candidate.us).2 =
        (t.problem.evaluate t.knots t.candidate.xs t.candidate.us).2 ∧
      s.evaluated.SameInputs t.evaluated := by
  obtain ⟨knots, _, _, _, _, _, _, _, _, _, _, _, hlen, hset, rfl⟩ := h
  have hf' : s.problem.Fits knots s.candidate.xs s.candidate.us :=
    ⟨hlen.trans hf.knots, hf.states, hf.controls⟩
  refine ⟨hf.evaluate_congr hf', ?_⟩
  refine ⟨_, _, _, _, _, _, _, _, _, _, _, _, ?_, hset, rfl⟩
  rw [Problem.length_evaluate]
  exact hlen.trans (Problem.length_evaluate s.problem s.knots s.candidate.xs s.candidate.us).symm

theorem Run.Alike.start (h : r.Alike Solver.SameInputs r') (hf : r.solver.Fits) :
    r.start.1.Alike Solver.SameInputs r'.start.1 ∧ r.start.2 = r'.start.2 := by
  obtain ⟨hres, hin⟩ := h.solver.evaluated hf
  have hshows : r.solver.shows .outer = r'.solver.shows .outer := by
    obtain ⟨_, _, _, _, _, _, _, _, _, _, _, _, -, -, ht⟩ := h.solver
    rw [ht]
    rfl
  have hev : Run.Alike Solver.SameInputs { r with solver := r.solver.evaluated }
      { r' with solver := r'.solver.evaluated } := ⟨hin, h.observations⟩
  rw [start_eq, start_eq, ← hshows, ← hres]
  split
  · cases (r.solver.problem.evaluate r.solver.knots r.solver.candidate.xs r.solver.candidate.us).2 with
    | error f => exact ⟨hev.report rfl, rfl⟩
    | ok cost => exact ⟨(hev.report rfl).report rfl, rfl⟩
  · exact ⟨h.report rfl, rfl⟩

end Lockstep

theorem Options.alphas_ne_nil {o : Options α} (h : o.fault? = none) : o.alphas ≠ [] := by
  intro hnil
  unfold fault? at h
  rw [hnil, List.isEmpty_nil, if_pos rfl] at h
  split_ifs at h

theorem Solver.solve_alike {s t : Solver α} (hp : s.problem = t.problem)
    (ho : s.options = t.options) (hc : s.callbacks = t.callbacks)
    (hs : s.search.SameSettings t.search) (hfs : s.Fits) (hft : t.Fits) (ha : s.search.alphas ≠ [])
    {xs us : List (Tensor α)} {c : Trajectory α} (hxs : s.problem.trajectory xs us = .ok c)
    (fuel : ℕ) (maxiter : Int) (feasible : Bool) (reginit : Weight α) :
    (s.solve fuel xs us maxiter feasible reginit).1.Alike SameOutcome
        (t.solve fuel xs us maxiter feasible reginit).1 ∧
      (s.solve fuel xs us maxiter feasible reginit).2 =
        (t.solve fuel xs us maxiter feasible reginit).2 := by
  have hin : (s.begun c feasible reginit).SameInputs (t.begun c feasible reginit) := by
    refine ⟨t.knots, t.iter, t.cost, t.stop, t.d, t.steplength, t.dV, t.dVexp, t.system, t.direction,
      t.attempt, t.search, ?_, hs, ?_⟩
    · exact hft.knots.trans ((congrArg Problem.horizon hp).symm.trans hfs.knots.symm)
    · dsimp only [begun]
      rw [hp, ho, hc]
      rfl
  have hf : (s.begun c feasible reginit).Fits := by
    obtain ⟨hx, hu⟩ := Problem.length_trajectory hxs
    exact ⟨hfs.knots, hx, hu⟩
  have hr : Run.Alike SameInputs { solver := s.begun c feasible reginit, events := [] }
      { solver := t.begun c feasible reginit, events := [] } := ⟨hin, rfl⟩
  obtain ⟨hstart, hfault⟩ := hr.start hf
  have hkept := Run.preserved_start { solver := s.begun c feasible reginit, events := [] }
  rw [solve_eq hxs, solve_eq (hp ▸ hxs)]
  generalize Run.start { solver := s.begun c feasible reginit, events := [] } = start at *
  generalize Run.start { solver := t.begun c feasible reginit, events := [] } = start' at *
  obtain ⟨r, _ | f⟩ := start <;> obtain ⟨r', _ | f'⟩ := start' <;> cases hfault
  · exact hstart.loop fuel maxiter.toNat 0 (hkept.fits hf) (hkept.search.alphas ▸ ha)
  · exact ⟨hstart.mono fun h => h.sameOutcome, rfl⟩

/-- Two solvers for one problem under the same options, each with a past of its own, give the same
answer to a solve, in the same way, and show the same things while it runs. -/
theorem solve_independent_of_history (p : Problem α) {o : Options α} (ho : o.fault? = none)
    (past past' : List (Operation α)) (callbacks : List Callback) {xs us : List (Tensor α)}
    {c : Trajectory α} (hxs : p.trajectory xs us = .ok c) (fuel : ℕ) (maxiter : Int)
    (feasible : Bool) (reginit : Weight α) :
    let s : Solver α := { (Solver.create p o).after past with callbacks }
    let t : Solver α := { (Solver.create p o).after past' with callbacks }
    let run := s.solve fuel xs us maxiter feasible reginit
    let run' := t.solve fuel xs us maxiter feasible reginit
    run.2 = run'.2 ∧ run.1.solver.SameOutcome run'.1.solver ∧
      run.1.observations = run'.1.observations := by
  intro s t run run'
  have hs := Solver.preserved_after (Solver.create p o) past
  have ht := Solver.preserved_after (Solver.create p o) past'
  have hset : s.search.SameSettings t.search := by
    obtain ⟨_, _, _, _, _, _, hs'⟩ := hs.search
    obtain ⟨_, _, _, _, _, _, ht'⟩ := ht.search
    change Search.SameSettings ((Solver.create p o).after past).search
      ((Solver.create p o).after past').search
    rw [hs', ht']
    exact ⟨_, _, _, _, _, _, rfl⟩
  have ha : s.search.alphas ≠ [] := hs.search.alphas ▸ Options.alphas_ne_nil ho
  have hprob : s.problem = p := hs.problem
  have hcall : s.callbacks = t.callbacks := rfl
  obtain ⟨hrun, hend⟩ := Solver.solve_alike (s := s) (t := t) (hs.problem.trans ht.problem.symm)
    (hs.options.trans ht.options.symm) hcall hset (hs.fits (Solver.fits_create p o))
    (ht.fits (Solver.fits_create p o)) ha (hprob ▸ hxs) fuel maxiter feasible reginit
  exact ⟨hend, hrun.solver, hrun.observations⟩

theorem solve_integrator_independent_of_history :
    let p : Problem ℝ := .integrator [1] 2
    let past : List (Operation ℝ) := [.increase, .solve 3 [] [] 2 true none, .setWeights none none]
    let s : Solver ℝ := { (Solver.create p .lenient).after [] with callbacks := [.recorder] }
    let t : Solver ℝ := { (Solver.create p .lenient).after past with callbacks := [.recorder] }
    p.trajectory [] [] = .ok { xs := p.defaultStates, us := p.defaultControls } ∧
      (s.solve 4 [] [] 5 false none).2 = (t.solve 4 [] [] 5 false none).2 ∧
      (s.solve 4 [] [] 5 false none).1.observations =
        (t.solve 4 [] [] 5 false none).1.observations := by
  intro p past s t
  have hxs : p.trajectory [] [] = .ok { xs := p.defaultStates, us := p.defaultControls } := rfl
  have h := solve_independent_of_history p Options.fault?_lenient [] past [.recorder] hxs 4 5 false
    none
  exact ⟨hxs, h.1, h.2.2⟩

end Shooting
