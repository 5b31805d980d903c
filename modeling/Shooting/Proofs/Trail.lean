import Shooting.Proofs.Outcome
import Shooting.Proofs.Rejection

/-! # The states of a solve

Between its operations a solve passes through a list of states. Each comes from the one before it by
a single operation, and the last is the one that the solve ends with, so what every operation
preserves holds of all of them, and what no operation ends lasts to the end.
-/

namespace Shooting

/-- A list of states that leads from one state to another, one step at a time. -/
inductive Trail {σ : Type} (R : σ → σ → Prop) : σ → List σ → σ → Prop
  | nil (s : σ) : Trail R s [] s
  | cons {s t u : σ} {states : List σ} (step : R s t) (rest : Trail R t states u) :
    Trail R s (t :: states) u

namespace Trail

variable {σ : Type} {R : σ → σ → Prop} {s t u : σ} {states states' : List σ}

theorem single (h : R s t) : Trail R s [t] t := .cons h (.nil t)

theorem mono {R' : σ → σ → Prop} (h : Trail R s states t) (hR : ∀ a b, R a b → R' a b) :
    Trail R' s states t := by
  induction h with
  | nil s => exact .nil s
  | cons step _ ih => exact .cons (hR _ _ step) ih

theorem last_mem (h : Trail R s states t) : t ∈ s :: states := by
  induction h with
  | nil s => exact List.mem_singleton_self s
  | cons _ _ ih => exact List.mem_cons_of_mem _ ih

theorem append (h : Trail R s states t) (h' : Trail R t states' u) :
    Trail R s (states ++ states') u := by
  induction h with
  | nil => exact h'
  | cons step _ ih => exact .cons step (ih h')

theorem forall_mem {P : σ → Prop} (h : Trail R s states t) (hP : ∀ a b, R a b → P a → P b)
    (hs : P s) : ∀ a ∈ s :: states, P a := by
  induction h with
  | nil => simpa using hs
  | cons step _ ih =>
    rintro a (_ | ⟨_, ha⟩)
    · exact hs
    · exact ih (hP _ _ step hs) a ha

/-- What every step preserves holds from the first time on. -/
theorem pairwise {P Q : σ → Prop} (h : Trail R s states t) (hQ : ∀ a b, R a b → Q a → Q b)
    (hP : ∀ a b, R a b → Q a → P a → P b) (hs : Q s) :
    (s :: states).Pairwise fun a b => P a → P b := by
  induction h with
  | nil s => exact List.pairwise_singleton _ s
  | @cons s t u states step rest ih =>
    constructor
    · intro b hb hPs
      have hall := rest.forall_mem (P := fun a => Q a ∧ P a)
        (fun a b hab ha => ⟨hQ a b hab ha.1, hP a b hab ha.1 ha.2⟩)
        ⟨hQ _ _ step hs, hP _ _ step hs hPs⟩
      exact (hall b hb).2
    · exact ih (hQ _ _ step hs)

end Trail

variable {α : Type} [Scalar α]

namespace Search

variable {σ : Type} {trial : σ → α → σ × Except Fault (Trial α)} {d : α × α} {feasible : Bool}

def states (trial : σ → α → σ × Except Fault (Trial α)) (d : α × α) (feasible : Bool) :
    List α → σ → Search α → List σ
  | [], _, _ => []
  | alpha :: rest, w, s =>
    let s := { s with steplength := alpha, iterations := s.iterations + 1 }
    match trial w alpha with
    | (w, .error _) => [w]
    | (w, .ok (.error _)) =>
      w :: states trial d feasible rest w { s with failures := s.failures + 1 }
    | (w, .ok (.ok dV)) =>
      let s := { s with dV, dVexp := expectedDecrease d alpha }
      match s.verdict d feasible with
      | some _ => [w]
      | none => w :: states trial d feasible rest w s

theorem trail_walk {R : σ → σ → Prop} (htrial : ∀ w a, R w (trial w a).1) (alphas : List α) (w : σ)
    (s : Search α) :
    Trail R w (states trial d feasible alphas w s) (walk trial d feasible alphas w s).state := by
  induction alphas generalizing w s with
  | nil => exact .nil w
  | cons a rest ih =>
    have ha := htrial w a
    unfold states walk
    dsimp only
    rcases ht : trial w a with ⟨w', f | failure | dV⟩ <;> rw [ht] at ha
    · exact .single ha
    · exact .cons ha (ih _ _)
    · dsimp only
      generalize Search.verdict _ d feasible = verdict
      cases verdict with
      | some code => exact .single ha
      | none => exact .cons ha (ih _ _)

end Search

namespace Solver

def searchStates (s : Solver α) : List (Solver α) :=
  Search.states tryStep s.d s.candidate.feasible s.search.alphas s
    { s.search with iterations := 0, failures := 0, dV := 0, dVexp := 0, code := .noError } ++
  [s.searchStep.state]

def closed (s : Solver α) (status : SolveStatus) : Solver α :=
  { s with stats :=
    { s.stats with
      status
      cost := s.cost
      stop := s.stop
      xreg := s.xreg
      steplength := s.steplength } }

end Solver

omit [Scalar α] in
theorem Flow.andThen_assoc (flow : Flow α) (phase phase' : Run α → Flow α) :
    (flow.andThen phase).andThen phase' = flow.andThen fun r => (phase r).andThen phase' := by
  cases flow <;> rfl

def Flow.statesThen (flow : Flow α) (states : Run α → List (Solver α)) : List (Solver α) :=
  match flow with
  | .next r => states r
  | .done _ _ => []

namespace Run

def attemptStates : ℕ → Bool → Solver α → List (Solver α)
  | 0, _, _ => []
  | fuel + 1, relinearize, s =>
    match s.computeDirection relinearize with
    | (s, .error _) => [s]
    | (s, .ok code) =>
      s ::
        if code = .noError then []
        else if s.xreg.saturated s.options then [s.closed .maxRegularization]
        else s.increase :: attemptStates fuel false s.increase

def stepStates (r : Run α) : List (Solver α) :=
  let s := r.solver.predict
  s :: s.searchStates ++
    match s.searchStep.result with
    | .error _ => []
    | .ok a =>
      let s := s.searchStep.state.noted a
      s :: if s.search.accepted then [s.promote.1] else []

def adaptStates (r : Run α) : List (Solver α) :=
  let s := r.solver
  (if Scalar.lt s.options.stepThreshold s.steplength then [s.decrease] else []) ++
    let s := s.adapted
    if s.options.alphas.getLast?.any (Scalar.eq s.steplength) then
      let s := s.increase
      s :: if s.xreg.saturated s.options then [s.closed .maxRegularization] else []
    else []

def assessStates (r : Run α) : List (Solver α) :=
  let s := r.solver.measureStop
  s ::
    match (Callback.observeAll s s.callbacks).2 with
    | some _ => []
    | none =>
      if s.wasFeasible && Scalar.lt s.stop s.options.stopThreshold then [s.closed .success] else []

def iterateStates (fuel iter : ℕ) (r : Run α) : List (Solver α) :=
  let s := r.solver.numbered iter
  s :: (attemptStates fuel true s ++
    (factorize fuel true { r with solver := s }).statesThen fun r =>
      stepStates r ++ r.step.statesThen fun r =>
        adaptStates r ++ r.adapt.statesThen assessStates)

def loopStates (fuel : ℕ) : ℕ → ℕ → Run α → List (Solver α)
  | 0, _, r => [r.solver.closed .maxIterations]
  | left + 1, iter, r =>
    iterateStates fuel iter r ++
      (r.iterate fuel iter).statesThen fun r => loopStates fuel left (iter + 1) r

end Run

/-- The states of a solve from the one on in which the damping has been set to its seed. There are
none if the trajectory is refused. -/
def Solver.solveStates (s : Solver α) (fuel : ℕ) (xs us : List (Tensor α)) (maxiter : ℤ)
    (feasible : Bool) (reginit : Weight α) : List (Solver α) :=
  match s.problem.trajectory xs us with
  | .error _ => []
  | .ok c =>
    let begun := s.begun c feasible reginit
    begun ::
      match Run.start { solver := begun, events := [] } with
      | (r, some _) => [r.solver]
      | (r, none) => r.solver :: r.loopStates fuel maxiter.toNat 0

namespace Solver

def Tried (s : Solver α) : Prop := ∃ a, s.attempt.toTrajectory = s.trialAt a

/-- One operation of a solve, or none. It moves to the attempt only if that is a trial from where it
stands. -/
inductive Moves : Solver α → Solver α → Prop
  | rests (s : Solver α) : Moves s s
  | evaluates (s : Solver α) : Moves s s.evaluated
  | numbers (s : Solver α) (iter : ℕ) : Moves s (s.numbered iter)
  | directs (s : Solver α) (relinearize : Bool) : Moves s (s.computeDirection relinearize).1
  | raises (s : Solver α) : Moves s s.increase
  | lowers (s : Solver α) : Moves s s.decrease
  | predicts (s : Solver α) : Moves s s.predict
  | tries (s : Solver α) (a : α) : Moves s (s.tryStep a).1
  | searches (s : Solver α) (search : Search α) : Moves s { s with search }
  | notes (s : Solver α) (a : α) : Moves s (s.noted a)
  | promotes (s : Solver α) (h : s.Tried) : Moves s s.promote.1
  | measures (s : Solver α) : Moves s s.measureStop
  | closes (s : Solver α) (status : SolveStatus) : Moves s (s.closed status)

variable {s t : Solver α}

theorem tried_searchStep {a : α} (h : s.searchStep.result = .ok a)
    (hacc : s.searchStep.state.search.accepted = true) : s.searchStep.state.Tried := by
  obtain ⟨-, w, cost, ⟨knots, attempt, -, rfl⟩, -, -, -, hstate⟩ := searchStep_accepted h hacc
  rw [hstate]
  exact ⟨a, rfl⟩

theorem trail_search (s : Solver α) : Trail Moves s s.searchStates s.searchStep.state :=
  (Search.trail_walk Moves.tries _ _ _).append (.single (.searches _ _))

end Solver

open Solver (Moves)

namespace Run

variable {r : Run α}

theorem trail_attempts (fuel : ℕ) (relinearize : Bool) (r : Run α) :
    Trail Moves r.solver (attemptStates fuel relinearize r.solver)
      (factorize fuel relinearize r).run.solver := by
  induction fuel generalizing relinearize r with
  | zero => exact .nil _
  | succ fuel ih =>
    have hd := Moves.directs r.solver relinearize
    rw [factorize_succ]
    unfold attemptStates
    rcases hc : r.solver.computeDirection relinearize with ⟨s, f | code⟩ <;> rw [hc] at hd
    · exact .single hd
    · refine .cons hd ?_
      dsimp only
      unfold resume
      split_ifs with hcode hsat
      · exact .nil s
      · exact .single (.closes s _)
      · exact .cons (.raises s) (ih false (({ r with solver := s.increase } : Run α).report _))

theorem trail_step (r : Run α) : Trail Moves r.solver r.stepStates r.step.run.solver := by
  have hsearched : Trail Moves r.solver
      (r.solver.predict :: r.solver.predict.searchStates) r.searched.solver :=
    .cons (.predicts _) r.solver.predict.trail_search
  rw [step_eq]
  unfold stepStates
  dsimp only
  refine hsearched.append ?_
  cases hresult : r.solver.predict.searchStep.result with
  | error f => exact .nil _
  | ok a =>
    refine .cons (t := r.searched.solver.noted a) (.notes _ _) ?_
    dsimp only
    rw [advance_eq]
    change Trail Moves _ (if (r.searched.solver.noted a).search.accepted then _ else _) _
    have hacc : (r.searched.solver.noted a).search.accepted = r.searched.solver.search.accepted :=
      rfl
    rw [hacc]
    split_ifs with haccepted
    · have htried : (r.searched.solver.noted a).Tried :=
        Solver.tried_searchStep hresult haccepted
      have hpromoted := Moves.promotes _ htried
      change Trail Moves _ [(r.searched.solver.noted a).promote.1] _
      rcases hp : (r.searched.solver.noted a).promote with ⟨s, f | _⟩ <;> rw [hp] at hpromoted
      · exact .single hpromoted
      · exact .single hpromoted
    · exact .nil _

/-- A run that ends with a status under a condition, and is handed on otherwise. -/
theorem trail_finished (r : Run α) (status : SolveStatus) (c : Prop) [Decidable c] :
    Trail Moves r.solver (if c then [r.solver.closed status] else [])
      (if c then r.finished status else .next r).run.solver := by
  by_cases hc : c
  · rw [if_pos hc, if_pos hc]
    exact .single (.closes r.solver status)
  · rw [if_neg hc, if_neg hc]
    exact .nil _

theorem trail_adapt (r : Run α) : Trail Moves r.solver r.adaptStates r.adapt.run.solver := by
  have hadapted : Trail Moves r.solver
      (if Scalar.lt r.solver.options.stepThreshold r.solver.steplength then [r.solver.decrease]
        else []) r.solver.adapted := by
    unfold Solver.adapted
    split
    · exact .single (.lowers _)
    · exact .nil _
  rw [adapt_eq]
  change Trail Moves _ _ (escalate { r with solver := r.solver.adapted }).run.solver
  unfold adaptStates
  refine hadapted.append ?_
  dsimp only
  unfold escalate
  by_cases hlast : r.solver.adapted.options.alphas.getLast?.any
      (Scalar.eq r.solver.adapted.steplength) = true
  · rw [if_pos hlast, if_pos hlast]
    exact .cons (.raises _) (trail_finished (({ r with solver := _ } : Run α).report _) _ _)
  · rw [if_neg hlast, if_neg hlast]
    exact .nil _

theorem trail_assess (r : Run α) : Trail Moves r.solver r.assessStates r.assess.run.solver := by
  rw [assess_eq]
  unfold assessStates
  refine .cons (.measures _) ?_
  dsimp only
  unfold conclude
  cases (Callback.observeAll r.solver.measureStop r.solver.measureStop.callbacks).2 with
  | some f => exact .nil _
  | none => exact trail_finished ((({ r with solver := _ } : Run α).report _).report _) _ _

theorem trail_andThen {s : Solver α} {states : List (Solver α)} {flow : Flow α}
    {phase : Run α → Flow α} {phaseStates : Run α → List (Solver α)}
    (h : Trail Moves s states flow.run.solver)
    (hphase : ∀ r, Trail Moves r.solver (phaseStates r) (phase r).run.solver) :
    Trail Moves s (states ++ flow.statesThen phaseStates) (flow.andThen phase).run.solver := by
  cases flow with
  | next r => exact h.append (hphase r)
  | done r ending =>
    rw [Flow.statesThen, List.append_nil]
    exact h

theorem trail_iterate (fuel iter : ℕ) (r : Run α) :
    Trail Moves r.solver (iterateStates fuel iter r) (r.iterate fuel iter).run.solver := by
  have hfactor := trail_attempts fuel true { r with solver := r.solver.numbered iter }
  have hall := trail_andThen hfactor fun r =>
    trail_andThen r.trail_step fun r => trail_andThen r.trail_adapt trail_assess
  rw [iterate_eq, unassessed, Flow.andThen_assoc, Flow.andThen_assoc]
  exact .cons (.numbers _ _) hall

theorem trail_loop (fuel left iter : ℕ) (r : Run α) :
    Trail Moves r.solver (loopStates fuel left iter r) (r.loop fuel left iter).1.solver := by
  induction left generalizing iter r with
  | zero => exact .single (.closes _ _)
  | succ left ih =>
    have hiter := trail_iterate fuel iter r
    unfold loopStates loop
    cases hi : r.iterate fuel iter with
    | next r' =>
      rw [hi] at hiter
      exact hiter.append (ih _ _)
    | done r' ending =>
      rw [hi] at hiter
      rw [Flow.statesThen, List.append_nil]
      exact hiter

theorem mem_loopStates_of_mem_checkpoints {fuel left iter : ℕ} {t : Solver α}
    (h : t ∈ r.checkpoints fuel left iter) : t ∈ r.loopStates fuel left iter := by
  induction left generalizing iter r with
  | zero => cases h
  | succ left ih =>
    unfold checkpoints at h
    unfold loopStates
    cases hr : r.unassessed fuel iter with
    | done r' ending =>
      rw [hr] at h
      cases h
    | next r' =>
      rw [hr] at h
      have hnext : r.iterate fuel iter = r'.assess := by
        rw [iterate_eq, hr]
        rfl
      obtain ⟨r₂, hstep, hadapt⟩ := Flow.andThen_eq_next hr
      obtain ⟨r₁, hfactor, hstep⟩ := Flow.andThen_eq_next hstep
      rcases List.mem_cons.mp h with rfl | h
      · refine List.mem_append_left _ (List.mem_cons_of_mem _ (List.mem_append_right _ ?_))
        rw [hfactor, Flow.statesThen, hstep, Flow.statesThen, hadapt, Flow.statesThen]
        exact List.mem_append_right _ (List.mem_append_right _ List.mem_cons_self)
      · refine List.mem_append_right _ ?_
        rw [hnext]
        cases hassess : r'.assess with
        | done e ending =>
          rw [hassess] at h
          cases h
        | next e =>
          rw [hassess] at h
          exact ih h

end Run

namespace Solver

/-- A solve that accepts its trajectory goes from its seed to its end. -/
theorem trail_moves {s : Solver α} {xs us : List (Tensor α)} {c : Trajectory α}
    (h : s.problem.trajectory xs us = .ok c) (fuel : ℕ) (maxiter : ℤ) (feasible : Bool)
    (reginit : Weight α) : ∃ states,
      s.solveStates fuel xs us maxiter feasible reginit = s.begun c feasible reginit :: states ∧
      Trail Moves (s.begun c feasible reginit) states
        (s.solve fuel xs us maxiter feasible reginit).1.solver := by
  have hstart : (s.begun c feasible reginit).Moves
      (Run.start { solver := s.begun c feasible reginit, events := [] }).1.solver := by
    rw [Run.start_eq]
    dsimp only
    split_ifs
    · split <;> exact .evaluates _
    · exact .rests _
  unfold solveStates
  rw [solve_eq h, h]
  refine ⟨_, rfl, ?_⟩
  rcases hr : Run.start { solver := s.begun c feasible reginit, events := [] } with ⟨r, _ | f⟩ <;>
    rw [hr] at hstart
  · exact .cons hstart (Run.trail_loop _ _ _ _)
  · exact .single hstart

section States

variable {s : Solver α} {fuel : ℕ} {xs us : List (Tensor α)} {maxiter : ℤ} {feasible : Bool}
  {reginit : Weight α} {c : Trajectory α}

theorem solveStates_refused {f : Fault} (hc : s.problem.trajectory xs us = .error f) :
    s.solveStates fuel xs us maxiter feasible reginit = [] := by
  rw [solveStates, hc]

/-- What the seed of a solve has, and every operation preserves, holds in all of its states. -/
theorem forall_solveStates {P : Solver α → Prop} (hmoves : ∀ a b, Moves a b → P a → P b)
    (hbegun : ∀ c, s.problem.trajectory xs us = .ok c → P (s.begun c feasible reginit)) :
    ∀ t ∈ s.solveStates fuel xs us maxiter feasible reginit, P t := by
  cases hc : s.problem.trajectory xs us with
  | error f =>
    rw [solveStates_refused hc]
    exact List.forall_mem_nil _
  | ok c =>
    obtain ⟨states, heq, htrail⟩ := trail_moves hc fuel maxiter feasible reginit
    rw [heq]
    exact htrail.forall_mem hmoves (hbegun c hc)

theorem solver_mem_solveStates (hc : s.problem.trajectory xs us = .ok c) :
    (s.solve fuel xs us maxiter feasible reginit).1.solver ∈
      s.solveStates fuel xs us maxiter feasible reginit := by
  obtain ⟨states, heq, htrail⟩ := trail_moves hc fuel maxiter feasible reginit
  rw [heq]
  exact htrail.last_mem

theorem mem_solveStates_of_mem_checkpoints {t : Solver α}
    (h : t ∈ s.checkpoints fuel xs us maxiter feasible reginit) :
    t ∈ s.solveStates fuel xs us maxiter feasible reginit := by
  unfold checkpoints at h
  unfold solveStates
  cases hc : s.problem.trajectory xs us with
  | error f =>
    rw [hc] at h
    cases h
  | ok c =>
    rw [hc] at h
    dsimp only at h ⊢
    rcases hr : Run.start { solver := s.begun c feasible reginit, events := [] } with ⟨r, _ | f⟩ <;>
      rw [hr] at h
    · have hloop := Run.mem_loopStates_of_mem_checkpoints h
      exact List.mem_cons_of_mem _ (List.mem_cons_of_mem _ hloop)
    · cases h

end States

end Solver

namespace Solver

/-- One operation of a solve: it leaves both weights as they are, raises them, or lowers them. -/
inductive Adjusts : Solver α → Solver α → Prop
  | keeps {s t : Solver α} (options : t.options = s.options) (xreg : t.xreg = s.xreg)
    (ureg : t.ureg = s.ureg) : Adjusts s t
  | raises (s : Solver α) : Adjusts s s.increase
  | lowers (s : Solver α) : Adjusts s s.decrease

variable {s t : Solver α}

theorem adjusts_computeDirection (s : Solver α) (relinearize : Bool) :
    s.Adjusts (s.computeDirection relinearize).1 := by
  obtain ⟨knots, cost, system, direction, h⟩ := s.computeDirection_fst relinearize
  rw [h]
  exact .keeps rfl rfl rfl

theorem adjusts_tryStep (s : Solver α) (a : α) : s.Adjusts (s.tryStep a).1 := by
  obtain ⟨knots, cost, h⟩ := s.tryStep_fst a
  rw [h]
  exact .keeps rfl rfl rfl

theorem adjusts_promote (s : Solver α) : s.Adjusts s.promote.1 := by
  unfold promote setCandidate
  dsimp only
  split <;> rename_i h <;> split at h <;> cases h <;> exact .keeps rfl rfl rfl

theorem Moves.adjusts (h : s.Moves t) : s.Adjusts t := by
  cases h with
  | directs relinearize => exact s.adjusts_computeDirection relinearize
  | raises => exact .raises s
  | lowers => exact .lowers s
  | tries a => exact s.adjusts_tryStep a
  | promotes => exact s.adjusts_promote
  | _ => exact .keeps rfl rfl rfl

theorem trail_solve {s : Solver α} {xs us : List (Tensor α)} {c : Trajectory α}
    (h : s.problem.trajectory xs us = .ok c) (fuel : ℕ) (maxiter : ℤ) (feasible : Bool)
    (reginit : Weight α) : ∃ states,
      s.solveStates fuel xs us maxiter feasible reginit = s.begun c feasible reginit :: states ∧
      Trail Adjusts (s.begun c feasible reginit) states
        (s.solve fuel xs us maxiter feasible reginit).1.solver := by
  obtain ⟨states, heq, htrail⟩ := trail_moves h fuel maxiter feasible reginit
  exact ⟨states, heq, htrail.mono fun _ _ hab => hab.adjusts⟩

end Solver
end Shooting
