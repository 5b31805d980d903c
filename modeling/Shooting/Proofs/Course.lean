import Shooting.Proofs.Accounting

/-! # The course of a solve

A solve that returns has called its observers once in every iteration but possibly the last, and has
ended at one of three points. Apart from numbers this is all that happens: the flags of the
candidate change when a step is accepted and at no other time, and an iteration that does not get to
its observers has met the largest damping.
-/

namespace Shooting

variable {α : Type}

namespace Flow

variable {flow : Flow α} {phase : Run α → Flow α} {r : Run α} {ending : Ending}

theorem andThen_eq_next (h : flow.andThen phase = .next r) :
    ∃ r', flow = .next r' ∧ phase r' = .next r := by
  cases flow with
  | next r' => exact ⟨r', rfl, h⟩
  | done r' ending => cases h

theorem andThen_eq_done (h : flow.andThen phase = .done r ending) :
    flow = .done r ending ∨ ∃ r', flow = .next r' ∧ phase r' = .done r ending := by
  cases flow with
  | next r' => exact .inr ⟨r', rfl, h⟩
  | done r' ending => exact .inl h

end Flow

def Event.fromObserver : Event α → Bool
  | .header | .row _ | .recorded _ => true
  | _ => false

def Run.observerEvents (r : Run α) : List (Event α) := r.events.filter Event.fromObserver

theorem Callback.fromObserver_of_mem {s : Solver α} {e : Event α} {cs : List Callback}
    (h : e ∈ (observeAll s cs).1) : e.fromObserver = true := by
  induction cs with
  | nil => cases h
  | cons c cs ih =>
    unfold observeAll at h
    cases c with
    | recorder =>
      rcases List.mem_cons.mp h with rfl | h
      · rfl
      · exact ih h
    | table period =>
      unfold observe TableRow.events at h
      dsimp only at h
      split_ifs at h
      · cases h
      · rcases List.mem_append.mp h with h | h
        · rcases List.mem_pair.mp h with rfl | rfl <;> rfl
        · exact ih h
      · rcases List.mem_append.mp h with h | h
        · obtain rfl := List.mem_singleton.mp h
          rfl
        · exact ih h

theorem Run.observerEvents_report (r : Run α) (events : List (Event α)) :
    (r.report events).observerEvents = r.observerEvents ++ events.filter Event.fromObserver :=
  List.filter_append ..

variable [Scalar α]

/-- What a solve keeps account of besides numbers: a phase without steps and observers leaves it. -/
structure Run.Kept (r r' : Run α) : Prop where
  candidate : r'.solver.candidate = r.solver.candidate
  wasFeasible : r'.solver.wasFeasible = r.solver.wasFeasible
  search : r'.solver.search = r.solver.search
  stats : r'.solver.stats = r.solver.stats
  options : r'.solver.options = r.solver.options
  callbacks : r'.solver.callbacks = r.solver.callbacks
  observerEvents : r'.observerEvents = r.observerEvents

def Run.Saturated (r : Run α) : Prop := r.solver.xreg.saturated r.solver.options = true

/-- A phase that hands on a run as it was, or if it returns, does so at the largest damping. -/
def Flow.Keeps (r : Run α) : Flow α → Prop
  | .next r' => r.Kept r'
  | .done e ending => ∀ b, ending = .returned b →
    ∃ r', r.Kept r' ∧ r'.Saturated ∧ (e, ending) = r'.finish .maxRegularization

namespace Run

variable {r r' r'' : Run α} {fuel iter left : ℕ}

omit [Scalar α] in
theorem Kept.trans (h : r.Kept r') (h' : r'.Kept r'') : r.Kept r'' where
  candidate := h'.candidate.trans h.candidate
  wasFeasible := h'.wasFeasible.trans h.wasFeasible
  search := h'.search.trans h.search
  stats := h'.stats.trans h.stats
  options := h'.options.trans h.options
  callbacks := h'.callbacks.trans h.callbacks
  observerEvents := h'.observerEvents.trans h.observerEvents

theorem Kept.keeps (h : r.Kept r') {flow : Flow α} (h' : flow.Keeps r') : flow.Keeps r := by
  cases flow with
  | next r'' => exact h.trans h'
  | done e ending =>
    intro b hb
    obtain ⟨r'', hkept, hend⟩ := h' b hb
    exact ⟨r'', h.trans hkept, hend⟩

theorem keeps_finished (h : r.Kept r') (hr : r'.Saturated) :
    (r'.finished .maxRegularization).Keeps r := by
  intro b hb
  exact ⟨r', h, hr, rfl⟩

end Run

theorem Solver.tryStep_fst (s : Solver α) (a : α) : ∃ knots cost,
    (s.tryStep a).1 = { s with knots, attempt := { s.trialAt a with cost } } := by
  unfold tryStep
  dsimp only
  split <;> exact ⟨_, _, rfl⟩

theorem Solver.computeDirection_fst (s : Solver α) (relinearize : Bool) :
    ∃ knots cost system direction,
      (s.computeDirection relinearize).1 = { s with knots, cost, system, direction } := by
  cases relinearize with
  | false =>
    rw [computeDirection_false, factorize_fst]
    exact ⟨_, _, _, _, rfl⟩
  | true =>
    rcases hl : s.linearize with ⟨s', f | cost⟩
    · have hs' : ∃ knots, s' = { s with knots } := by
        unfold linearize at hl
        split at hl <;> cases hl
        exact ⟨_, rfl⟩
      obtain ⟨knots, rfl⟩ := hs'
      refine ⟨knots, s.cost, s.system, s.direction, ?_⟩
      rw [computeDirection, if_pos rfl, hl]
    · obtain ⟨knots, -, rfl⟩ := linearize_eq_ok hl
      rw [computeDirection_true hl, factorize_fst]
      exact ⟨_, _, _, _, rfl⟩

namespace Run

variable {r r' r'' : Run α} {fuel iter left : ℕ}

theorem kept_computeDirection (r : Run α) (relinearize : Bool) :
    r.Kept { r with solver := (r.solver.computeDirection relinearize).1 } := by
  obtain ⟨knots, cost, system, direction, h⟩ := r.solver.computeDirection_fst relinearize
  rw [h]
  exact ⟨rfl, rfl, rfl, rfl, rfl, rfl, rfl⟩

omit [Scalar α] in
theorem Kept.report (h : r.Kept r') {events : List (Event α)}
    (he : events.filter Event.fromObserver = []) : r.Kept (r'.report events) where
  candidate := h.candidate
  wasFeasible := h.wasFeasible
  search := h.search
  stats := h.stats
  options := h.options
  callbacks := h.callbacks
  observerEvents := by rw [observerEvents_report, he, List.append_nil, h.observerEvents]

theorem keeps_factorize (fuel : ℕ) (relinearize : Bool) (r : Run α) :
    (factorize fuel relinearize r).Keeps r := by
  induction fuel generalizing relinearize r with
  | zero =>
    rintro b hb
    cases hb
  | succ fuel ih =>
    have hkept := r.kept_computeDirection relinearize
    rw [factorize_succ]
    rcases hd : r.solver.computeDirection relinearize with ⟨s, f | code⟩ <;> rw [hd] at hkept
    · rintro b hb
      cases hb
    · change (resume fuel code { r with solver := s }).Keeps r
      unfold resume
      split_ifs with hcode hsat
      · exact hkept
      · exact keeps_finished hkept hsat
      · have hraised : r.Kept { r with solver := s.increase } :=
          { hkept with }
        exact (hraised.report rfl).keeps (ih false _)

theorem keeps_adapt (r : Run α) : r.adapt.Keeps r := by
  have hadapted : r.Kept { r with solver := r.solver.adapted } := by
    unfold Solver.adapted
    split <;> exact ⟨rfl, rfl, rfl, rfl, rfl, rfl, rfl⟩
  rw [adapt_eq]
  change (escalate { r with solver := r.solver.adapted }).Keeps r
  unfold escalate
  split_ifs with hlast
  · have hraised : r.Kept { r with solver := r.solver.adapted.increase } :=
      { hadapted with }
    unfold unlessSaturated
    split_ifs with hsat
    · exact keeps_finished (hraised.report rfl) hsat
    · exact hraised.report rfl
  · exact hadapted

end Run

theorem Solver.promote_eq_ok {s s' : Solver α} (h : s.promote = (s', .ok ())) :
    ∃ c : Trajectory α, s' = { s with
      wasFeasible := s.candidate.feasible
      candidate := { c with feasible := true }
      cost := s.attempt.cost } := by
  unfold promote setCandidate at h
  dsimp only at h
  split at h
  · cases h
  · rename_i hc
    split at hc <;> cases hc
    cases h
    exact ⟨_, rfl⟩

/-- How a run gets on: its flags change with an accepted step only. -/
structure Run.Marked (r r' : Run α) : Prop where
  feasible : r'.solver.candidate.feasible =
    (r.solver.candidate.feasible || r'.solver.search.accepted)
  wasFeasible : r'.solver.wasFeasible =
    if r'.solver.search.accepted then r.solver.candidate.feasible else r.solver.wasFeasible
  stats : r'.solver.stats = r.solver.stats
  options : r'.solver.options = r.solver.options
  callbacks : r'.solver.callbacks = r.solver.callbacks
  observerEvents : r'.observerEvents = r.observerEvents

namespace Run

variable {r r' r'' : Run α} {fuel iter left : ℕ} {f : Fault} {ending : Ending}

theorem observerEvents_searched (r : Run α) : r.searched.observerEvents = r.observerEvents := by
  have hsearch : (r.solver.predict.searchStep.events.map Event.search).filter
      Event.fromObserver = [] := by
    simp [Event.fromObserver]
  rw [searched, observerEvents_report, hsearch, List.append_nil]
  rfl

theorem marked_step (h : r.step = .next r') : r.Marked r' := by
  obtain ⟨w, ⟨knots, attempt, -, rfl⟩, hstate⟩ := r.solver.predict.searchStep_trying
  have hobs := r.observerEvents_searched
  rw [step_eq] at h
  split at h
  · cases h
  · rename_i a _
    rw [advance_eq, solver_searched, hstate] at h
    split_ifs at h with hacc
    · split at h <;> cases h
      rename_i s hp
      obtain ⟨c, rfl⟩ := Solver.promote_eq_ok hp
      refine ⟨?_, (if_pos hacc).symm, rfl, rfl, rfl, hobs⟩
      exact (Bool.or_eq_true_iff.mpr (.inr hacc)).symm
    · cases h
      refine ⟨?_, (if_neg hacc).symm, rfl, rfl, rfl, hobs⟩
      have hrej := Bool.eq_false_iff.mpr hacc
      exact (congrArg _ hrej).trans (Bool.or_false _) |>.symm

theorem raised_of_step (h : r.step = .done r' ending) : ∃ f, ending = .raised f := by
  rw [step_eq] at h
  split at h
  · cases h
    exact ⟨_, rfl⟩
  · rw [advance_eq] at h
    split_ifs at h
    split at h <;> cases h
    exact ⟨_, rfl⟩

end Run

def Solver.Converged (s : Solver α) : Prop :=
  s.wasFeasible = true ∧ Scalar.lt s.stop s.options.stopThreshold = true

/-- An iteration that calls the observers, with a solver, and goes on to another run. -/
structure Run.Observes (iter : ℕ) (r : Run α) (s : Solver α) (r' : Run α) : Prop where
  feasible : s.candidate.feasible = (r.solver.candidate.feasible || s.search.accepted)
  wasFeasible : s.wasFeasible =
    if s.search.accepted then r.solver.candidate.feasible else r.solver.wasFeasible
  iterations : s.stats.iterations = iter + 1
  options : s.options = r.solver.options
  callbacks : s.callbacks = r.solver.callbacks
  quiet : (Callback.observeAll s s.callbacks).2 = none
  solver : r'.solver = s
  observerEvents : r'.observerEvents = r.observerEvents ++ (Callback.observeAll s s.callbacks).1

/-- An iteration that meets the largest damping and goes no further. -/
structure Run.Overdamped (iter : ℕ) (r r' : Run α) : Prop where
  iterations : r'.solver.stats.iterations = iter + 1
  options : r'.solver.options = r.solver.options
  observerEvents : r'.observerEvents = r.observerEvents
  saturated : r'.Saturated

namespace Run

variable {r r' r'' e : Run α} {fuel iter left : ℕ} {b : Bool}

omit [Scalar α] in
theorem Kept.marked (h : r.Kept r') (h' : r'.Marked r'') : r.Marked r'' where
  feasible := h.candidate ▸ h'.feasible
  wasFeasible := h.candidate ▸ h.wasFeasible ▸ h'.wasFeasible
  stats := h'.stats.trans h.stats
  options := h'.options.trans h.options
  callbacks := h'.callbacks.trans h.callbacks
  observerEvents := h'.observerEvents.trans h.observerEvents

omit [Scalar α] in
theorem Marked.kept (h : r.Marked r') (h' : r'.Kept r'') : r.Marked r'' where
  feasible := by
    rw [h'.candidate, h'.search]
    exact h.feasible
  wasFeasible := by
    rw [h'.wasFeasible, h'.search]
    exact h.wasFeasible
  stats := h'.stats.trans h.stats
  options := h'.options.trans h.options
  callbacks := h'.callbacks.trans h.callbacks
  observerEvents := h'.observerEvents.trans h.observerEvents

theorem marked_of_step
    (h : (factorize fuel true { r with solver := r.solver.numbered iter }).andThen step =
      .next r') :
    ({ r with solver := r.solver.numbered iter } : Run α).Marked r' := by
  obtain ⟨r₁, hfactor, hstep⟩ := Flow.andThen_eq_next h
  have hkept := keeps_factorize fuel true { r with solver := r.solver.numbered iter }
  rw [hfactor] at hkept
  exact Kept.marked hkept (marked_step hstep)

theorem marked_of_unassessed (h : r.unassessed fuel iter = .next r') :
    ({ r with solver := r.solver.numbered iter } : Run α).Marked r' := by
  obtain ⟨r₂, hstep, hadapt⟩ := Flow.andThen_eq_next h
  have hkept := keeps_adapt r₂
  rw [hadapt] at hkept
  exact (marked_of_step hstep).kept hkept

/-- Before the observers are called only the largest damping makes a solve return. -/
theorem overdamped_of_unassessed (h : r.unassessed fuel iter = .done e (.returned b)) :
    ∃ r', Overdamped iter r r' ∧ (e, Ending.returned b) = r'.finish .maxRegularization := by
  rcases Flow.andThen_eq_done h with hrest | ⟨r₂, hrest, hadapt⟩
  · rcases Flow.andThen_eq_done hrest with hfactor | ⟨r₁, -, hstep⟩
    · have hkeeps := keeps_factorize fuel true { r with solver := r.solver.numbered iter }
      rw [hfactor] at hkeeps
      obtain ⟨r', hkept, hsat, hend⟩ := hkeeps b rfl
      exact ⟨r', ⟨congrArg Stats.iterations hkept.stats, hkept.options, hkept.observerEvents, hsat⟩,
        hend⟩
    · obtain ⟨f, hf⟩ := raised_of_step hstep
      cases hf
  · have hmarked := marked_of_step hrest
    have hkeeps := keeps_adapt r₂
    rw [hadapt] at hkeeps
    obtain ⟨r', hkept, hsat, hend⟩ := hkeeps b rfl
    have hmarked' := hmarked.kept hkept
    exact ⟨r', ⟨congrArg Stats.iterations hmarked'.stats, hmarked'.options, hmarked'.observerEvents,
      hsat⟩, hend⟩

def observedBy (r : Run α) (s : Solver α) : Run α :=
  (({ r with solver := s } : Run α).report (Callback.observeAll s s.callbacks).1).report
    [.summary s.summary]

theorem observes_of_unassessed (h : r.unassessed fuel iter = .next r')
    (hquiet : (Callback.observeAll r'.solver.measureStop r'.solver.measureStop.callbacks).2 =
      none) :
    r.Observes iter r'.solver.measureStop (r'.observedBy r'.solver.measureStop) := by
  have hmarked := marked_of_unassessed h
  refine ⟨hmarked.feasible, hmarked.wasFeasible, congrArg Stats.iterations hmarked.stats,
    hmarked.options, hmarked.callbacks, hquiet, rfl, ?_⟩
  rw [observedBy, observerEvents_report, observerEvents_report]
  have hall : (Callback.observeAll r'.solver.measureStop
      r'.solver.measureStop.callbacks).1.filter Event.fromObserver = _ :=
    List.filter_eq_self.mpr fun e he => Callback.fromObserver_of_mem he
  rw [hall]
  have hsummary : [Event.summary r'.solver.measureStop.summary].filter Event.fromObserver = [] :=
    rfl
  rw [hsummary, List.append_nil]
  exact congrArg (· ++ _) hmarked.observerEvents

theorem assess_quiet
    (hquiet : (Callback.observeAll r.solver.measureStop r.solver.measureStop.callbacks).2 = none) :
    (r.solver.measureStop.Converged ∧
        r.assess = (r.observedBy r.solver.measureStop).finished .success) ∨
      (¬ r.solver.measureStop.Converged ∧
        r.assess = .next (r.observedBy r.solver.measureStop)) := by
  rw [assess_eq]
  dsimp only
  rw [hquiet]
  unfold conclude Solver.Converged
  dsimp only
  split_ifs with hc
  · exact .inl ⟨Bool.and_eq_true_iff.mp hc, rfl⟩
  · exact .inr ⟨fun h => hc (Bool.and_eq_true_iff.mpr h), rfl⟩

theorem assess_raised {f : Fault}
    (hf : (Callback.observeAll r.solver.measureStop r.solver.measureStop.callbacks).2 = some f) :
    ∃ r', r.assess = .done r' (.raised f) := by
  rw [assess_eq]
  dsimp only
  rw [hf]
  exact ⟨_, rfl⟩

theorem observes_of_next (h : r.iterate fuel iter = .next r') :
    ∃ r₁, r.unassessed fuel iter = .next r₁ ∧ r₁.assess = .next r' ∧
      r.Observes iter r₁.solver.measureStop r' ∧ ¬ r₁.solver.measureStop.Converged := by
  obtain ⟨r₁, hr₁, hassess⟩ := Flow.andThen_eq_next h
  refine ⟨r₁, hr₁, hassess, ?_⟩
  cases hq : (Callback.observeAll r₁.solver.measureStop r₁.solver.measureStop.callbacks).2 with
  | some f =>
    obtain ⟨e, he⟩ := assess_raised hq
    cases he.symm.trans hassess
  | none =>
    rcases assess_quiet hq with ⟨-, ha⟩ | ⟨hc, ha⟩
    · cases ha.symm.trans hassess
    · obtain rfl := Flow.next.inj (ha.symm.trans hassess)
      exact ⟨observes_of_unassessed hr₁ hq, hc⟩

theorem overdamped_or_observes (h : r.iterate fuel iter = .done e (.returned b)) :
    (r.unassessed fuel iter = .done e (.returned b) ∧
      ∃ r', r.Overdamped iter r' ∧ (e, Ending.returned b) = r'.finish .maxRegularization) ∨
    ∃ r₁ r', r.unassessed fuel iter = .next r₁ ∧ r₁.assess = .done e (.returned b) ∧
      r.Observes iter r₁.solver.measureStop r' ∧ r₁.solver.measureStop.Converged ∧
      (e, Ending.returned b) = r'.finish .success := by
  rcases Flow.andThen_eq_done h with hr | ⟨r₁, hr₁, hassess⟩
  · exact .inl ⟨hr, overdamped_of_unassessed hr⟩
  · right
    cases hq : (Callback.observeAll r₁.solver.measureStop r₁.solver.measureStop.callbacks).2 with
    | some f =>
      obtain ⟨e', he⟩ := assess_raised hq
      cases he.symm.trans hassess
    | none =>
      rcases assess_quiet hq with ⟨hc, ha⟩ | ⟨-, ha⟩
      · refine ⟨r₁, _, hr₁, hassess, observes_of_unassessed hr₁ hq, hc, ?_⟩
        cases ha.symm.trans hassess
        rfl
      · cases ha.symm.trans hassess

/-- The solvers that the observers are called with in the iterations numbered from `iter` on. -/
def checkpoints (fuel : ℕ) : ℕ → ℕ → Run α → List (Solver α)
  | 0, _, _ => []
  | left + 1, iter, r =>
    match r.unassessed fuel iter with
    | .done _ _ => []
    | .next r =>
      r.solver.measureStop ::
        match r.assess with
        | .done _ _ => []
        | .next r => checkpoints fuel left (iter + 1) r

/-- What each iteration preserves, of a run and of the solvers that the observers have been called
with before it, holds of every run that is visited. -/
theorem Visits.invariant {P : List (Solver α) → Run α → Prop} {r₀ : Run α}
    (h : r₀.Visits fuel iter r) (first : P [] r₀)
    (next : ∀ points r r₁ r', r₀.Visits fuel points.length r → P points r →
      r.unassessed fuel points.length = .next r₁ → r'.solver = r₁.solver.measureStop →
      P (points ++ [r₁.solver.measureStop]) r') :
    ∃ points, P points r ∧ points.length = iter ∧
      ∀ left, r₀.checkpoints fuel (iter + left) 0 = points ++ r.checkpoints fuel left iter := by
  induction h with
  | first => exact ⟨[], first, rfl, fun left => by rw [Nat.zero_add, List.nil_append]⟩
  | next hvisits hr ih =>
    obtain ⟨points, hpoints, rfl, hrest⟩ := ih
    obtain ⟨r₁, hr₁, hassess, hobs, -⟩ := observes_of_next hr
    refine ⟨_, next _ _ _ _ hvisits hpoints hr₁ hobs.solver, ?_, fun left => ?_⟩
    · rw [List.length_append, List.length_singleton]
    · rw [Nat.add_assoc, Nat.add_comm 1, hrest, checkpoints, hr₁]
      dsimp only
      rw [hassess, List.append_assoc, List.singleton_append]

/-- The rest of a solve, from the iteration with a number on and with so many left: the solvers that
the observers are called with, and the run that is finished with a status. -/
inductive Course : ℕ → ℕ → Run α → List (Solver α) → Run α → SolveStatus → Prop
  | exhausted (iter : ℕ) (r : Run α) : Course 0 iter r [] r .maxIterations
  | overdamped {iter : ℕ} {r e : Run α} (h : Overdamped iter r e) (left : ℕ) :
    Course (left + 1) iter r [] e .maxRegularization
  | converged {iter : ℕ} {r e : Run α} {s : Solver α} (h : Observes iter r s e) (hs : s.Converged)
    (left : ℕ) : Course (left + 1) iter r [s] e .success
  | next {left iter : ℕ} {r r' e : Run α} {s : Solver α} {points : List (Solver α)}
    {status : SolveStatus} (h : Observes iter r s r') (hs : ¬ s.Converged)
    (rest : Course left (iter + 1) r' points e status) :
    Course (left + 1) iter r (s :: points) e status

theorem course_of_loop (h : r.loop fuel left iter = (e, .returned b)) :
    ∃ r' status, Course left iter r (r.checkpoints fuel left iter) r' status ∧
      (e, Ending.returned b) = r'.finish status := by
  induction left generalizing iter r with
  | zero => exact ⟨r, _, .exhausted _ _, h.symm⟩
  | succ left ih =>
    unfold loop at h
    unfold checkpoints
    cases hi : r.iterate fuel iter with
    | next r' =>
      rw [hi] at h
      obtain ⟨r₁, hr₁, hassess, hobs, hc⟩ := observes_of_next hi
      obtain ⟨e', status, hcourse, hend⟩ := ih h
      rw [hr₁]
      dsimp only
      rw [hassess]
      exact ⟨e', status, .next hobs hc hcourse, hend⟩
    | done e' ending =>
      rw [hi] at h
      cases h
      rcases overdamped_or_observes hi with
        ⟨hr, r', hover, hend⟩ | ⟨r₁, r', hr₁, hassess, hobs, hc, hend⟩
      · rw [hr]
        exact ⟨r', _, .overdamped hover left, hend⟩
      · rw [hr₁]
        dsimp only
        rw [hassess]
        exact ⟨r', _, .converged hobs hc left, hend⟩

end Run
end Shooting
