import Shooting.Proofs.Course

/-! # The outcome of a solve

How the flags of the candidate, the status, the number of iterations and the calls of the observers
hang together in a solve that returns, whatever its options and wherever it starts. The flags count
accepted steps, up to one for the candidate and up to two for the one before it, so that success
needs one accepted step from a feasible trajectory and two from any other.
-/

namespace Shooting

variable {α : Type} [Scalar α]

namespace Solver

def acceptances (points : List (Solver α)) : ℕ := points.countP fun s => s.search.accepted

/-- The flags of a solver that has accepted so many steps, from a trajectory that was held to be
feasible at first or was not. -/
structure Flagged (first : Bool) (n : ℕ) (s : Solver α) : Prop where
  feasible : s.candidate.feasible = (first || decide (1 ≤ n))
  wasFeasible : s.wasFeasible = (first && decide (1 ≤ n) || decide (2 ≤ n))

omit [Scalar α] in
/-- Success takes one accepted step, or two from a trajectory that was not feasible. -/
theorem Flagged.le_of_wasFeasible {first : Bool} {n : ℕ} {s : Solver α}
    (h : s.Flagged first n) (hs : s.wasFeasible = true) : (if first then 1 else 2) ≤ n := by
  have hflag := h.wasFeasible.symm.trans hs
  cases first with
  | false => simpa using hflag
  | true =>
    rcases Bool.or_eq_true_iff.mp hflag with hn | hn
    · exact of_decide_eq_true hn
    · exact le_of_lt (of_decide_eq_true hn)

end Solver

namespace Run

variable {r r' e : Run α} {s : Solver α} {points : List (Solver α)} {status : SolveStatus}
  {left iter n : ℕ} {first : Bool}

omit [Scalar α] in
theorem Observes.flagged (h : Observes iter r s r') (hr : r.solver.Flagged first n) :
    s.Flagged first (n + Solver.acceptances [s]) := by
  have hf := h.feasible
  have hw := h.wasFeasible
  rw [hr.feasible] at hf hw
  rw [hr.wasFeasible] at hw
  cases hacc : s.search.accepted with
  | false =>
    have hcount : Solver.acceptances [s] = 0 := by simp [Solver.acceptances, hacc]
    rw [hacc] at hf hw
    rw [hcount]
    exact ⟨hf.trans (Bool.or_false _), hw⟩
  | true =>
    have hcount : Solver.acceptances [s] = 1 := by simp [Solver.acceptances, hacc]
    rw [hacc] at hf hw
    rw [hcount]
    constructor
    · simpa using hf
    · simpa using hw

theorem Course.flagged (h : Course left iter r points e status)
    (hr : r.solver.Flagged first n) {k : ℕ} (hk : points[k]? = some s) :
    s.Flagged first (n + Solver.acceptances (points.take (k + 1))) := by
  induction h generalizing n k with
  | exhausted => cases hk
  | overdamped => cases hk
  | converged h =>
    cases k with
    | zero =>
      cases hk
      exact h.flagged hr
    | succ k => cases hk
  | @next _ _ _ _ _ s' points _ h _ _ ih =>
    have hs' := h.flagged hr
    cases k with
    | zero =>
      cases hk
      exact hs'
    | succ k =>
      have hsplit : Solver.acceptances ((s' :: points).take (k + 1 + 1)) =
          Solver.acceptances [s'] + Solver.acceptances (points.take (k + 1)) :=
        @List.countP_append _ _ [s'] _
      rw [hsplit, ← Nat.add_assoc]
      exact ih (h.solver ▸ hs') hk

theorem Course.success_iff (h : Course left iter r points e status) :
    status = .success ↔ ∃ s ∈ points, s.Converged := by
  induction h with
  | exhausted => simp
  | overdamped => simp
  | converged _ hs => simp [hs]
  | next _ hs _ ih => simp [ih, hs]

theorem Course.last (h : Course left iter r points e status) {k : ℕ} (hk : points[k]? = some s)
    (hs : s.Converged) : k + 1 = points.length := by
  induction h generalizing k with
  | exhausted => cases hk
  | overdamped => cases hk
  | converged =>
    cases k with
    | zero => rfl
    | succ k => cases hk
  | next _ hs' _ ih =>
    cases k with
    | zero =>
      cases hk
      exact absurd hs hs'
    | succ k => exact congrArg (· + 1) (ih hk)

/-- The observers are called in each iteration but one that meets the largest damping. -/
theorem Course.iterations (h : Course left iter r points e status)
    (hr : r.solver.stats.iterations = iter) :
    e.solver.stats.iterations =
      iter + points.length + if status = .maxRegularization then 1 else 0 := by
  induction h with
  | exhausted => simpa using hr
  | overdamped h => simpa using h.iterations
  | converged h =>
    rw [h.solver]
    simpa using h.iterations
  | next h _ _ ih =>
    rw [ih (h.solver ▸ h.iterations)]
    simp only [List.length_cons]
    omega

theorem Course.length_le (h : Course left iter r points e status) :
    (points.length + if status = .maxRegularization then 1 else 0) ≤ left := by
  induction h with
  | exhausted => simp
  | overdamped => simp
  | converged => simp
  | next _ _ _ ih =>
    simp only [List.length_cons]
    omega

theorem Course.length_eq (h : Course left iter r points e status)
    (hs : status = .maxIterations) : points.length = left := by
  induction h with
  | exhausted => rfl
  | overdamped => cases hs
  | converged => cases hs
  | next _ _ _ ih => exact congrArg (· + 1) (ih hs)

theorem Course.options (h : Course left iter r points e status) :
    e.solver.options = r.solver.options := by
  induction h with
  | exhausted => rfl
  | overdamped h => exact h.options
  | converged h => exact h.solver ▸ h.options
  | next h _ _ ih => exact ih.trans (h.solver ▸ h.options)

theorem Course.saturated (h : Course left iter r points e status)
    (hs : status = .maxRegularization) : e.Saturated := by
  induction h with
  | exhausted => cases hs
  | overdamped h => exact h.saturated
  | converged => cases hs
  | next _ _ _ ih => exact ih hs

theorem Course.ne_unsolved (h : Course left iter r points e status) : status ≠ .unsolved := by
  induction h with
  | exhausted => decide
  | overdamped => decide
  | converged => decide
  | next _ _ _ ih => exact ih

theorem Course.observerEvents (h : Course left iter r points e status) :
    e.observerEvents = r.observerEvents ++
      points.flatMap fun s => (Callback.observeAll s r.solver.callbacks).1 := by
  induction h with
  | exhausted => simp
  | overdamped h => simpa using h.observerEvents
  | converged h => simpa [h.callbacks] using h.observerEvents
  | next h _ _ ih =>
    have hcallbacks := h.solver ▸ h.callbacks
    rw [ih, h.observerEvents, hcallbacks, h.callbacks, List.flatMap_cons, List.append_assoc]

theorem Course.quiet (h : Course left iter r points e status) :
    ∀ s ∈ points, (Callback.observeAll s r.solver.callbacks).2 = none ∧
      s.options = r.solver.options := by
  induction h with
  | exhausted => simp
  | overdamped => simp
  | converged h => simpa using ⟨h.callbacks ▸ h.quiet, h.options⟩
  | next h _ _ ih =>
    have hcallbacks := h.solver ▸ h.callbacks
    have hoptions := h.solver ▸ h.options
    rintro s (_ | ⟨_, hs⟩)
    · exact ⟨h.callbacks ▸ h.quiet, h.options⟩
    · exact hcallbacks ▸ hoptions ▸ ih s hs

theorem kept_start (r : Run α) : r.Kept r.start.1 := by
  have hkept : r.Kept r := ⟨rfl, rfl, rfl, rfl, rfl, rfl, rfl⟩
  have hevaluated : r.Kept { r with solver := r.solver.evaluated } := { hkept with }
  rw [start_eq]
  split_ifs
  · split
    · exact hevaluated.report rfl
    · exact (hevaluated.report rfl).report rfl
  · exact hkept.report rfl

end Run

namespace Solver

def checkpoints (s : Solver α) (fuel : ℕ) (xs us : List (Tensor α)) (maxiter : ℤ) (feasible : Bool)
    (reginit : Weight α) : List (Solver α) :=
  match s.problem.trajectory xs us with
  | .error _ => []
  | .ok c =>
    match Run.start { solver := s.begun c feasible reginit, events := [] } with
    | (_, some _) => []
    | (r, none) => r.checkpoints fuel maxiter.toNat 0

theorem Iterates.invariant {s : Solver α} {fuel iter : ℕ} {xs us : List (Tensor α)} {maxiter : ℤ}
    {feasible : Bool} {reginit : Weight α} {r : Run α} {P : List (Solver α) → Run α → Prop}
    (h : s.Iterates fuel xs us maxiter feasible reginit iter r)
    (first : ∀ c r₀, s.problem.trajectory xs us = .ok c →
      Run.start { solver := s.begun c feasible reginit, events := [] } = (r₀, none) → P [] r₀)
    (next : ∀ points r r₁ r',
      s.Iterates fuel xs us maxiter feasible reginit points.length r → P points r →
      r.unassessed fuel points.length = .next r₁ → r'.solver = r₁.solver.measureStop →
      P (points ++ [r₁.solver.measureStop]) r') :
    P ((s.checkpoints fuel xs us maxiter feasible reginit).take iter) r := by
  obtain ⟨⟨c, r₀, hc, hstart, hvisits⟩, hlt⟩ := h
  have hall := Run.Visits.invariant
    (P := fun points r => (points.length : ℤ) < maxiter → P points r) hvisits
    (fun _ => first c r₀ hc hstart) (fun points r r₁ r' hr hpoints hr₁ hr' hlen => by
      have hlt' : (points.length : ℤ) < maxiter := by
        rw [List.length_append, List.length_singleton] at hlen
        omega
      exact next points r r₁ r' ⟨⟨c, r₀, hc, hstart, hr⟩, hlt'⟩ (hpoints hlt') hr₁ hr')
  obtain ⟨points, hpoints, rfl, hrest⟩ := hall
  have hleft : maxiter.toNat = points.length + (maxiter.toNat - points.length) := by omega
  have htake : (s.checkpoints fuel xs us maxiter feasible reginit).take points.length = points := by
    unfold checkpoints
    rw [hc]
    dsimp only
    rw [hstart]
    dsimp only
    rw [hleft, hrest, List.take_left]
  rw [htake]
  exact hpoints hlt

/-- What can be said of a solve that has returned with an answer, in a run, after it has called the
observers with the solvers in a list. -/
structure Outcome (s : Solver α) (maxiter : ℤ) (first : Bool) (points : List (Solver α))
    (r : Run α) (converged : Bool) : Prop where
  /-- No call has raised a fault, and together they have made the reports of the observers. -/
  quiet : ∀ t ∈ points, (Callback.observeAll t s.callbacks).2 = none
  observerEvents : r.observerEvents = points.flatMap fun t => (Callback.observeAll t s.callbacks).1
  flags : ∀ k (t : Solver α), points[k]? = some t →
    t.Flagged first (acceptances (points.take (k + 1)))
  accepted : r.solver.stats.status = .success → (if first then 1 else 2) ≤ acceptances points
  status : r.solver.stats.status ≠ .unsolved
  converged : converged = true ↔ r.solver.stats.status = .success
  success : r.solver.stats.status = .success ↔
    ∃ t ∈ points, t.wasFeasible = true ∧ Scalar.lt t.stop s.options.stopThreshold = true
  last : ∀ k (t : Solver α), points[k]? = some t → t.wasFeasible = true →
    Scalar.lt t.stop s.options.stopThreshold = true → k + 1 = points.length
  maxIterations : r.solver.stats.status = .maxIterations →
    r.solver.stats.iterations = max maxiter 0
  maxRegularization : r.solver.stats.status = .maxRegularization →
    ∃ a, r.solver.xreg = some a ∧ Scalar.eq a s.options.regMax = true
  iterations_le : r.solver.stats.iterations ≤ max maxiter 0
  length : (points.length : ℤ) =
    if r.solver.stats.status = .maxRegularization then r.solver.stats.iterations - 1
    else r.solver.stats.iterations

variable {s : Solver α} {fuel : ℕ} {xs us : List (Tensor α)} {maxiter : ℤ} {first : Bool}
  {reginit : Weight α} {b : Bool}

theorem course_of_returned (h : (s.solve fuel xs us maxiter first reginit).2 = .returned b) :
    ∃ c r e status, ({ solver := s.begun c first reginit, events := [] } : Run α).Kept r ∧
      Run.Course maxiter.toNat 0 r (s.checkpoints fuel xs us maxiter first reginit) e status ∧
      s.solve fuel xs us maxiter first reginit = e.finish status := by
  obtain ⟨c, r, hc, hstart, hloop⟩ := loop_of_returned h
  have hkept := Run.kept_start { solver := s.begun c first reginit, events := [] }
  unfold checkpoints
  rw [hloop] at h ⊢
  rw [hc]
  dsimp only
  rw [hstart] at hkept ⊢
  obtain ⟨e, status, hcourse, hend⟩ := Run.course_of_loop (Prod.ext rfl h)
  refine ⟨c, r, e, status, hkept, hcourse, ?_⟩
  rw [← hend]
  exact Prod.ext rfl h

/-- The outcome of any solve that returns, from any solver. -/
theorem outcome_of_returned (h : (s.solve fuel xs us maxiter first reginit).2 = .returned b) :
    s.Outcome maxiter first (s.checkpoints fuel xs us maxiter first reginit)
      (s.solve fuel xs us maxiter first reginit).1 b := by
  obtain ⟨c, r, e, status, hkept, hcourse, hend⟩ := course_of_returned h
  rw [hend] at h ⊢
  generalize s.checkpoints fuel xs us maxiter first reginit = points at hcourse ⊢
  have hfirst : r.solver.Flagged first 0 := by
    constructor
    · simp [hkept.candidate, begun]
    · simp [hkept.wasFeasible, begun]
  have hflags (k : ℕ) (t : Solver α) (ht : points[k]? = some t) :
      t.Flagged first (acceptances (points.take (k + 1))) := by
    simpa using hcourse.flagged hfirst ht
  have hconverged (t : Solver α) (ht : t ∈ points) : t.Converged ↔
      t.wasFeasible = true ∧ Scalar.lt t.stop s.options.stopThreshold = true := by
    rw [Converged, (hcourse.quiet t ht).2, hkept.options]
    rfl
  have hcount : e.solver.stats.iterations =
      points.length + if status = .maxRegularization then 1 else 0 := by
    simpa using hcourse.iterations (congrArg Stats.iterations hkept.stats)
  have hle := hcourse.length_le
  constructor
  case quiet => exact fun t ht => hkept.callbacks ▸ (hcourse.quiet t ht).1
  case observerEvents =>
    have hnil : r.observerEvents = [] := hkept.observerEvents
    have hfinish : (e.finish status).1.observerEvents = e.observerEvents :=
      (Run.observerEvents_report _ _).trans (List.append_nil _)
    rw [hfinish, hcourse.observerEvents, hnil, hkept.callbacks, List.nil_append]
    rfl
  case flags => exact hflags
  case accepted =>
    rintro (rfl : status = .success)
    obtain ⟨t, ht, hs⟩ := hcourse.success_iff.mp rfl
    obtain ⟨k, hk⟩ := List.getElem?_of_mem ht
    have hn := (hflags k t hk).le_of_wasFeasible hs.1
    rwa [hcourse.last hk hs, List.take_length] at hn
  case status => exact hcourse.ne_unsolved
  case converged =>
    have hb : decide (status = .success) = b := Ending.returned.inj h
    rw [← hb]
    exact decide_eq_true_iff
  case success =>
    rw [← exists_congr fun t => and_congr_right (hconverged t)]
    exact hcourse.success_iff
  case last =>
    intro k t hk hw hs
    exact hcourse.last hk ((hconverged t (List.mem_of_getElem? hk)).mpr ⟨hw, hs⟩)
  case maxIterations =>
    rintro (rfl : status = .maxIterations)
    have hlen := hcourse.length_eq rfl
    change e.solver.stats.iterations = _
    rw [hcount, if_neg (by decide), hlen]
    omega
  case maxRegularization =>
    intro hs
    have hsat := hcourse.saturated hs
    rw [Run.Saturated, hcourse.options, hkept.options] at hsat
    exact (Option.any_eq_true _ _).mp hsat
  case iterations_le =>
    change e.solver.stats.iterations ≤ _
    rw [hcount]
    split_ifs at hle ⊢ <;> omega
  case length =>
    change (points.length : ℤ) = if status = .maxRegularization then e.solver.stats.iterations - 1
      else e.solver.stats.iterations
    rw [hcount]
    split_ifs <;> omega

theorem returned_integrator (past : List (Operation ℝ)) {callbacks : List Callback}
    (hcallbacks : .table 0 ∉ callbacks) :
    let s : Solver ℝ := { (create (.integrator [1] 1) .lenient).after past with callbacks }
    (s.solve 1 [.ofVec [1], .ofVec [3]] [.ofVec [2]] 5 false none).2 = .returned true := by
  intro s
  have hshaped : (Problem.integrator [(1 : ℝ)] 1).Shaped [[1], [3]] [[2]] := ⟨rfl, rfl⟩
  have hproblem : s.problem = .integrator [1] 1 := problem_after past
  have hoptions : s.options = .lenient := options_after past
  let c : Trajectory ℝ := { xs := [[1], [3]], us := [[2]] }
  let r : Run ℝ := { solver := s.begun c false none, events := [.started] }
  have hready : r.solver.Ready :=
    ready_begun Options.fault?_lenient rfl past hcallbacks hshaped false
  have hsolved := Run.solved_loop (r := r) Problem.linearQuadratic_integrator
    Problem.wellFormed_integrator Problem.strictlyConvex_integrator hproblem hready rfl rfl nofun 0 3
  have htraj : s.problem.trajectory [.ofVec [1], .ofVec [3]] [.ofVec [2]] = .ok c := by
    rw [hproblem]
    exact Problem.trajectory_ofVec hshaped
  have hsilent : (s.begun c false none).shows .outer = false := by
    unfold shows begun
    dsimp only
    rw [hoptions]
    rfl
  rw [solve_eq htraj, Run.start_eq, hsilent]
  exact hsolved.ending

theorem outcome_of_returned_integrator :
    let s : Solver ℝ := { (create (.integrator [1] 1) .lenient).after [.increase, .tryStep 1] with
      callbacks := [.table 10, .recorder] }
    let xs : List (Tensor ℝ) := [.ofVec [1], .ofVec [3]]
    (s.solve 1 xs [.ofVec [2]] 5 false none).2 = .returned true ∧
      s.Outcome 5 false (s.checkpoints 1 xs [.ofVec [2]] 5 false none)
        (s.solve 1 xs [.ofVec [2]] 5 false none).1 true := by
  intro s xs
  have hreturned : (s.solve 1 xs [.ofVec [2]] 5 false none).2 = .returned true :=
    returned_integrator [.increase, .tryStep 1] (by decide)
  exact ⟨hreturned, outcome_of_returned hreturned⟩

end Solver
end Shooting
