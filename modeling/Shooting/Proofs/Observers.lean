import Shooting.Proofs.Presentation

/-! # Observers

Observers look at a solve and take no part in it. A solve without them is a presentation of the
solve with them, in which what they have reported is left out, so that unless one of them raises a
fault it goes the same way.
-/

namespace Shooting

variable {α : Type}

def Presentation.unobserved : Presentation α where
  verbosity := id
  verbose := id
  hidden := Event.fromObserver
  hidden_observer _ h := h
  shown_iteration e h := by
    cases e <;> first | rfl | cases h

variable [Scalar α]

theorem Run.start_unobserved (r : Run α) :
    (r.presented .unobserved).start = (r.start.1.presented .unobserved, r.start.2) := by
  have hshows : (r.presented .unobserved).solver.shows .outer = r.solver.shows .outer := rfl
  have heval : (r.presented .unobserved).solver.problem.evaluate
      (r.presented .unobserved).solver.knots (r.presented .unobserved).solver.candidate.xs
      (r.presented .unobserved).solver.candidate.us =
        r.solver.problem.evaluate r.solver.knots r.solver.candidate.xs r.solver.candidate.us := rfl
  have hstarted (s : Solver α) : ({ r with solver := s }.report [.started]).presented .unobserved =
      ({ r with solver := s }.presented .unobserved).report [.started] :=
    presented_report _ _
  rw [start_eq, start_eq, hshows, heval]
  split_ifs
  · rcases (r.solver.problem.evaluate r.solver.knots r.solver.candidate.xs
      r.solver.candidate.us).2 with f | cost
    · dsimp only
      rw [hstarted]
      rfl
    · dsimp only
      rw [presented_report, hstarted]
      rfl
  · dsimp only
    rw [hstarted]

/-- Unless a fault is raised, a solve goes the same way without its observers. -/
theorem Solver.solve_unobserved {s : Solver α} {fuel : ℕ} {xs us : List (Tensor α)} {maxiter : ℤ}
    {feasible : Bool} {reginit : Weight α}
    (h : ∀ f, (s.solve fuel xs us maxiter feasible reginit).2 ≠ .raised f) :
    (s.presented .unobserved).solve fuel xs us maxiter feasible reginit =
      ((s.solve fuel xs us maxiter feasible reginit).1.presented .unobserved,
        (s.solve fuel xs us maxiter feasible reginit).2) := by
  cases hc : s.problem.trajectory xs us with
  | error f =>
    have hsolve : (s.solve fuel xs us maxiter feasible reginit).2 = .raised f := by
      rw [solve_refused hc]
    exact absurd hsolve (h f)
  | ok c =>
    have hstart : Run.start
        { solver := (s.presented .unobserved).begun c feasible reginit, events := [] } = _ :=
      Run.start_unobserved { solver := s.begun c feasible reginit, events := [] }
    rw [solve_eq hc] at h
    rw [solve_eq hc, solve_eq (s := s.presented .unobserved) hc, hstart]
    rcases hs : Run.start { solver := s.begun c feasible reginit, events := [] } with ⟨r, _ | f⟩
    · rw [hs] at h
      exact Run.loop_presented_of_ne_raised h
    · rfl

end Shooting
