import Shooting.Proofs.Confinement
import Shooting.Proofs.Observers

/-! # What is shown of a solve

Two solvers that differ in what they show at most go the same way. A higher level of reports makes a
solve evaluate its trajectory once more at the start; this changes the records of the knots, which
the first linearization writes anew before anything is read from them.
-/

namespace Shooting

variable {α : Type}

/-- Solvers that are the same but for what they show and who observes them, and for what their
records hold. -/
def Solver.SameView (s t : Solver α) : Prop :=
  ∃ knots verbosity verbose callbacks, knots.running.length = s.knots.running.length ∧
    t = { s with
      knots
      options := { s.options with verbosity }
      search := { s.search with verbose }
      callbacks }

def Presentation.blank : Presentation α where
  verbosity _ := .silent
  verbose _ := false
  hidden
    | .initialCost _ => true
    | e => e.fromObserver
  hidden_observer e h := by
    cases e <;> first | rfl | cases h
  shown_iteration e h := by
    cases e <;> first | rfl | cases h

namespace Solver

variable {s t : Solver α}

theorem sameView_of_presented {knots : Knots α}
    (hlen : t.knots.running.length = s.knots.running.length)
    (h : t.presented .blank = { s.presented .blank with knots }) : s.SameView t := by
  refine ⟨knots, t.options.verbosity, t.search.verbose, t.callbacks, ?_, ?_⟩
  · have hknots : t.knots = knots := congrArg Solver.knots h
    exact hknots ▸ hlen
  · have ht : t = { t.presented .blank with
        options := { (t.presented .blank).options with verbosity := t.options.verbosity }
        search := { (t.presented .blank).search with verbose := t.search.verbose }
        callbacks := t.callbacks } := rfl
    rw [h] at ht
    exact ht

end Solver

variable [Scalar α]

namespace Solver

variable {s : Solver α} {knots : Knots α}

theorem Fits.linearize_knots (hf : s.Fits)
    (hlen : knots.running.length = s.knots.running.length) :
    linearize { s with knots } = s.linearize ∨
      ∃ f ks ks', s.linearize = ({ s with knots := ks }, .error f) ∧
        linearize { s with knots } = ({ s with knots := ks' }, .error f) := by
  have hf' : s.problem.Fits knots s.candidate.xs s.candidate.us :=
    ⟨hlen.trans hf.knots, hf.states, hf.controls⟩
  have hres := hf.linearize_congr hf'
  unfold linearize
  rcases he : s.problem.linearize s.knots s.candidate.xs s.candidate.us with ⟨ks, f | c⟩ <;>
    rcases he' : s.problem.linearize knots s.candidate.xs s.candidate.us with ⟨ks', f' | c'⟩ <;>
    rw [he, he'] at hres <;> cases hres
  · exact .inr ⟨f, ks, ks', rfl, rfl⟩
  · obtain rfl : ks = ks' := (hf.linearize_ok he).1.unique (hf'.linearize_ok he').1
    exact .inl rfl

theorem Fits.computeDirection_knots (hf : s.Fits)
    (hlen : knots.running.length = s.knots.running.length) :
    computeDirection { s with knots } true = s.computeDirection true ∨
      ∃ f ks ks', s.computeDirection true = ({ s with knots := ks }, .error f) ∧
        computeDirection { s with knots } true = ({ s with knots := ks' }, .error f) := by
  unfold computeDirection
  rw [if_pos rfl, if_pos rfl]
  rcases hf.linearize_knots hlen with h | ⟨f, ks, ks', h, h'⟩
  · left
    rw [h]
  · right
    rw [h, h']
    exact ⟨f, ks, ks', rfl, rfl⟩

end Solver

namespace Run

variable {r : Run α} {knots : Knots α}

/-- Attempts to factor go the same way, or end where they begin. -/
theorem factorize_knots (hf : r.solver.Fits)
    (hlen : knots.running.length = r.solver.knots.running.length) (fuel : ℕ) :
    factorize fuel true { r with solver := { r.solver with knots } } = factorize fuel true r ∨
      ∃ e ending ks, factorize fuel true r = .done e ending ∧
        factorize fuel true { r with solver := { r.solver with knots } } =
          .done { e with solver := { e.solver with knots := ks } } ending := by
  cases fuel with
  | zero => exact .inr ⟨_, _, _, rfl, rfl⟩
  | succ fuel =>
    rw [factorize_succ, factorize_succ]
    dsimp only
    rcases hf.computeDirection_knots hlen with h | ⟨f, ks, ks', h, h'⟩
    · rw [h]
      exact .inl rfl
    · rw [h, h']
      exact .inr ⟨_, _, _, rfl, rfl⟩

theorem iterate_knots (hf : r.solver.Fits)
    (hlen : knots.running.length = r.solver.knots.running.length) (fuel iter : ℕ) :
    iterate fuel iter { r with solver := { r.solver with knots } } = r.iterate fuel iter ∨
      ∃ e ending ks, r.iterate fuel iter = .done e ending ∧
        iterate fuel iter { r with solver := { r.solver with knots } } =
          .done { e with solver := { e.solver with knots := ks } } ending := by
  have hfactor := factorize_knots (r := { r with solver := r.solver.numbered iter }) hf hlen fuel
  rw [iterate_eq, iterate_eq, unassessed, unassessed]
  rcases hfactor with h | ⟨e, ending, ks, h, h'⟩
  · left
    rw [← h]
    rfl
  · right
    refine ⟨e, ending, ks, by rw [h]; rfl, ?_⟩
    change (((factorize fuel true { r with
      solver := { r.solver.numbered iter with knots } }).andThen step).andThen adapt).andThen
        assess = _
    rw [h']
    rfl

theorem loop_knots (hf : r.solver.Fits)
    (hlen : knots.running.length = r.solver.knots.running.length) (fuel left iter : ℕ) :
    ∃ ks, loop fuel left iter { r with solver := { r.solver with knots } } =
      ({ (r.loop fuel left iter).1 with
        solver := { (r.loop fuel left iter).1.solver with knots := ks } },
        (r.loop fuel left iter).2) := by
  cases left with
  | zero => exact ⟨knots, rfl⟩
  | succ left =>
    unfold loop
    rcases iterate_knots hf hlen fuel iter with h | ⟨e, ending, ks, h, h'⟩
    · rw [h]
      exact ⟨_, rfl⟩
    · rw [h, h']
      exact ⟨ks, rfl⟩

theorem start_blank {s : Solver α} {cost : α}
    (he : (s.problem.evaluate s.knots s.candidate.xs s.candidate.us).2 = .ok cost) :
    ∃ r knots, start { solver := s, events := [] } = (r, none) ∧ r.solver = { s with knots } ∧
      knots.running.length = s.knots.running.length ∧
      r.presented .blank =
        { solver := { s.presented .blank with knots }, events := [.started] } := by
  have hlen := s.problem.length_evaluate s.knots s.candidate.xs s.candidate.us
  rw [start_eq]
  dsimp only
  rw [he]
  split_ifs
  · exact ⟨_, _, rfl, rfl, hlen, rfl⟩
  · exact ⟨_, s.knots, rfl, rfl, rfl, rfl⟩

theorem loop_sameView {r r' : Run α} {knots : Knots α} (hf : r.solver.Fits) (hf' : r'.solver.Fits)
    (hr : .table 0 ∉ r.solver.callbacks) (hr' : .table 0 ∉ r'.solver.callbacks)
    (hproblem : r'.solver.problem = r.solver.problem)
    (hview : r'.presented .blank = { r.presented .blank with
      solver := { (r.presented .blank).solver with knots } }) (fuel left iter : ℕ) :
    (r'.loop fuel left iter).2 = (r.loop fuel left iter).2 ∧
      (r.loop fuel left iter).1.solver.SameView (r'.loop fuel left iter).1.solver := by
  have hlen : r'.solver.knots.running.length = r.solver.knots.running.length := by
    rw [hf'.knots, hf.knots, hproblem]
  have hknots : r'.solver.knots = knots := congrArg (fun r => r.solver.knots) hview
  obtain ⟨ks, hks⟩ := loop_knots (r := r.presented .blank) hf (hknots ▸ hlen) fuel left iter
  have hloop : (r'.presented .blank).loop fuel left iter =
      ((r'.loop fuel left iter).1.presented .blank, (r'.loop fuel left iter).2) :=
    loop_presented hr'
  rw [hview, hks, loop_presented hr] at hloop
  have hend := r.preserved_loop fuel left iter
  have hend' := r'.preserved_loop fuel left iter
  refine ⟨(congrArg Prod.snd hloop).symm, Solver.sameView_of_presented ?_
    (congrArg (fun result => result.1.solver) hloop).symm⟩
  rw [(hend'.fits hf').knots, (hend.fits hf).knots, hend'.problem, hend.problem, hproblem]

end Run

namespace Solver

theorem SameView.solve {s t : Solver α} (hst : s.SameView t) (hf : s.Fits)
    (hs : .table 0 ∉ s.callbacks) (ht : .table 0 ∉ t.callbacks) {xs us : List (Tensor α)}
    {c : Trajectory α} (hc : s.problem.trajectory xs us = .ok c) {cost : α}
    (he : (s.problem.evaluate s.problem.fresh c.xs c.us).2 = .ok cost) (fuel : ℕ) (maxiter : ℤ)
    (feasible : Bool) (reginit : Weight α) :
    (t.solve fuel xs us maxiter feasible reginit).2 =
        (s.solve fuel xs us maxiter feasible reginit).2 ∧
      (s.solve fuel xs us maxiter feasible reginit).1.solver.SameView
        (t.solve fuel xs us maxiter feasible reginit).1.solver := by
  obtain ⟨knots, verbosity, verbose, callbacks, hlen, rfl⟩ := hst
  let t : Solver α :=
    { s with
      knots
      options := { s.options with verbosity }
      search := { s.search with verbose }
      callbacks }
  obtain ⟨hstates, hcontrols⟩ := Problem.length_trajectory hc
  have hfresh : s.problem.Fits s.problem.fresh c.xs c.us :=
    ⟨by simp [Problem.fresh, Problem.horizon], hstates, hcontrols⟩
  have hfs : (s.begun c feasible reginit).Fits := ⟨hf.knots, hstates, hcontrols⟩
  have hft : (t.begun c feasible reginit).Fits := ⟨hlen.trans hf.knots, hstates, hcontrols⟩
  -- Whether an initial cost is shown or not, either loop starts: the evaluation cannot fail.
  obtain ⟨r, k, hr, hrs, hk, hrp⟩ := Run.start_blank (s := s.begun c feasible reginit)
    ((hfs.evaluate_congr hfresh).trans he)
  obtain ⟨r', k', hr', hrs', hk', hrp'⟩ := Run.start_blank (s := t.begun c feasible reginit)
    ((hft.evaluate_congr hfresh).trans he)
  rw [solve_eq hc, solve_eq (s := t) hc, hr, hr']
  apply Run.loop_sameView
  case hf =>
    rw [hrs]
    exact ⟨hk.trans hfs.knots, hfs.states, hfs.controls⟩
  case hf' =>
    rw [hrs']
    exact ⟨hk'.trans hft.knots, hft.states, hft.controls⟩
  case hr =>
    rw [hrs]
    exact hs
  case hr' =>
    rw [hrs']
    exact ht
  case hproblem =>
    rw [hrs, hrs']
    rfl
  case hview =>
    rw [hrp, hrp']
    rfl

/-- Two solvers that differ in what they show and in their observers at most, and in the records of
their knots, come to the same end in a solve, with solvers that differ in nothing else. -/
theorem solve_unaffected (p : Problem α) (o : Options α) (past : List (Operation α))
    {t : Solver α} (hst : ((create p o).after past).SameView t)
    (hs : .table 0 ∉ ((create p o).after past).callbacks) (ht : .table 0 ∉ t.callbacks)
    {xs us : List (Tensor α)} {c : Trajectory α} (hc : p.trajectory xs us = .ok c) {cost : α}
    (he : (p.evaluate p.fresh c.xs c.us).2 = .ok cost) (fuel : ℕ) (maxiter : ℤ) (feasible : Bool)
    (reginit : Weight α) :
    let s := (create p o).after past
    (t.solve fuel xs us maxiter feasible reginit).2 =
        (s.solve fuel xs us maxiter feasible reginit).2 ∧
      (s.solve fuel xs us maxiter feasible reginit).1.solver.SameView
        (t.solve fuel xs us maxiter feasible reginit).1.solver := by
  intro s
  have hproblem : s.problem = p := problem_after past
  have hfits : s.Fits := fits_after past
  rw [← hproblem] at hc he
  exact hst.solve hfits hs ht hc he fuel maxiter feasible reginit

theorem solve_unaffected_integrator :
    let p : Problem ℝ := .integrator [2] 1
    let s : Solver ℝ := create p .lenient
    let t : Solver ℝ :=
      { create p { Options.lenient with verbosity := .lineSearch } with
        callbacks := [.table 10, .recorder] }
    let xs : List (Tensor ℝ) := [[2], [1]].map .ofVec
    let us : List (Tensor ℝ) := [[0]].map .ofVec
    (t.solve 1 xs us 5 true none).2 = (s.solve 1 xs us 5 true none).2 ∧
      (s.solve 1 xs us 5 true none).1.solver.SameView (t.solve 1 xs us 5 true none).1.solver := by
  intro p s t xs us
  have hst : s.SameView t := ⟨_, .lineSearch, _, [.table 10, .recorder], rfl, rfl⟩
  have hc : p.trajectory xs us = .ok { xs := [[2], [1]], us := [[0]] } :=
    Problem.trajectory_ofVec ⟨rfl, rfl⟩
  simpa only [after, List.foldl_nil] using
    solve_unaffected p .lenient [] hst List.not_mem_nil (by decide) hc rfl 1 5 true none

end Solver
end Shooting
