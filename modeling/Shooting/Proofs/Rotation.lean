import Shooting.Proofs.Manifold
import Shooting.Proofs.Shapes

/-! # Rotations along a solve

A solver moves states only along tangent vectors, from where it stands to the trials of a step and
from a trial that it accepts to the next iterate. Where the squares of cosine and sine add up to one
the rotation parts of all iterates and of all trials therefore have the norms that they have in the
trajectory that the solve starts from, on or off the circle.
-/

namespace Shooting

variable {K : Type} [ExactScalar K]

namespace Problem

variable {p : Problem K} {xs ys zs us dxs : List (Vec K)}

/-- At every knot with a rotation the rotation parts of two states have the same norm. -/
def SameRadii (p : Problem K) (xs ys : List (Vec K)) : Prop :=
  ∀ (t : ℕ) (m : Model K) (nv : ℕ), p.models[t]? = some m → m.state = .rotation nv →
    ∃ x ∈ xs[t]?, ∃ y ∈ ys[t]?, Manifold.radiusSq x = Manifold.radiusSq y

theorem SameRadii.trans (h : p.SameRadii xs ys) (h' : p.SameRadii ys zs) : p.SameRadii xs zs := by
  intro t m nv hm hnv
  obtain ⟨x, hx, y, hy, hxy⟩ := h t m nv hm hnv
  obtain ⟨y', hy', z, hz, hyz⟩ := h' t m nv hm hnv
  obtain rfl : y = y' := Option.mem_unique hy hy'
  exact ⟨x, hx, z, hz, hxy.trans hyz⟩

omit [ExactScalar K] in
theorem Shaped.getElem?_states (h : p.Shaped xs us) {t : ℕ} {m : Model K}
    (hm : p.models[t]? = some m) : xs[t]? = some (xs.getD t []) := by
  have ht : t < xs.length := by
    rw [h.length_states, ← length_models]
    exact (List.getElem?_eq_some_iff.mp hm).1
  simp [ht]

theorem Shaped.sameRadii (h : p.Shaped xs us) : p.SameRadii xs xs :=
  fun _ _ _ hm _ => ⟨_, h.getElem?_states hm, _, h.getElem?_states hm, rfl⟩

theorem sameRadii_moveStates
    (hpyth : ∀ a : K, Scalar.cos a * Scalar.cos a + Scalar.sin a * Scalar.sin a = 1) (a : K)
    (hs : p.Shaped xs us) (hdx : dxs.map List.length = p.layout.ndxs) :
    p.SameRadii xs (p.moveStates a xs dxs) := by
  have hlen : dxs.length = p.horizon + 1 := by
    simpa [Layout.length_ndxs] using congrArg List.length hdx
  intro t m nv hm hnv
  have ht : t < (p.moveStates a xs dxs).length := by
    simpa [moveStates, hs.length_states, hlen] using (List.getElem?_eq_some_iff.mp hm).1
  refine ⟨_, hs.getElem?_states hm, (p.moveStates a xs dxs).getD t [], by simp [ht], ?_⟩
  rw [getD_moveStates a hs.length_states hlen hm, hnv, Manifold.radiusSq_integrate hpyth]

end Problem

namespace Solver

variable {p : Problem K} {c : Trajectory K} {s t t' : Solver K}

/-- Since a solve has begun with a trajectory, the states of a solver have only been turned, and so
have the states of its attempt, if there has been one. -/
structure Turned (p : Problem K) (c : Trajectory K) (s t : Solver K) : Prop where
  sized : t.Sized p
  candidate : p.SameRadii c.xs t.candidate.xs
  attempt : t.attempt = s.attempt ∨ p.SameRadii c.xs t.attempt.xs

section

variable (hpyth : ∀ a : K, Scalar.cos a * Scalar.cos a + Scalar.sin a * Scalar.sin a = 1)
include hpyth

theorem Turned.trial (h : Turned p c s t) (a : K) : p.SameRadii c.xs (t.trialAt a).xs := by
  rw [trialAt, h.sized.problem]
  exact h.candidate.trans
    (Problem.sameRadii_moveStates hpyth a h.sized.candidate h.sized.direction.dxs)

theorem Turned.tryStep (h : Turned p c s t) (a : K) : Turned p c s (t.tryStep a).1 := by
  have hsized := h.sized.tryStep a
  obtain ⟨knots, cost, heq⟩ := t.tryStep_fst a
  rw [heq] at hsized ⊢
  exact ⟨hsized, h.candidate, .inr (h.trial hpyth a)⟩

theorem Turned.moves (h : Turned p c s t) (ht : t.Moves t') : Turned p c s t' := by
  have hsized := h.sized.moves ht
  cases ht with
  | directs relinearize =>
    obtain ⟨knots, cost, system, direction, heq⟩ := t.computeDirection_fst relinearize
    rw [heq] at hsized ⊢
    exact ⟨hsized, h.candidate, h.attempt⟩
  | tries a => exact h.tryStep hpyth a
  | promotes htried =>
    obtain ⟨a, ha⟩ := htried
    have htrial : p.SameRadii c.xs t.attempt.xs := by
      rw [ha]
      exact h.trial hpyth a
    rw [promote_shaped (h.sized.problem.symm ▸ h.sized.attempt)] at hsized ⊢
    exact ⟨hsized, htrial, h.attempt⟩
  | _ => exact ⟨hsized, h.candidate, h.attempt⟩

end

theorem Turned.begun (h : s.Sized p) (hc : p.Shaped c.xs c.us) (feasible : Bool)
    (reginit : Weight K) : Turned p c s (s.begun c feasible reginit) where
  sized := h.begun hc
  candidate := hc.sameRadii
  attempt := .inl rfl

/-- All along a solve, whatever the solver has been through before, the norms are those of the
trajectory that the solve starts from: at every call of the observers and at the end, in every trial
that is made, and in every trial that could be made instead. -/
theorem sameRadii_solve
    (hpyth : ∀ a : K, Scalar.cos a * Scalar.cos a + Scalar.sin a * Scalar.sin a = 1)
    {x0 : Tensor K} (hx0 : x0.Valid) {running : List (Model K)} {terminal : Model K}
    (hbuild : Problem.build x0 running terminal = .ok p) (o : Options K)
    (past : List (Operation K)) (hpast : ∀ op ∈ past, op.Valid) {xs us : List (Tensor K)}
    (hx : ∀ a ∈ xs, a.Valid) (hu : ∀ a ∈ us, a.Valid) (hc : p.trajectory xs us = .ok c)
    (fuel : ℕ) (maxiter : ℤ) (feasible : Bool) (reginit : Weight K) :
    let s := (create p o).after past
    p.SameRadii c.xs (s.solve fuel xs us maxiter feasible reginit).1.solver.candidate.xs ∧
      (∀ t ∈ s.checkpoints fuel xs us maxiter feasible reginit,
        p.SameRadii c.xs t.candidate.xs) ∧
      ∀ t ∈ s.solveStates fuel xs us maxiter feasible reginit,
        p.SameRadii c.xs t.candidate.xs ∧
        (t.attempt = s.attempt ∨ p.SameRadii c.xs t.attempt.xs) ∧
        ∀ a, p.SameRadii c.xs (t.tryStep a).1.attempt.xs := by
  intro s
  have hproblem : s.problem = p := problem_after past
  have hsized : s.Sized p :=
    (sized_create (Problem.wellFormed_of_build hx0 hbuild) o).after hpast
  have hall : ∀ t ∈ s.solveStates fuel xs us maxiter feasible reginit, Turned p c s t := by
    refine forall_solveStates (fun _ _ hab ha => ha.moves hpyth hab) fun c' hc' => ?_
    obtain rfl : c = c' := Except.ok.inj (hc.symm.trans (hproblem ▸ hc'))
    exact .begun hsized (Problem.shaped_trajectory hc hx hu) feasible reginit
  refine ⟨?_, fun t ht => ?_, fun t ht => ?_⟩
  · exact (hall _ (solver_mem_solveStates (hproblem ▸ hc))).candidate
  · exact (hall t (mem_solveStates_of_mem_checkpoints ht)).candidate
  · have h := hall t ht
    refine ⟨h.candidate, h.attempt, fun a => ?_⟩
    obtain ⟨knots, cost, heq⟩ := t.tryStep_fst a
    rw [heq]
    exact h.trial hpyth a

theorem sameRadii_solve_turn :
    let c : Trajectory ℝ := { xs := [[3 / 5, 4 / 5], [0, 2]], us := [[1]] }
    let xs := c.xs.map Tensor.ofVec
    let us := c.us.map Tensor.ofVec
    let s := (create (.turn : Problem ℝ) .lenient).after [.increase, .tryStep 1]
    (∃ y ∈ (s.solve 2 xs us 3 false none).1.solver.candidate.xs[1]?, Manifold.radiusSq y = 4) ∧
      ∃ t ∈ s.solveStates 2 xs us 3 false none,
        Problem.turn.SameRadii c.xs (t.tryStep Scalar.half).1.attempt.xs := by
  intro c xs us s
  have hbuild : Problem.build (.ofVec [(1 : ℝ), 0]) [.turn] .height = .ok .turn := rfl
  have hc : (Problem.turn : Problem ℝ).trajectory xs us = .ok c :=
    Problem.trajectory_ofVec ⟨rfl, rfl⟩
  have hproblem : s.problem = .turn := problem_after _
  have hs : (create (.turn : Problem ℝ) .lenient).after [.increase, .tryStep 1] = s := rfl
  obtain ⟨hend, -, hstates⟩ := sameRadii_solve Manifold.cos_mul_cos_add_sin_mul_sin
    (Tensor.valid_ofVec _) hbuild .lenient [.increase, .tryStep 1] (by simp [Operation.Valid])
    (Tensor.valid_of_mem_map _) (Tensor.valid_of_mem_map _) hc 2 3 false none
  rw [hs] at hend hstates
  -- the solver is held fixed from here on, or its past would be run through again
  clear_value s
  constructor
  · obtain ⟨x, hx, y, hy, hxy⟩ := hend 1 .height 0 rfl rfl
    refine ⟨y, hy, hxy.symm.trans ?_⟩
    obtain rfl := Option.mem_some_iff.mp hx
    change (0 : ℝ) * 0 + 2 * 2 = 4
    norm_num
  · have hlast : (s.solve 2 xs us 3 false none).1.solver ∈ s.solveStates 2 xs us 3 false none :=
      solver_mem_solveStates (hproblem ▸ hc)
    exact ⟨_, hlast, (hstates _ hlast).2.2 _⟩

end Solver
end Shooting
