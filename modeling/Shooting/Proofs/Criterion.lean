import Shooting.Proofs.Descent

/-! # What success speaks of

A solve succeeds when the measure of convergence is small. By then its last step has been taken, but
the measure is put together from the linearization before it. So the residual that is small is that
of the trajectory which the last iteration has started from. The solve may have left that trajectory
for one with a larger residual.
-/

namespace Shooting

open Matrix

section Success

variable {α : Type} [Scalar α]

namespace Solver

variable {s t : Solver α}

/-- The squared residual of the optimality conditions along a trajectory, under the multipliers that
the solver holds: the problem is linearized there and measured. -/
def residualAlong (s : Solver α) (c : Trajectory α) : Except Fault α :=
  let t := { s with candidate := { c with feasible := s.candidate.feasible } }.linearize
  t.2.map fun _ => t.1.measureStop.stop

theorem stop_measureStop_congr (hp : t.problem = s.problem) (hk : s.knots.SameSlopes t.knots)
    (hl : t.direction.lambdas = s.direction.lambdas)
    (hr : t.system.residual = s.system.residual) : t.measureStop.stop = s.measureStop.stop := by
  unfold measureStop layout
  rw [hp, hk.running, hl, hr]

theorem LinearizedAlong.residualAlong_eq {c : Trajectory α} (h : s.LinearizedAlong c.xs c.us)
    (hf : s.problem.Fits s.knots c.xs c.us) : s.residualAlong c = .ok s.measureStop.stop := by
  obtain ⟨ks, hl, hslopes, xr, ur, hs⟩ := h
  obtain ⟨cost, hlin⟩ := hf.linearize_of_linearizedAt hl
  unfold residualAlong linearize
  dsimp only
  rw [hlin]
  refine congrArg Except.ok (stop_measureStop_congr rfl ?_ rfl ?_)
  · exact ⟨hslopes.running.symm, hslopes.terminal.symm⟩
  · rw [hs]
    rfl

end Solver

namespace Run

variable {r₀ r r' e : Run α} {fuel iter left : ℕ}

theorem Visits.last_of_success (hv : r₀.Visits fuel iter r)
    (h : r.loop fuel left iter = (e, .returned true)) :
    ∃ k r₁ r₂ r₃, k < iter + left ∧ r₀.Visits fuel k r₁ ∧ r₁.unassessed fuel k = .next r₂ ∧
      r₁.Observes k r₂.solver.measureStop r₃ ∧ r₂.solver.measureStop.Converged ∧
      (e, Ending.returned true) = r₃.finish .success := by
  induction left generalizing iter r with
  | zero => cases h
  | succ left ih =>
    unfold loop at h
    cases hi : r.iterate fuel iter with
    | next r' =>
      rw [hi] at h
      obtain ⟨k, r₁, r₂, r₃, hk, hrest⟩ := ih (hv.next hi) h
      exact ⟨k, r₁, r₂, r₃, by omega, hrest⟩
    | done e' ending =>
      rw [hi] at h
      cases h
      rcases overdamped_or_observes hi with ⟨-, r', -, hend⟩ | ⟨r₂, r₃, hr₂, -, hobs, hc, hend⟩
      · cases hend
      · exact ⟨iter, r, r₂, r₃, by omega, hv, hr₂, hobs, hc, hend⟩

end Run

namespace Solver

variable {s : Solver α} {fuel : ℕ} {xs us : List (Tensor α)} {maxiter : ℤ} {feasible : Bool}
  {reginit : Weight α} {iter : ℕ} {r : Run α}

/-- How a solve has succeeded, with a result, if its last iteration starts from a run. -/
structure Succeeds (s : Solver α) (fuel : ℕ) (xs us : List (Tensor α)) (maxiter : ℤ)
    (feasible : Bool) (reginit : Weight α) (iter : ℕ) (r : Run α) (result : Run α × Ending) :
    Prop where
  iterates : s.Iterates fuel xs us maxiter feasible reginit iter r
  iterations : result.1.solver.stats.iterations = iter + 1
  residual : result.1.solver.residualAlong r.solver.candidate.toTrajectory =
    .ok result.1.solver.stats.stop
  small : Scalar.lt result.1.solver.stats.stop s.options.stopThreshold = true
  steps : ∃ (t : Solver α) (a : α), t.problem = s.problem ∧ t.candidate = r.solver.candidate ∧
    t.direction = result.1.solver.direction ∧ t.Steps a result.1.solver
  /-- It is the one that is returned if the search has accepted no step. -/
  rejected : result.1.solver.search.accepted = false →
    result.1.solver.residualAlong result.1.solver.candidate.toTrajectory =
      .ok result.1.solver.stats.stop

/-- Success speaks of the trajectory before the last step, whatever the solver has done before. -/
theorem succeeds_after (p : Problem α) (o : Options α) (past : List (Operation α))
    {xs us : List (Tensor α)} (hx : ∀ a ∈ xs, a.Valid) (hu : ∀ a ∈ us, a.Valid) {fuel : ℕ}
    {maxiter : ℤ} {feasible : Bool} {reginit : Weight α}
    (h : (((create p o).after past).solve fuel xs us maxiter feasible reginit).2 =
      .returned true) :
    ∃ iter r, ((create p o).after past).Succeeds fuel xs us maxiter feasible reginit iter r
      (((create p o).after past).solve fuel xs us maxiter feasible reginit) := by
  have hf := fits_after (p := p) (o := o) past
  generalize (create p o).after past = s at h hf ⊢
  obtain ⟨c, r₀, hc, hstart, hloop⟩ := loop_of_returned h
  rw [hloop] at h ⊢
  obtain ⟨iter, r, r₁, r₂, hlt, hvisits, hr₁, hobs, ⟨-, hsmall⟩, hend⟩ :=
    Run.Visits.last_of_success .first (Prod.ext rfl h)
  have hiterates : s.Iterates fuel xs us maxiter feasible reginit iter r :=
    ⟨⟨c, r₀, hc, hstart, hvisits⟩, by omega⟩
  obtain ⟨c', hkept⟩ := hiterates.preserved
  have hholds := hiterates.holds hf hx hu
  have halong := Run.linearizedAlong_of_unassessed hholds.solver.fits hr₁
  obtain ⟨t, a, t', xreg, ureg, hsearched, hsolver⟩ := Run.searched_of_unassessed hholds hr₁
  have hfits := Run.fits_of_unassessed hholds.solver.fits hr₁
  -- What is returned differs from what the observers have seen in nothing but the statistics.
  have hreturned : r₀.loop fuel maxiter.toNat 0 = r₂.finish .success := by
    rw [← hend]
    exact Prod.ext rfl h
  have hfinal : (r₂.finish .success).1.solver =
      { r₁.solver.measureStop with stats := (r₂.finish .success).1.solver.stats } := by
    rw [← hobs.solver]
    rfl
  have hstop : (r₂.finish .success).1.solver.stats.stop = r₁.solver.measureStop.stop := by
    rw [← hobs.solver]
    rfl
  have hresidual : (r₂.finish .success).1.solver.residualAlong r.solver.candidate.toTrajectory =
      .ok (r₂.finish .success).1.solver.stats.stop := by
    rw [hstop, hfinal]
    exact LinearizedAlong.residualAlong_eq (halong.of_eq rfl rfl (.refl _)) hfits
  have hstep : t.Steps a (r₂.finish .success).1.solver := by
    apply hsearched.steps.of_weights
    rw [hfinal, hsolver]
    rfl
  rw [hreturned]
  refine ⟨iter, r, hiterates, ?_, hresidual, ?_, ?_, ?_⟩
  · rw [← hobs.iterations, ← hobs.solver]
    rfl
  · have hoptions : s.options = r.solver.options := hkept.options.symm
    rw [hstop, hoptions, ← hobs.options]
    exact hsmall
  · refine ⟨t, a, hsearched.problem.trans hkept.problem, hsearched.candidate, ?_, hstep⟩
    rw [hfinal, hsolver]
    exact hsearched.keeps.direction.symm
  · intro hrej
    rw [(hstep.rejected hrej).1, hsearched.candidate]
    exact hresidual

end Solver
end Success

variable {K : Type} [ExactScalar K]

theorem Solver.residualAlong_of_linearizedAt {s : Solver K} {c : Trajectory K} {ks : Knots K}
    (hf : s.problem.Fits s.knots c.xs c.us) (hl : s.problem.LinearizedAt c.xs c.us ks)
    (hrows : ks.Rows s.problem.layout)
    (hlen : s.direction.lambdas.map List.length = s.problem.layout.ndxs) :
    s.residualAlong c =
      .ok (s.problem.residual ks c.xs (Vec.toFun _ s.direction.lambdas.flatten)) := by
  let s' : Solver K := { s with candidate := { c with feasible := s.candidate.feasible } }
  have hlin : s'.linearize = (s'.relinearized ks, .ok ks.total) := linearize_of_linearizedAt hf hl
  have hstop : (s'.relinearized ks).measureStop.stop = _ :=
    stop_damped (s := s') hl hrows hlen rfl rfl (.refl ks)
  unfold residualAlong
  dsimp only
  rw [hlin]
  exact congrArg Except.ok hstop

/-- The state stays, at a cost that grows with the fourth power of the control. -/
def Model.steep : Model K where
  state := .euclidean 1
  next := .euclidean 1
  nu := 1
  hasDynamics := true
  eval x u := .ok
    ((3 : ℕ) / (8 : ℕ) * u.coord 0 ^ 4 + Scalar.half * (Vec.normSq x + Vec.normSq u) - u.coord 0, x)
  deriv x u := .ok
    { lx := x
      lu := [(3 : ℕ) / (2 : ℕ) * u.coord 0 ^ 3 + u.coord 0 - 1]
      lxx := Mat.identity 1
      lxu := Mat.zeros 1 1
      luu := [[(9 : ℕ) / (2 : ℕ) * u.coord 0 ^ 2 + 1]]
      fx := Mat.identity 1
      fu := Mat.zeros 1 1 }

def Problem.steep : Problem K where
  x0 := [0]
  running := [.steep]
  terminal := .resting 1

namespace Problem

variable {u : K}

def steepKnots (u : K) : Knots K :=
  ((steep : Problem K).linearize steep.fresh [[0], [0]] [[u]]).1

theorem linearizedAt_steep : (steep : Problem K).LinearizedAt [[0], [0]] [[u]] (steepKnots u) :=
  ⟨.cons ⟨rfl, rfl⟩ .nil, rfl, rfl⟩

theorem rows_steep : (steepKnots u).Rows (steep : Problem K).layout := by
  constructor
  case count => rfl
  all_goals
    rintro (_ | t) k hk row hrow <;> cases hk
    obtain rfl := List.mem_singleton.mp hrow
    rfl

theorem symmetricHessians_steep : (steep : Problem K).SymmetricHessians := by
  have hsingle {M : Mat K} : ∀ i < 1, ∀ j < 1, M.entry i j = M.entry j i := by
    intro i hi j hj
    rw [Nat.lt_one_iff.mp hi, Nat.lt_one_iff.mp hj]
  intro m hm x u s hs
  rcases List.mem_pair.mp hm with rfl | rfl <;> cases hs
  · exact ⟨hsingle, hsingle⟩
  · exact ⟨hsingle, fun i hi => absurd hi (Nat.not_lt_zero i)⟩

theorem constraint_steep : ((steep : Problem K).program (steepKnots u) [[0], [0]]).constraint
    (steep : Problem K).layout = !![1, 0, 0; -1, 1, -0] := by
  ext i j
  fin_cases i <;> fin_cases j <;> rfl

theorem gradient_steep : ((steep : Problem K).program (steepKnots u) [[0], [0]]).gradient
    (steep : Problem K).layout = ![0, 0, 3 / 2 * u ^ 3 + u - 1] := by
  ext i
  fin_cases i <;> rfl

theorem violation_steep : ((steep : Problem K).program (steepKnots u) [[0], [0]]).violation
    (steep : Problem K).layout = ![0 - 0, 0 - 0] := by
  ext i
  fin_cases i <;> rfl

theorem hessian_steep : ((steep : Problem K).program (steepKnots u) [[0], [0]]).hessian
    (steep : Problem K).layout = !![1, 0, 0; 0, 1, 0; 0, 0, 9 / 2 * u ^ 2 + 1] := by
  ext i j
  fin_cases i <;> fin_cases j <;> rfl

theorem total_steep : (steepKnots u).total = 3 / 8 * u ^ 4 + 1 / 2 * u ^ 2 - u := by
  have hcosts : (steepKnots u).total =
      (3 / 8 * u ^ 4 + Scalar.half * ((0 * 0 + 0) + (u * u + 0)) - u + 0) +
        Scalar.half * (0 * 0 + 0) := Knots.total_eq _
  rw [hcosts, ExactScalar.half_eq]
  ring

theorem residual_steep : (steep : Problem K).residual (steepKnots u) [[0], [0]]
    (Vec.toFun _ [0, 0]) = (3 / 2 * u ^ 3 + u - 1) ^ 2 := by
  have hzero : Vec.toFun (steep : Problem K).layout.ndx [(0 : K), 0] = 0 := Vec.toFun_zeros _ 2
  unfold residual
  dsimp only
  rw [hzero, mulVec_zero, add_zero, gradient_steep, violation_steep]
  change (![0, 0, 3 / 2 * u ^ 3 + u - 1] : Fin 3 → K) ⬝ᵥ ![0, 0, 3 / 2 * u ^ 3 + u - 1] +
    (![0 - 0, 0 - 0] : Fin 2 → K) ⬝ᵥ ![0 - 0, 0 - 0] = _
  simp [dotProduct, Fin.sum_univ_three]
  ring

theorem eq_of_stationary_steep {c : K} (hc : 0 < c) {q : Fin 3 → K} {l : Fin 2 → K}
    (h : Shooting.Stationary (c • 1) !![1, 0, 0; -1, 1, -0] ![0, 0, 3 / 2 * 0 ^ 3 + 0 - 1]
      ![0 - 0, 0 - 0] q l) :
    q = ![0, 0, 1 / c] ∧ l = 0 := by
  have hfirst : q 0 = 0 := by
    simpa [mulVec, dotProduct, Fin.sum_univ_three] using congrFun h.constraint 0
  have hsecond : -q 0 + q 1 = 0 := by
    simpa [mulVec, dotProduct, Fin.sum_univ_three] using congrFun h.constraint 1
  have hstart : c * q 0 + (l 0 - l 1) = 0 := by
    simpa [smul_mulVec, mulVec, dotProduct, Fin.sum_univ_three, sub_eq_add_neg] using
      congrFun h.gradient 0
  have hend : c * q 1 + l 1 = 0 := by
    simpa [smul_mulVec, mulVec, dotProduct, Fin.sum_univ_three] using congrFun h.gradient 1
  have hcontrol : c * q 2 = 1 := by
    simpa [smul_mulVec, mulVec, dotProduct, Fin.sum_univ_three] using congrFun h.gradient 2
  have hstay : q 1 = 0 := by
    linarith
  rw [hfirst, mul_zero, zero_add] at hstart
  rw [hstay, mul_zero, zero_add] at hend
  constructor
  · ext i
    fin_cases i
    · exact hfirst
    · exact hstay
    · exact (eq_div_iff hc.ne').mpr ((mul_comm _ _).trans hcontrol)
  · ext i
    fin_cases i
    · change l 0 = 0
      linarith
    · exact hend

theorem solution_of_stationary_steep {c : K} (hc : 0 < c) {primal dual : Vec K}
    (hprimal : primal.length = 3) (hdual : dual.length = 2)
    (h : Shooting.Stationary (c • 1) !![1, 0, 0; -1, 1, -0] ![0, 0, 3 / 2 * 0 ^ 3 + 0 - 1]
      ![0 - 0, 0 - 0] (Vec.toFun 3 primal) (Vec.toFun 2 dual)) :
    primal = [0, 0, 1 / c] ∧ dual = [0, 0] := by
  obtain ⟨hq, hl⟩ := eq_of_stationary_steep hc h
  constructor
  · refine (Vec.toFun_eq_iff hprimal rfl).mp (hq.trans ?_)
    ext i
    fin_cases i <;> rfl
  · refine (Vec.toFun_eq_iff hdual rfl).mp (hl.trans ?_)
    ext i
    fin_cases i <;> rfl

end Problem

/-- The test is passed from rest, but not at the control one. -/
def Options.steep : Options K :=
  { lenient with acceptRatio := 1 / (10 : ℕ), stopThreshold := (2 : ℕ) }

theorem Options.fault?_steep : (steep : Options K).fault? = none := by
  simp [fault?, steep, lenient, strictlyDecreasing, Bool.eq_false_iff]
  norm_num

theorem Problem.hessian_steep_zero :
    ((steep : Problem K).program (steepKnots 0) [[0], [0]]).hessian (steep : Problem K).layout =
      (1 : Matrix (Fin 3) (Fin 3) K) := by
  rw [hessian_steep]
  ext i j
  fin_cases i <;> fin_cases j <;> simp

namespace Solver

def atRest : Solver K :=
  ((create (.steep : Problem K) .steep).begun
    { xs := [[0], [0]], us := [[0]] } true none).numbered 0

theorem hessian_atRest : ((atRest : Solver K).damped (Problem.steepKnots 0)).hessian
    (Problem.steep : Problem K).layout = (1 : Matrix (Fin 3) (Fin 3) K) :=
  (System.hessian_damp_zero _ _ _ rfl rfl).trans Problem.hessian_steep_zero

theorem Solution.eq_atRest {primal dual : Vec K}
    (h : atRest.Solution (Problem.steepKnots 0) primal dual) :
    primal = [0, 0, 1] ∧ dual = [0, 0] := by
  have hst : Shooting.Stationary (1 : Matrix (Fin 3) (Fin 3) K) !![1, 0, 0; -1, 1, -0]
      ![0, 0, 3 / 2 * 0 ^ 3 + 0 - 1] ![0 - 0, 0 - 0] (Vec.toFun 3 primal) (Vec.toFun 2 dual) := by
    rw [← hessian_atRest, ← Problem.constraint_steep, ← Problem.gradient_steep,
      ← Problem.violation_steep]
    exact h.stationary
  rw [← one_smul K (1 : Matrix (Fin 3) (Fin 3) K)] at hst
  have hsol := Problem.solution_of_stationary_steep one_pos h.length_primal h.length_dual hst
  rwa [div_one] at hsol

def aimed : Solver K := (atRest.directed (Problem.steepKnots 0) [0, 0, 1] [0, 0]).predict

theorem computeDirection_atRest : (atRest : Solver K).computeDirection true =
    (atRest.directed (Problem.steepKnots 0) [0, 0, 1] [0, 0], .ok .noError) := by
  have hsymmetric := System.symmetric_slopesAt Problem.symmetricHessians_steep
    (Problem.linearizedAt_steep (K := K) (u := 0))
  have hpos : PositiveDefinite (((atRest : Solver K).damped (Problem.steepKnots 0)).hessian
      (Problem.steep : Problem K).layout) := by
    rw [hessian_atRest]
    exact Mat.positiveDefinite_one 3
  obtain ⟨primal, dual, hsol, hd⟩ := exists_solution (s := (atRest : Solver K)) ⟨rfl, rfl, rfl⟩
    Problem.linearizedAt_steep (System.saddlePoint_damp_assemble hsymmetric _ _) hpos
  obtain ⟨rfl, rfl⟩ := hsol.eq_atRest
  exact hd

theorem d_aimed : (aimed : Solver K).d = (1, -1) := by
  let q : Fin 3 → K := Vec.toFun 3 [0, 0, 1]
  have hd : (aimed : Solver K).d =
      (-(![0, 0, 3 / 2 * 0 ^ 3 + 0 - 1] ⬝ᵥ q), -(q ⬝ᵥ 1 *ᵥ q)) := by
    rw [← hessian_atRest, ← Problem.gradient_steep]
    exact predict_directed rfl
  have hq : q = ![0, 0, 1] := by
    ext i
    fin_cases i <;> rfl
  rw [hd, hq]
  simp [dotProduct, Fin.sum_univ_three]

theorem trialAt_aimed : (aimed : Solver K).trialAt 1 = { xs := [[0], [0]], us := [[1]] } := by
  change ({ xs := [[0 + 1 * 0], [0 + 1 * 0]], us := [[0 + 1 * 1]] } : Trajectory K) = _
  simp

theorem evaluate_aimed : ((aimed : Solver K).problem.evaluate aimed.knots (aimed.trialAt 1).xs
    (aimed.trialAt 1).us).2 = .ok (Problem.steepKnots 1).total := by
  rw [trialAt_aimed]
  exact Problem.Fits.evaluate_total ⟨rfl, rfl, rfl⟩ Problem.linearizedAt_steep

/-- The cost falls by an eighth, when a half was predicted. -/
theorem verdict_aimed : Search.verdict
    { (aimed : Solver K).search with
      dV := (aimed : Solver K).cost - (Problem.steepKnots 1).total
      dVexp := Search.expectedDecrease (aimed : Solver K).d 1 }
    (aimed : Solver K).d (aimed : Solver K).candidate.feasible = some .sufficientDecrease := by
  have hcost : (aimed : Solver K).cost = (Problem.steepKnots 0).total := rfl
  have hratio : (aimed : Solver K).search.acceptRatio = 1 / 10 := rfl
  have hthreshold : (aimed : Solver K).search.gradThreshold = 1 := rfl
  have hfeasible : (aimed : Solver K).candidate.feasible = true := rfl
  have hgrad : Scalar.lt (1 : K) 1 = false := ExactScalar.lt_eq_false_iff.mpr le_rfl
  unfold Search.verdict Search.expectedDecrease
  rw [hcost, d_aimed, hfeasible, Problem.total_steep, Problem.total_steep]
  dsimp only
  rw [hratio, hthreshold, ExactScalar.half_eq, hgrad, if_neg Bool.false_ne_true, Bool.not_true,
    if_neg Bool.false_ne_true]
  refine if_pos (ExactScalar.lt_iff.mpr ?_)
  norm_num

structure Arrived (t : Solver K) : Prop where
  problem : t.problem = .steep
  knots : t.knots.running.length = 1
  candidate : t.candidate.toTrajectory = { xs := [[0], [0]], us := [[1]] }
  lambdas : t.direction.lambdas = [[0], [0]]
  stop : t.stop = 1

/-- The full step is accepted, and the residual from which it was taken is small. -/
theorem iterate_atRest {r : Run K} (hr : r.solver.numbered 0 = atRest) :
    ∃ t events, Arrived t ∧ r.iterate 1 0 = Run.finished { solver := t, events } .success := by
  have hshaped : (aimed : Solver K).problem.Shaped (aimed.trialAt 1).xs (aimed.trialAt 1).us := by
    rw [trialAt_aimed]
    exact ⟨rfl, rfl⟩
  have hrange := Options.fault?_eq_none_iff.mp (Options.fault?_steep (K := K))
  have hd : (r.solver.numbered 0).computeDirection true =
      (atRest.directed (Problem.steepKnots 0) [0, 0, 1] [0, 0], .ok .noError) := by
    rw [hr]
    exact computeDirection_atRest
  obtain ⟨events, hiter⟩ := Run.iterate_first (s := aimed) hd rfl rfl
    evaluate_aimed rfl verdict_aimed hshaped (hrange.last_ne rfl) List.not_mem_nil
  obtain ⟨xreg, ureg, hadapted⟩ :=
    ((aimed : Solver K).moved 1 (Problem.steepKnots 1).total .sufficientDecrease).adapted_weights
  rw [hadapted] at hiter
  let t : Solver K :=
    { aimed.moved 1 (Problem.steepKnots 1).total .sufficientDecrease with xreg, ureg }
  have hmeasured : t.measureStop.stop = (Problem.steep : Problem K).residual
      (Problem.steepKnots 0) [[0], [0]] (Vec.toFun _ [0, 0]) :=
    stop_directed (s := atRest) Problem.linearizedAt_steep Problem.rows_steep rfl rfl rfl rfl
      ((aimed : Solver K).problem.sameSlopes_evaluate _ _ _)
  have hstop : t.measureStop.stop = 1 := by
    rw [hmeasured, Problem.residual_steep]
    norm_num
  have hlength := (aimed : Solver K).problem.length_evaluate aimed.knots (aimed.trialAt 1).xs
    (aimed.trialAt 1).us
  refine ⟨t.measureStop, events, ⟨rfl, hlength, trialAt_aimed, rfl, hstop⟩, ?_⟩
  refine hiter.trans (if_pos ?_)
  have hthreshold : t.measureStop.options.stopThreshold = 2 := rfl
  change (true && Scalar.lt t.measureStop.stop t.measureStop.options.stopThreshold) = true
  rw [hstop, hthreshold, Bool.true_and]
  exact ExactScalar.lt_iff.mpr one_lt_two

theorem solve_atRest : ∃ t events, Arrived (K := K) t ∧
    (create .steep .steep).solve 1 [.ofVec [0], .ofVec [0]] [.ofVec [0]] 1 true none =
      Run.finish { solver := t, events } .success := by
  let c : Trajectory K := { xs := [[0], [0]], us := [[0]] }
  let s : Solver K := create .steep .steep
  let r : Run K := { solver := s.begun c true none, events := [.started] }
  have htraj : s.problem.trajectory ([[0], [0]].map .ofVec) ([[0]].map .ofVec) = .ok c :=
    Problem.trajectory_ofVec ⟨rfl, rfl⟩
  have hsolve : s.solve 1 [.ofVec [0], .ofVec [0]] [.ofVec [0]] 1 true none = r.loop 1 1 0 :=
    solve_eq htraj 1 1 true none
  obtain ⟨t, events, ht, hiter⟩ := iterate_atRest (r := r) rfl
  exact ⟨t, events, ht, hsolve.trans (Run.loop_finished hiter 0)⟩

theorem Arrived.residualAlong {t : Solver K} (h : t.Arrived) :
    t.residualAlong t.candidate.toTrajectory = .ok (9 / 4) := by
  have hfits : t.problem.Fits t.knots [[0], [0]] [[1]] := by
    rw [h.problem]
    exact ⟨h.knots, rfl, rfl⟩
  have hlinearized : t.problem.LinearizedAt [[0], [0]] [[1]] (Problem.steepKnots 1) := by
    rw [h.problem]
    exact Problem.linearizedAt_steep
  have hrows : (Problem.steepKnots (1 : K)).Rows t.problem.layout := by
    rw [h.problem]
    exact Problem.rows_steep
  have hlengths : t.direction.lambdas.map List.length = t.problem.layout.ndxs := by
    rw [h.problem, h.lambdas]
    rfl
  have hresidual : t.problem.residual (Problem.steepKnots 1) [[0], [0]]
      (Vec.toFun _ t.direction.lambdas.flatten) = 9 / 4 := by
    rw [h.problem, h.lambdas]
    refine Problem.residual_steep.trans ?_
    norm_num
  rw [h.candidate, ← hresidual]
  exact residualAlong_of_linearizedAt hfits hlinearized hrows hlengths

/-- The solve from rest succeeds under the threshold two, with the residual of the trajectory that
it has left; at its end the residual is larger. -/
theorem success_steep :
    let s : Solver ℝ := create .steep .steep
    let result := s.solve 1 [.ofVec [0], .ofVec [0]] [.ofVec [0]] 1 true none
    s.options.fault? = none ∧ result.2 = .returned true ∧ result.1.solver.stats.stop = 1 ∧
      result.1.solver.residualAlong result.1.solver.candidate.toTrajectory = .ok (9 / 4) ∧
      ¬ Scalar.lt (9 / 4) s.options.stopThreshold = true := by
  intro s result
  obtain ⟨t, events, ht, hsolve⟩ := @solve_atRest ℝ _
  have hresult : result = Run.finish { solver := t, events } .success := hsolve
  have harrived : result.1.solver.Arrived := by
    rw [hresult]
    exact ⟨ht.problem, ht.knots, ht.candidate, ht.lambdas, ht.stop⟩
  have hthreshold : s.options.stopThreshold = 2 := rfl
  refine ⟨Options.fault?_steep, congrArg Prod.snd hresult, ?_, harrived.residualAlong, ?_⟩
  · rw [hresult]
    exact ht.stop
  · rw [hthreshold, ExactScalar.lt_iff]
    norm_num

theorem succeeds_after_steep :
    let s : Solver ℝ := (create .steep .steep).after []
    let xs : List (Tensor ℝ) := [[0], [0]].map .ofVec
    let us : List (Tensor ℝ) := [[0]].map .ofVec
    (s.solve 1 xs us 1 true none).2 = .returned true ∧
      ∃ iter r, s.Succeeds 1 xs us 1 true none iter r (s.solve 1 xs us 1 true none) := by
  intro s xs us
  obtain ⟨t, events, -, hsolve⟩ := @solve_atRest ℝ _
  have hreturned : (s.solve 1 xs us 1 true none).2 = .returned true := congrArg Prod.snd hsolve
  exact ⟨hreturned, succeeds_after .steep .steep [] (Tensor.valid_of_mem_map _)
    (Tensor.valid_of_mem_map _) hreturned⟩

end Solver
end Shooting
