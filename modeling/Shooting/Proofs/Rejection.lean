import Shooting.Proofs.Criterion
import Shooting.Proofs.Weights

/-! # Rejected steps

A search that accepts no step ends with the shortest one of its schedule, which is also the one that
the damping is adapted to. If that step is short, the damping is only raised, and the next direction
is another one unless the largest damping ends the run. If it is long, the damping is lowered before
it is raised, and may come out as it was.
-/

namespace Shooting

open Matrix

section Search

variable {α σ : Type} [Scalar α] {trial : σ → α → σ × Except Fault (Trial α)} {d : α × α}
  {feasible : Bool} {w : σ} {s : Search α} {a : α} {alphas : List α}

theorem Search.walk_rejected (h : (walk trial d feasible alphas w s).result = .ok a)
    (hrej : (walk trial d feasible alphas w s).search.accepted = false) :
    (s.steplength :: alphas).getLast? = some a := by
  induction alphas generalizing w s with
  | nil => exact congrArg some (Except.ok.inj h)
  | cons b rest ih =>
    rw [List.getLast?_cons_cons]
    unfold walk at h hrej
    dsimp only at h hrej
    split at h <;> rename_i ht <;> rw [ht] at hrej
    · cases h
    · exact ih h hrej
    · split at h <;> rename_i hv
      · simp only [hv] at hrej
        cases (accepted_of_verdict hv).symm.trans hrej
      · simp only [hv] at hrej
        exact ih h hrej

theorem Search.walk_only {dV : α} {w' : σ} (ht : trial w a = (w', .ok (.ok dV)))
    (hv : verdict { s with dV, dVexp := expectedDecrease d a } d feasible = none) :
    (walk trial d feasible [a] w s).result = .ok a ∧
      (walk trial d feasible [a] w s).search.accepted = false := by
  have hv' : verdict { s with
      steplength := a, iterations := s.iterations + 1, dV, dVexp := expectedDecrease d a }
      d feasible = none := hv
  unfold walk
  dsimp only
  rw [ht]
  dsimp only
  rw [hv']
  exact ⟨rfl, rfl⟩

end Search

section Damping

variable {K : Type} [ExactScalar K] {o : Options K} {a x : K}

namespace Options

/-- The weight that the damping is adapted to after a search that ends with the shortest step. -/
def reweighted (o : Options K) (a x : K) : K :=
  o.raised (if o.stepThreshold < a then o.lowered x else x)

/-- The shortest step is long, and the weight is not at an end of its range: to lower and to raise
it changes nothing. -/
def Stalls (o : Options K) (x : K) : Prop :=
  (∃ a, o.alphas.getLast? = some a ∧ o.stepThreshold < a) ∧ o.regMin * o.regFactor ≤ x ∧
    x < o.regMax

theorem reweighted_of_stalls (ho : o.InRange) (ha : o.alphas.getLast? = some a) (h : o.Stalls x) :
    o.reweighted a x = x := by
  obtain ⟨⟨b, hb, hlong⟩, hlow, hmax⟩ := h
  obtain rfl : b = a := Option.some.inj (hb.symm.trans ha)
  rw [reweighted, if_pos hlong, raised_lowered ho, max_eq_left hlow, min_eq_left hmax.le]

/-- In every other case the weight becomes larger, or the largest. -/
theorem lt_reweighted (ho : o.InRange) (hmin : 0 < o.regMin) (ha : o.alphas.getLast? = some a)
    (hx : 0 ≤ x) (hmax : x ≤ o.regMax) (h : ¬ o.Stalls x) :
    o.reweighted a x = o.regMax ∨ x < o.reweighted a x := by
  unfold reweighted
  rcases hmax.eq_or_lt with rfl | hlt
  · left
    split
    · rw [raised_lowered ho, min_eq_right (le_max_left _ _)]
    · exact raised_regMax ho
  · right
    split <;> rename_i hlong
    · rw [raised_lowered ho]
      refine lt_min (lt_max_of_lt_right ?_) hlt
      by_contra hle
      exact h ⟨⟨a, ha, hlong⟩, not_lt.mp hle, hlt⟩
    · exact lt_raised ho hmin hx hlt

end Options

def Flow.run {α : Type} : Flow α → Run α
  | .next r => r
  | .done r _ => r

namespace Run

variable {r r' : Run K}

/-- A rejected step leaves the solver where it was, with the shortest step noted. -/
theorem step_rejected {α : Type} [Scalar α] {r r' : Run α} (h : r.step = .next r')
    (hrej : r'.solver.search.accepted = false) (hne : r.solver.search.alphas ≠ []) :
    ∃ (w : Solver α) (search : Search α) (a : α), r.solver.predict.Trying w ∧
      r'.solver = Solver.noted { w with search } a ∧ r.solver.search.alphas.getLast? = some a := by
  obtain ⟨w, hw, hstate⟩ := r.solver.predict.searchStep_trying
  rw [step_eq] at h
  split at h
  · cases h
  · rename_i a hres
    rw [advance_eq, solver_searched, hstate] at h
    split_ifs at h with hacc
    · split at h <;> cases h
      rename_i hp
      obtain ⟨c, rfl⟩ := Solver.promote_eq_ok hp
      cases hacc.symm.trans hrej
    · cases h
      refine ⟨w, _, a, hw, rfl, ?_⟩
      obtain ⟨b, rest, hb⟩ := List.exists_cons_of_ne_nil hne
      have hlast := Search.walk_rejected hres hrej
      change (_ :: r.solver.search.alphas).getLast? = some a at hlast
      rwa [hb, List.getLast?_cons_cons, ← hb] at hlast

theorem step_only {α : Type} [Scalar α] {r : Run α} {s : Solver α} {a cost : α}
    (hr : r.solver.predict = s) (ha : s.search.alphas = [a])
    (he : (s.problem.evaluate s.knots (s.trialAt a).xs (s.trialAt a).us).2 = .ok cost)
    (hfin : Scalar.isFinite cost = true)
    (hv : Search.verdict
      { s.search with dV := s.cost - cost, dVexp := Search.expectedDecrease s.d a }
      s.d s.candidate.feasible = none) :
    ∃ r', r.step = .next r' ∧ r'.solver.search.accepted = false := by
  subst hr
  obtain ⟨hresult, hrejected⟩ := Search.walk_only
    (s := { r.solver.predict.search with
      iterations := 0, failures := 0, dV := 0, dVexp := 0, code := .noError })
    (Solver.tryStep_ok he hfin) hv
  rw [← ha] at hresult hrejected
  have hres : r.solver.predict.searchStep.result = .ok a := hresult
  refine ⟨{ r.searched with solver := r.searched.solver.noted a }, ?_, hrejected⟩
  rw [step_eq, hres]
  dsimp only
  rw [advance_eq]
  exact if_neg (Bool.eq_false_iff.mp hrejected)

theorem adapt_shortest (ha : r.solver.options.alphas.getLast? = some r.solver.steplength)
    (hx : r.solver.xreg = some x) :
    ∃ (r₁ : Run K) (ureg : Weight K), r.adapt = r₁.unlessSaturated ∧
      r₁.solver = { r.solver with
        xreg := some (r.solver.options.reweighted r.solver.steplength x), ureg } := by
  have hweight : r.solver.adapted.xreg = some
      (if r.solver.options.stepThreshold < r.solver.steplength then r.solver.options.lowered x
        else x) := by
    unfold Solver.adapted
    split_ifs with hlong hlt hlt
    · exact Solver.xreg_decrease hx
    · exact absurd (ExactScalar.lt_iff.mp hlong) hlt
    · exact absurd (ExactScalar.lt_iff.mpr hlt) hlong
    · exact hx
  have hraised := Solver.xreg_increase hweight
  obtain ⟨xreg, ureg, hadapted⟩ := r.solver.adapted_weights
  rw [hadapted] at hraised
  have hlast : r.solver.options.alphas.getLast?.any (Scalar.eq r.solver.steplength) = true := by
    rw [ha]
    exact ExactScalar.eq_iff.mpr rfl
  let s : Solver K := { r.solver with xreg, ureg }
  refine ⟨({ r with solver := s.increase } : Run K).report [.shortestStep s.increase.xreg],
    s.increase.ureg, ?_, ?_⟩
  · rw [adapt_eq]
    change escalate { r with solver := r.solver.adapted } = _
    rw [hadapted]
    exact if_pos hlast
  · exact congrArg (fun w => { r.solver with xreg := w, ureg := s.increase.ureg }) hraised

theorem unlessSaturated_of_eq (h : r.solver.xreg = some r.solver.options.regMax) :
    r.unlessSaturated = r.finished .maxRegularization :=
  if_pos (by rw [h]; exact ExactScalar.eq_iff.mpr rfl)

theorem unlessSaturated_of_ne (hx : r.solver.xreg = some x) (h : x ≠ r.solver.options.regMax) :
    r.unlessSaturated = .next r :=
  if_neg (by rw [hx]; exact fun hsaturated => h (ExactScalar.eq_iff.mp hsaturated))

theorem run_assess {α : Type} [Scalar α] (r : Run α) :
    r.assess.run.solver.xreg = r.solver.xreg ∧
      r.assess.run.solver.candidate = r.solver.candidate := by
  rw [assess_eq]
  dsimp only
  unfold conclude
  split
  · exact ⟨rfl, rfl⟩
  · split_ifs <;> exact ⟨rfl, rfl⟩

/-- A run that stays where the iteration with a number has found it. -/
structure Stays (iter : ℕ) (r r' : Run K) : Prop where
  candidate : r'.solver.candidate = r.solver.candidate
  wasFeasible : r'.solver.wasFeasible = r.solver.wasFeasible
  options : r'.solver.options = r.solver.options
  callbacks : r'.solver.callbacks = r.solver.callbacks
  iterations : r'.solver.stats.iterations = iter + 1

/-- An iteration whose search accepts no step stays at its trajectory, and ends the run if the weight
that the damping is adapted to is the largest one. -/
theorem iterate_rejected {fuel iter : ℕ} {r₁ r₂ : Run K} (ho : r.solver.options.InRange)
    (hs : r.solver.search.alphas = r.solver.options.alphas)
    (hdir : factorize fuel true { r with solver := r.solver.numbered iter } = .next r₁)
    (hx : r₁.solver.xreg = some x) (hstep : r₁.step = .next r₂)
    (hrej : r₂.solver.search.accepted = false) :
    ∃ (a : K) (r₃ : Run K), r.solver.options.alphas.getLast? = some a ∧ r.Stays iter r₃ ∧
      r₃.solver.xreg = some (r.solver.options.reweighted a x) ∧
      (r.solver.options.reweighted a x = r.solver.options.regMax →
        r.iterate fuel iter = r₃.finished .maxRegularization) ∧
      (r.solver.options.reweighted a x ≠ r.solver.options.regMax →
        r.iterate fuel iter = r₃.assess) := by
  have hkept := keeps_factorize fuel true { r with solver := r.solver.numbered iter }
  rw [hdir] at hkept
  have hoptions : r₁.solver.options = r.solver.options := hkept.options
  have hsearch : r₁.solver.search.alphas = r.solver.options.alphas :=
    (congrArg Search.alphas hkept.search).trans hs
  obtain ⟨w, search, a, ⟨knots, attempt, -, rfl⟩, hr₂, ha⟩ :=
    step_rejected hstep hrej (hsearch ▸ ho.nonempty)
  have hlast : r₂.solver.options.alphas.getLast? = some r₂.solver.steplength := by
    rw [hr₂]
    change r₁.solver.options.alphas.getLast? = some a
    rw [hoptions, ← hsearch]
    exact ha
  have hweight : r₂.solver.xreg = some x := by
    rw [hr₂]
    exact hx
  obtain ⟨r₃, ureg, hadapt, hr₃⟩ := adapt_shortest hlast hweight
  rw [hr₂] at hr₃
  have hstays : r.Stays iter r₃ := by
    constructor <;> rw [hr₃]
    · exact hkept.candidate
    · exact hkept.wasFeasible
    · exact hkept.options
    · exact hkept.callbacks
    · exact congrArg Stats.iterations hkept.stats
  have hxreg : r₃.solver.xreg = some (r.solver.options.reweighted a x) := by
    rw [hr₃, ← hoptions]
    rfl
  have hiter : r.iterate fuel iter = r₃.unlessSaturated.andThen assess := by
    rw [iterate_eq, unassessed, hdir]
    change ((r₁.step.andThen adapt).andThen assess) = _
    rw [hstep, ← hadapt]
    rfl
  refine ⟨a, r₃, hsearch ▸ ha, hstays, hxreg, fun htop => ?_, fun hbelow => ?_⟩
  · rw [hiter, unlessSaturated_of_eq (by rw [hxreg, hstays.options, htop])]
    rfl
  · rw [hiter, unlessSaturated_of_ne hxreg (by rwa [hstays.options])]
    rfl

end Run

namespace Solver

/-- After a search that accepts no step the solve ends at the largest damping, or the damping is
larger than the one that the direction was computed with. Only an iteration that stalls is followed
by another one with the same weight at the same trajectory. -/
theorem rejection_after (p : Problem K) (ho : o.fault? = none) (hmin : 0 < o.regMin)
    (past : List (Operation K)) {xs us : List (Tensor K)} {maxiter : ℤ} {feasible : Bool}
    {reginit : Weight K} {fuel iter : ℕ} {r r₁ r₂ : Run K}
    (h : ((create p o).after past).Iterates fuel xs us maxiter feasible reginit iter r)
    (hdir : Run.factorize fuel true { r with solver := r.solver.numbered iter } = .next r₁)
    (hx : r₁.solver.xreg = some x) (hpos : 0 ≤ x) (hmax : x ≤ o.regMax)
    (hstep : r₁.step = .next r₂) (hrej : r₂.solver.search.accepted = false) :
    (¬ o.Stalls x →
      (∃ e : Run K, e.solver.stats.iterations = iter + 1 ∧
        ((create p o).after past).solve fuel xs us maxiter feasible reginit =
          e.finish .maxRegularization) ∨
      ∃ y, (r.iterate fuel iter).run.solver.xreg = some y ∧ x < y) ∧
    (o.Stalls x → (r.iterate fuel iter).run.solver.xreg = some x ∧
      (r.iterate fuel iter).run.solver.candidate = r.solver.candidate) := by
  have hrange := Options.fault?_eq_none_iff.mp ho
  obtain ⟨c, hkept⟩ := h.preserved
  have hoptions : r.solver.options = o := hkept.options.trans (options_after past)
  have hsearch : r.solver.search.alphas = o.alphas :=
    hkept.search.alphas.trans (search_after (p := p) (o := o) past).alphas
  subst hoptions
  obtain ⟨a, r₃, ha, hstays, hxreg, hdone, hnext⟩ :=
    Run.iterate_rejected hrange hsearch hdir hx hstep hrej
  obtain ⟨hassess, hassess'⟩ := r₃.run_assess
  constructor
  · intro hstalls
    by_cases htop : r.solver.options.reweighted a x = r.solver.options.regMax
    · left
      obtain ⟨left, hleft⟩ : ∃ left, maxiter.toNat - iter = left + 1 :=
        ⟨maxiter.toNat - iter - 1, by have := h.lt; omega⟩
      refine ⟨r₃, hstays.iterations, ?_⟩
      rw [h.solve_eq, hleft, Run.loop_finished (hdone htop)]
    · right
      rw [hnext htop]
      exact ⟨_, hassess.trans hxreg,
        (Options.lt_reweighted hrange hmin ha hpos hmax hstalls).resolve_left htop⟩
  · intro hstalls
    have hsame := Options.reweighted_of_stalls hrange ha hstalls
    rw [hnext (hsame.trans_ne hstalls.2.2.ne)]
    exact ⟨hassess.trans (hsame ▸ hxreg), hassess'.trans hstays.candidate⟩

end Solver

def Options.demanding (threshold : K) : Options K :=
  { lenient with
    regMin := 1 / (8 : ℕ)
    gradThreshold := Scalar.half
    stepThreshold := threshold
    acceptRatio := (9 : ℕ) / (10 : ℕ)
    alphas := [1] }

theorem Options.fault?_demanding {threshold : K} (h : 0 < threshold) :
    (demanding threshold).fault? = none := by
  have hthreshold : ¬ threshold ≤ 0 := h.not_ge
  simp [fault?, demanding, lenient, strictlyDecreasing, Bool.eq_false_iff, hthreshold]
  norm_num

theorem Options.quarter_demanding (threshold : K) : 0 < (demanding threshold).regMin ∧
    (1 / 4 : K) ≤ (demanding threshold).regMax := by
  constructor
  · change (0 : K) < 1 / (8 : ℕ)
    norm_num
  · change (1 / 4 : K) ≤ 1
    norm_num

theorem Options.stalls_demanding : (demanding (1 / 2 : K)).Stalls (1 / 4) := by
  refine ⟨⟨1, rfl, ?_⟩, ?_, ?_⟩
  · change (1 / 2 : K) < 1
    norm_num
  · change (1 / (8 : ℕ) * (1 + 1) : K) ≤ 1 / 4
    norm_num
  · change (1 / 4 : K) < 1
    norm_num

theorem Options.not_stalls_demanding : ¬ (demanding (1 : K)).Stalls (1 / 4) := by
  rintro ⟨⟨a, ha, hlong⟩, -, -⟩
  cases ha
  exact lt_irrefl (1 : K) hlong

namespace Solver

variable {t : K}

def braced (t : K) : Solver K :=
  ((create (.steep : Problem K) (.demanding t)).begun
    { xs := [[0], [0]], us := [[0]] } true (some (1 / 4))).numbered 0

theorem hessian_braced : ((braced t).damped (Problem.steepKnots 0)).hessian
    (Problem.steep : Problem K).layout = (5 / 4 : K) • (1 : Matrix (Fin 3) (Fin 3) K) := by
  have hdamp : ((braced t).damped (Problem.steepKnots 0)).hessian
      (Problem.steep : Problem K).layout =
        ((Problem.steep : Problem K).program (Problem.steepKnots 0) [[0], [0]]).hessian
          (Problem.steep : Problem K).layout + (1 / 4 : K) • 1 := System.hessian_damp _ _ _ rfl rfl
  rw [hdamp, Problem.hessian_steep_zero]
  change (1 + (1 / 4 : K) • 1 : Matrix (Fin 3) (Fin 3) K) = (5 / 4 : K) • 1
  module

theorem Solution.eq_braced {primal dual : Vec K}
    (h : (braced t).Solution (Problem.steepKnots 0) primal dual) :
    primal = [0, 0, 4 / 5] ∧ dual = [0, 0] := by
  have hst : Shooting.Stationary ((5 / 4 : K) • (1 : Matrix (Fin 3) (Fin 3) K))
      !![1, 0, 0; -1, 1, -0] ![0, 0, 3 / 2 * 0 ^ 3 + 0 - 1] ![0 - 0, 0 - 0] (Vec.toFun 3 primal)
      (Vec.toFun 2 dual) := by
    rw [← hessian_braced (t := t), ← Problem.constraint_steep, ← Problem.gradient_steep,
      ← Problem.violation_steep]
    exact h.stationary
  have hpos : (0 : K) < 5 / 4 := by
    norm_num
  have hsol := Problem.solution_of_stationary_steep hpos h.length_primal h.length_dual hst
  rwa [one_div_div] at hsol

def pressing (t : K) : Solver K :=
  ((braced t).directed (Problem.steepKnots 0) [0, 0, 4 / 5] [0, 0]).predict

theorem computeDirection_braced : (braced t).computeDirection true =
    ((braced t).directed (Problem.steepKnots 0) [0, 0, 4 / 5] [0, 0], .ok .noError) := by
  have hsymmetric := System.symmetric_slopesAt Problem.symmetricHessians_steep
    (Problem.linearizedAt_steep (K := K) (u := 0))
  have hscaled : PositiveDefinite ((5 / 4 : K) • (1 : Matrix (Fin 3) (Fin 3) K)) := by
    intro v hv
    rw [smul_mulVec, dotProduct_smul]
    exact mul_pos (by norm_num) (Mat.positiveDefinite_one 3 v hv)
  have hpos : PositiveDefinite (((braced t).damped (Problem.steepKnots 0)).hessian
      (Problem.steep : Problem K).layout) := by
    rw [hessian_braced]
    exact hscaled
  obtain ⟨primal, dual, hsol, hd⟩ := exists_solution (s := braced t) ⟨rfl, rfl, rfl⟩
    Problem.linearizedAt_steep (System.saddlePoint_damp_assemble hsymmetric _ _) hpos
  obtain ⟨rfl, rfl⟩ := hsol.eq_braced
  exact hd

theorem d_pressing : (pressing t).d = (4 / 5, -(4 / 5)) := by
  let q : Fin 3 → K := Vec.toFun 3 [0, 0, 4 / 5]
  have hd : (pressing t).d =
      (-(![0, 0, 3 / 2 * 0 ^ 3 + 0 - 1] ⬝ᵥ q), -(q ⬝ᵥ ((5 / 4 : K) • 1) *ᵥ q)) := by
    rw [← hessian_braced (t := t), ← Problem.gradient_steep]
    exact predict_directed rfl
  have hq : q = ![0, 0, 4 / 5] := by
    ext i
    fin_cases i <;> rfl
  rw [hd, hq]
  simp [smul_mulVec, dotProduct, Fin.sum_univ_three]

theorem trialAt_pressing :
    (pressing t).trialAt 1 = { xs := [[0], [0]], us := [[4 / 5]] } := by
  change ({ xs := [[0 + 1 * 0], [0 + 1 * 0]], us := [[0 + 1 * (4 / 5)]] } : Trajectory K) = _
  simp

theorem evaluate_pressing : ((pressing t).problem.evaluate (pressing t).knots
    ((pressing t).trialAt 1).xs ((pressing t).trialAt 1).us).2 =
      .ok (Problem.steepKnots (4 / 5)).total := by
  rw [trialAt_pressing]
  exact Problem.Fits.evaluate_total ⟨rfl, rfl, rfl⟩ Problem.linearizedAt_steep

theorem verdict_pressing : Search.verdict
    { (pressing t).search with
      dV := (pressing t).cost - (Problem.steepKnots (4 / 5)).total
      dVexp := Search.expectedDecrease (pressing t).d 1 }
    (pressing t).d (pressing t).candidate.feasible = none := by
  have hcost : (pressing t).cost = (Problem.steepKnots 0).total := rfl
  have hratio : (pressing t).search.acceptRatio = 9 / 10 := rfl
  have hthreshold : (pressing t).search.gradThreshold = 1 / 2 := ExactScalar.half_eq
  have hfeasible : (pressing t).candidate.feasible = true := rfl
  have hgrad : Scalar.lt (4 / 5 : K) (1 / 2) = false :=
    ExactScalar.lt_eq_false_iff.mpr (by norm_num)
  unfold Search.verdict Search.expectedDecrease
  rw [hcost, d_pressing, hfeasible, Problem.total_steep, Problem.total_steep]
  dsimp only
  rw [hratio, hthreshold, ExactScalar.half_eq, hgrad, if_neg Bool.false_ne_true, Bool.not_true,
    if_neg Bool.false_ne_true]
  refine if_neg ?_
  rw [ExactScalar.lt_iff, not_lt]
  norm_num

theorem rejects_steep (t : K) :
    let s : Solver K := (create .steep (.demanding t)).after []
    ∃ r r₁ r₂ : Run K,
      s.Iterates 1 ([[0], [0]].map .ofVec) ([[0]].map .ofVec) 1 true (some (1 / 4)) 0 r ∧
      r.solver.wasFeasible = false ∧ r.solver.callbacks = [] ∧
      r.solver.options = .demanding t ∧ r.solver.search.alphas = r.solver.options.alphas ∧
      Run.factorize 1 true { r with solver := r.solver.numbered 0 } = .next r₁ ∧
      r₁.solver.xreg = some (1 / 4) ∧ r₁.step = .next r₂ ∧
      r₂.solver.search.accepted = false := by
  intro s
  let c : Trajectory K := { xs := [[0], [0]], us := [[0]] }
  let r : Run K := { solver := s.begun c true (some (1 / 4)), events := [.started] }
  have htraj : s.problem.trajectory ([[0], [0]].map .ofVec) ([[0]].map .ofVec) = .ok c :=
    Problem.trajectory_ofVec ⟨rfl, rfl⟩
  have hdir : Run.factorize 1 true { r with solver := r.solver.numbered 0 } =
      .next { r with
        solver := (braced t).directed (Problem.steepKnots 0) [0, 0, 4 / 5] [0, 0] } := by
    have hd : (r.solver.numbered 0).computeDirection true =
        ((braced t).directed (Problem.steepKnots 0) [0, 0, 4 / 5] [0, 0], .ok .noError) :=
      computeDirection_braced
    rw [Run.factorize_succ]
    dsimp only
    rw [hd]
    rfl
  obtain ⟨r₂, hstep, hrejected⟩ := Run.step_only
    (r := { r with solver := (braced t).directed (Problem.steepKnots 0) [0, 0, 4 / 5] [0, 0] })
    (s := pressing t) rfl rfl evaluate_pressing rfl verdict_pressing
  exact ⟨r, _, r₂, ⟨⟨c, r, htraj, rfl, .first⟩, by decide⟩, rfl, rfl, rfl, rfl, hdir, rfl, hstep,
    hrejected⟩

/-- With the full step above the threshold, the rejected iteration leaves the weight at a quarter,
in the midst of its range, and the solve does not end at the largest damping. -/
theorem stalled_steep :
    let o : Options ℝ := .demanding (1 / 2)
    let s : Solver ℝ := (create .steep o).after []
    let xs : List (Tensor ℝ) := [[0], [0]].map .ofVec
    let us : List (Tensor ℝ) := [[0]].map .ofVec
    o.fault? = none ∧ 0 < o.regMin ∧ 1 / 4 ≤ o.regMax ∧
      ∃ r r₁ r₂ : Run ℝ, s.Iterates 1 xs us 1 true (some (1 / 4)) 0 r ∧
        Run.factorize 1 true { r with solver := r.solver.numbered 0 } = .next r₁ ∧
        r₁.solver.xreg = some (1 / 4) ∧ r₁.step = .next r₂ ∧
        r₂.solver.search.accepted = false ∧
        (r.iterate 1 0).run.solver.xreg = some (1 / 4) ∧
        (s.solve 1 xs us 1 true (some (1 / 4))).1.solver.stats.status = .maxIterations := by
  intro o s xs us
  have ho : o.fault? = none := Options.fault?_demanding (by norm_num)
  obtain ⟨hmin, hmax⟩ := Options.quarter_demanding (1 / 2 : ℝ)
  obtain ⟨r, r₁, r₂, h, hinfeasible, hsilent, hoptions, hsearch, hdir, hx, hstep, hrej⟩ :=
    rejects_steep (1 / 2 : ℝ)
  have hrange : r.solver.options.InRange := hoptions ▸ Options.fault?_eq_none_iff.mp ho
  have hstalls : r.solver.options.Stalls (1 / 4) := hoptions ▸ Options.stalls_demanding
  obtain ⟨a, r₃, ha, hstays, hxreg, -, hbelow⟩ :=
    Run.iterate_rejected hrange hsearch hdir hx hstep hrej
  rw [Options.reweighted_of_stalls hrange ha hstalls] at hxreg hbelow
  have hnext : r.iterate 1 0 = r₃.assess := hbelow hstalls.2.2.ne
  -- The trajectory was never held to be feasible before, so the stopping test does not end the run.
  obtain ⟨events, hassess⟩ := Run.assess_next (r := r₃)
    (by rw [hstays.callbacks, hsilent]; exact List.not_mem_nil)
  rw [hstays.wasFeasible, hinfeasible, Bool.false_and, if_neg Bool.false_ne_true] at hassess
  refine ⟨ho, hmin, hmax, r, r₁, r₂, h, hdir, hx, hstep, hrej, ?_, ?_⟩
  · rw [hnext]
    exact r₃.run_assess.1.trans hxreg
  · rw [h.solve_eq]
    change (r.loop 1 (0 + 1) 0).1.solver.stats.status = _
    rw [Run.loop_next (hnext.trans hassess)]
    rfl

/-- With the full step at the threshold, the weight is raised. -/
theorem rejection_after_steep :
    let s : Solver ℝ := (create .steep (.demanding 1)).after []
    let xs : List (Tensor ℝ) := [[0], [0]].map .ofVec
    let us : List (Tensor ℝ) := [[0]].map .ofVec
    ∃ r : Run ℝ, s.Iterates 1 xs us 1 true (some (1 / 4)) 0 r ∧
      ((∃ e : Run ℝ, e.solver.stats.iterations = (0 : ℕ) + 1 ∧
        s.solve 1 xs us 1 true (some (1 / 4)) = e.finish .maxRegularization) ∨
      ∃ y, (r.iterate 1 0).run.solver.xreg = some y ∧ 1 / 4 < y) := by
  intro s xs us
  have ho : (Options.demanding (1 : ℝ)).fault? = none := Options.fault?_demanding one_pos
  obtain ⟨hmin, hmax⟩ := Options.quarter_demanding (1 : ℝ)
  obtain ⟨r, r₁, r₂, h, -, -, -, -, hdir, hx, hstep, hrej⟩ := rejects_steep (1 : ℝ)
  exact ⟨r, h, (rejection_after .steep ho hmin [] h hdir hx (by norm_num) hmax hstep hrej).1
    Options.not_stalls_demanding⟩

end Solver

end Damping
end Shooting
