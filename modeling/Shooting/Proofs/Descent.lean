import Shooting.Proofs.Gaps

/-! # Descent

The second order term of the predicted decrease is the curvature of the cost along the direction,
and never positive. The first order term makes up for it but for what the gaps are worth at the
multipliers. Without gaps the prediction is therefore positive for every step length up to one, and
a step that passes the test of sufficient decrease makes the cost smaller.
-/

namespace Shooting

open Matrix

variable {K : Type} [ExactScalar K]

namespace Solver

/-- What the terms of the predicted decrease are along a direction. -/
structure Predicts (s : Solver K) : Prop where
  second_nonpos : s.d.2 ≤ 0
  second_eq_zero_iff : s.d.2 = 0 ↔ s.direction.primal = Vec.zeros s.layout.nprimal
  first : s.d.1 = -s.d.2 - Vec.dot s.direction.dual (s.system.residual.drop s.layout.nprimal)
  gapless : s.problem.Gapless s.candidate.xs s.candidate.us →
    s.d.1 = -s.d.2 ∧ 0 ≤ s.d.1 ∧ ∀ a, Search.expectedDecrease s.d a = a * (1 - a / 2) * s.d.1

variable {s s' : Solver K}

theorem HasDirection.predicts (h : s.HasDirection) (hf : s.Fits) : s.predict.Predicts := by
  have hd : s.predict.d = (-(s.system.gradient s.layout ⬝ᵥ Vec.toFun _ s.direction.primal),
      -(Vec.toFun _ s.direction.primal ⬝ᵥ
        s.system.hessian s.layout *ᵥ Vec.toFun _ s.direction.primal)) :=
    System.improvement_eq h.length_primal
  have hst := h.stationary.gradient_dotProduct_eq
  have hdot : Vec.dot s.direction.dual (s.system.residual.drop s.layout.nprimal) =
      Vec.toFun _ s.direction.dual ⬝ᵥ s.system.violation s.layout :=
    Vec.dot_eq (.inl h.length_dual.le)
  have hzero : Vec.toFun s.layout.nprimal s.direction.primal = 0 ↔
      s.direction.primal = Vec.zeros s.layout.nprimal := by
    rw [← Vec.toFun_zeros s.layout.nprimal s.layout.nprimal]
    exact Vec.toFun_eq_iff h.length_primal (Vec.length_zeros _)
  have hnonpos : s.predict.d.2 ≤ 0 := by
    rw [hd, neg_nonpos]
    rcases eq_or_ne (Vec.toFun s.layout.nprimal s.direction.primal) 0 with h₀ | h₀
    · rw [h₀, zero_dotProduct]
    · exact (h.positive _ h₀).le
  constructor
  case second_nonpos => exact hnonpos
  case second_eq_zero_iff =>
    change s.predict.d.2 = 0 ↔ s.direction.primal = Vec.zeros s.layout.nprimal
    rw [← hzero, hd, neg_eq_zero]
    constructor
    · intro hcurve
      by_contra hne
      exact (h.positive _ hne).ne' hcurve
    · intro h₀
      rw [h₀, zero_dotProduct]
  case first =>
    change s.predict.d.1 = -s.predict.d.2 -
      Vec.dot s.direction.dual (s.system.residual.drop s.layout.nprimal)
    rw [hd, hdot, hst]
    ring
  case gapless =>
    intro hg
    have hviolation := h.current.violation_eq_zero hf hg
    have hfirst : s.predict.d.1 = -s.predict.d.2 := by
      rw [hd, h.stationary.gradient_dotProduct hviolation]
    refine ⟨hfirst, ?_, ?_⟩
    · rw [hfirst]
      exact neg_nonneg.mpr hnonpos
    · intro a
      have hsecond : s.predict.d.2 = -s.predict.d.1 := by rw [hfirst, neg_neg]
      rw [Search.expectedDecrease, ExactScalar.half_eq, hsecond]
      ring

end Solver

/-- A search along a direction that promises enough, from a feasible trajectory, accepts a step only
for a sufficient decrease. -/
theorem Search.walk_decrease {α σ : Type} [Scalar α] {trial : σ → α → σ × Except Fault (Trial α)}
    {d : α × α} (alphas : List α) {w : σ} {s : Search α} {a : α}
    (h : (walk trial d true alphas w s).result = .ok a)
    (hacc : (walk trial d true alphas w s).search.accepted = true)
    (hd : Scalar.lt d.1 s.gradThreshold = false) :
    Scalar.lt (s.acceptRatio * expectedDecrease d a)
      (walk trial d true alphas w s).search.dV = true := by
  induction alphas generalizing w s with
  | nil => cases hacc
  | cons b rest ih =>
    unfold walk at h hacc ⊢
    dsimp only at h hacc ⊢
    split at h <;> rename_i ht <;> simp only [ht] at hacc ⊢
    · cases h
    · exact ih h hacc hd
    · split at h <;> rename_i hv <;> simp only [hv] at hacc ⊢
      · obtain rfl : b = a := Except.ok.inj h
        unfold verdict at hv
        dsimp only at hv
        rw [hd, if_neg Bool.false_ne_true, Bool.not_true, if_neg Bool.false_ne_true] at hv
        split_ifs at hv with hlt
        exact hlt
      · exact ih h hacc hd

namespace Run

section

variable {α : Type} [Scalar α] {r r' : Run α}

theorem dV_of_step (h : r.step = .next r') : r'.solver.dV = r'.solver.search.dV := by
  rw [step_eq] at h
  split at h
  · cases h
  · rw [advance_eq] at h
    split_ifs at h
    · split at h <;> cases h
      rename_i hp
      obtain ⟨c, rfl⟩ := Solver.promote_eq_ok hp
      rfl
    · cases h
      rfl

theorem decrease_of_step (h : r.solver.Directed) (hr' : r.step = .next r')
    (hf : r.solver.candidate.feasible = true)
    (hd : Scalar.lt r.solver.predict.d.1 r.solver.search.gradThreshold = false)
    (hacc : r'.solver.search.accepted = true) :
    r'.solver.steplength ∈ r.solver.search.alphas ∧
      Scalar.lt (r.solver.search.acceptRatio *
        Search.expectedDecrease r.solver.predict.d r'.solver.steplength)
        (r.solver.cost - r'.solver.cost) = true ∧ r'.solver.CostIsCurrent := by
  obtain ⟨a, hres, hsearch, hsteps⟩ := steps_of_next h hr'
  rw [hsteps.steplength, ← hsteps.decrease hacc, dV_of_step hr', hsearch]
  rw [hsearch] at hacc
  obtain ⟨ha, -⟩ := Solver.searchStep_accepted hres hacc
  have hfeasible : r.solver.predict.candidate.feasible = true := hf
  unfold Solver.searchStep at hres hacc ⊢
  rw [hfeasible] at hres hacc ⊢
  exact ⟨ha, Search.walk_decrease _ hres hacc hd, hsteps.current⟩

theorem Visits.preserved {r₀ : Run α} {fuel iter : ℕ} (h : r₀.Visits fuel iter r) :
    r₀.solver.Preserved r.solver := by
  induction h with
  | first => exact .refl _
  | @next iter r r' _ hr ih =>
    have hiter := preserved_iterate fuel iter r
    rw [hr] at hiter
    exact ih.trans hiter

end

end Run

namespace Solver

section

variable {α : Type} [Scalar α] {s : Solver α} {fuel iter : ℕ} {xs us : List (Tensor α)}
  {maxiter : ℤ} {feasible : Bool} {reginit : Weight α} {r r' : Run α}

theorem Iterates.preserved (h : s.Iterates fuel xs us maxiter feasible reginit iter r) :
    ∃ c, (s.begun c feasible reginit).Preserved r.solver := by
  obtain ⟨⟨c, r₀, -, hstart, hvisits⟩, -⟩ := h
  have hbegun := Run.preserved_start { solver := s.begun c feasible reginit, events := [] }
  rw [hstart] at hbegun
  exact ⟨c, hbegun.trans hvisits.preserved⟩

theorem Iterates.settings (h : s.Iterates fuel xs us maxiter feasible reginit iter r)
    (hr' : Run.factorize fuel true { r with solver := r.solver.numbered iter } = .next r') :
    r'.solver.problem = s.problem ∧ s.search.SameSettings r'.solver.search ∧
      r'.solver.candidate = r.solver.candidate := by
  obtain ⟨c, hbegun⟩ := h.preserved
  have hnumbered : r.solver.Preserved (r.solver.numbered iter) := .of_eq rfl rfl rfl rfl rfl rfl
  have hfactor := Run.preserved_factorize fuel true { r with solver := r.solver.numbered iter }
  have hkept := Run.keeps_factorize fuel true { r with solver := r.solver.numbered iter }
  rw [hr'] at hfactor hkept
  have hall := (hbegun.trans hnumbered).trans hfactor
  exact ⟨hall.problem, hall.search, hkept.candidate⟩

end

section

variable {s : Solver K} {fuel iter : ℕ} {xs us : List (Tensor K)} {maxiter : ℤ} {feasible : Bool}
  {reginit : Weight K} {r r' : Run K}

theorem Iterates.hasDirection (h : s.Iterates fuel xs us maxiter feasible reginit iter r)
    (hf : s.Fits) (hp : s.problem.SymmetricHessians) (hx : ∀ a ∈ xs, a.Valid)
    (hu : ∀ a ∈ us, a.Valid)
    (hr' : Run.factorize fuel true { r with solver := r.solver.numbered iter } = .next r') :
    r'.solver.Directed ∧ r'.solver.HasDirection := by
  have hholds := (h.holds hf hx hu).numbered iter
  have hdirected := Run.holds_factorize fuel hholds
  have hkept := Run.preserved_factorize fuel true { r with solver := r.solver.numbered iter }
  rw [hr'] at hdirected hkept
  have hproblem : r.solver.problem = s.problem := hkept.problem.symm.trans (h.settings hr').1
  exact ⟨hdirected.solver,
    Run.hasDirection_factorize hholds.solver.fits (hproblem ▸ hp) hr'⟩

end

theorem promise_pos {o : Options K} (ho : o.InRange) {a d : K} (ha : a ∈ o.alphas)
    (hd : o.gradThreshold ≤ d) : 0 < o.acceptRatio * (a * (1 - a / 2) * d) := by
  have hpos := ho.alphas_pos a ha
  have hle := ho.alphas_le a ha
  have hhalf : 0 < 1 - a / 2 := by linarith
  exact mul_pos ho.acceptRatio_pos (mul_pos (mul_pos hpos hhalf) (ho.gradThreshold.trans_le hd))

/-- How the directions and the accepted steps of a solve bring the cost down. -/
structure Descends (s : Solver K) (fuel : ℕ) (xs us : List (Tensor K)) (maxiter : ℤ)
    (feasible : Bool) (reginit : Weight K) : Prop where
  predicted : ∀ iter r r', s.Iterates fuel xs us maxiter feasible reginit iter r →
    Run.factorize fuel true { r with solver := r.solver.numbered iter } = .next r' →
    r'.solver.predict.Predicts
  /-- From a feasible trajectory without gaps, with a direction that promises enough. -/
  stepped : ∀ iter r r' r'', s.Iterates fuel xs us maxiter feasible reginit iter r →
    r.solver.candidate.feasible = true →
    s.problem.Gapless r.solver.candidate.xs r.solver.candidate.us →
    Run.factorize fuel true { r with solver := r.solver.numbered iter } = .next r' →
    s.options.gradThreshold ≤ r'.solver.predict.d.1 →
    r'.step = .next r'' → r''.solver.search.accepted = true →
    r'.solver.CostIsCurrent ∧ r''.solver.CostIsCurrent ∧
      0 < r''.solver.steplength ∧ r''.solver.steplength ≤ 1 ∧
      r''.solver.cost < r'.solver.cost ∧
      s.options.acceptRatio *
          (r''.solver.steplength * (1 - r''.solver.steplength / 2) * r'.solver.predict.d.1) <
        r'.solver.cost - r''.solver.cost

variable {p : Problem K} {o : Options K}

/-- Directions point downhill, and accepted steps go there, whatever the solver has done before. -/
theorem descends_after (hp : p.SymmetricHessians) (ho : o.fault? = none)
    (past : List (Operation K)) :
    let s := (create p o).after past
    (∀ relinearize s', (relinearize = false → s.SystemIsCurrent) →
      s.computeDirection relinearize = (s', .ok .noError) → s'.predict.Predicts) ∧
    ∀ xs us fuel maxiter feasible reginit, (∀ a ∈ xs, a.Valid) → (∀ a ∈ us, a.Valid) →
      s.Descends fuel xs us maxiter feasible reginit := by
  intro s
  have hf : s.Fits := fits_after past
  have hprob : s.problem = p := problem_after past
  have hopt : s.options = o := options_after past
  have hsearch : (create p o).search.SameSettings s.search := search_after past
  have hrange := Options.fault?_eq_none_iff.mp ho
  constructor
  · intro relinearize s' hs hd
    have hkept := s.preserved_computeDirection relinearize
    rw [hd] at hkept
    exact (hf.hasDirection (hprob ▸ hp) hs hd).predicts (hkept.fits hf)
  intro xs us fuel maxiter feasible reginit hx hu
  constructor
  case predicted =>
    intro iter r r' hr hr'
    obtain ⟨hdirected, hdir⟩ := hr.hasDirection hf (hprob ▸ hp) hx hu hr'
    exact hdir.predicts hdirected.fits
  case stepped =>
    intro iter r r' r'' hr hfeasible hgapless hr' hgrad hstep hacc
    obtain ⟨hdirected, hdir⟩ := hr.hasDirection hf (hprob ▸ hp) hx hu hr'
    have hpredicts := hdir.predicts hdirected.fits
    obtain ⟨hproblem, hsettings, hcandidate⟩ := hr.settings hr'
    have hsame := hsearch.trans hsettings
    obtain ⟨hgradThreshold, hacceptRatio⟩ := hsame.thresholds
    have hthreshold : Scalar.lt r'.solver.predict.d.1 r'.solver.search.gradThreshold = false := by
      rw [hgradThreshold]
      exact ExactScalar.lt_eq_false_iff.mpr (hopt ▸ hgrad)
    obtain ⟨hmem, hlt, hcurrent⟩ := Run.decrease_of_step hdirected hstep
      (hcandidate ▸ hfeasible) hthreshold hacc
    obtain ⟨-, -, hexpected⟩ := hpredicts.gapless (hcandidate.symm ▸ hproblem.symm ▸ hgapless)
    rw [hsame.alphas] at hmem
    rw [hacceptRatio] at hlt
    have hdecrease := ExactScalar.lt_iff.mp hlt
    rw [hexpected] at hdecrease
    have hpromise := promise_pos hrange hmem (hopt ▸ hgrad)
    rw [hopt]
    exact ⟨hdirected.cost, hcurrent, hrange.alphas_pos _ hmem, hrange.alphas_le _ hmem,
      sub_pos.mp (hpromise.trans hdecrease), hdecrease⟩

end Solver

namespace Problem

variable {a : K}

def restingKnots (a : K) : Knots K :=
  ((integrator [a] 1).linearize (integrator [a] 1).fresh [[a], [a]] [[0]]).1

theorem linearizedAt_resting :
    (integrator [a] 1).LinearizedAt [[a], [a]] [[0]] (restingKnots a) :=
  ⟨.cons ⟨rfl, rfl⟩ .nil, rfl, rfl⟩

theorem gapless_resting : (integrator [a] 1).Gapless [[a], [a]] [[0]] := by
  constructor
  · intro m hm b hb
    cases hm
    obtain rfl := List.mem_singleton.mp hb
    exact sub_self a
  · rintro (_ | t) m hm <;> cases hm
    refine ⟨_, _, rfl, fun b hb => ?_⟩
    obtain rfl := List.mem_singleton.mp hb
    change a - (a + 0) = 0
    rw [add_zero, sub_self]

theorem constraint_resting :
    ((integrator [a] 1).program (restingKnots a) [[a], [a]]).constraint
      (integrator [a] 1).layout = !![1, 0, 0; -1, 1, -1] := by
  ext i j
  fin_cases i <;> fin_cases j <;> rfl

theorem gradient_resting :
    ((integrator [a] 1).program (restingKnots a) [[a], [a]]).gradient (integrator [a] 1).layout =
      ![a, a, 0] := by
  ext i
  fin_cases i <;> rfl

theorem violation_resting :
    ((integrator [a] 1).program (restingKnots a) [[a], [a]]).violation (integrator [a] 1).layout =
      ![a - a, a - (a + 0)] := by
  ext i
  fin_cases i <;> rfl

theorem dotProduct_of_stationary {q : Fin 3 → K} {l : Fin 2 → K}
    (h : Shooting.Stationary 1 !![1, 0, 0; -1, 1, -1] ![a, a, 0] ![a - a, a - (a + 0)] q l) :
    ![a, a, 0] ⬝ᵥ q = -(a * a / 2) := by
  have hstart : q 0 = 0 := by
    simpa [mulVec, dotProduct, Fin.sum_univ_three] using congrFun h.constraint 0
  have hstep : -q 0 + q 1 - q 2 = 0 := by
    simpa [mulVec, dotProduct, Fin.sum_univ_three, sub_eq_add_neg] using congrFun h.constraint 1
  have hstate : q 1 + l 1 = -a := by
    simpa [mulVec, dotProduct, Fin.sum_univ_three] using congrFun h.gradient 1
  have hcontrol : q 2 - l 1 = 0 := by
    simpa [mulVec, dotProduct, Fin.sum_univ_three, sub_eq_add_neg] using congrFun h.gradient 2
  have hhalf : q 1 = -(a / 2) := by linarith
  calc ![a, a, 0] ⬝ᵥ q = a * q 0 + a * q 1 := by simp [dotProduct, Fin.sum_univ_three]
    _ = -(a * a / 2) := by rw [hstart, hhalf]; ring

end Problem

namespace Solver

theorem Solution.decrease_resting {s : Solver K} {a : K} {primal dual : Vec K}
    (hs : s.problem = .integrator [a] 1) (h : s.Solution (Problem.restingKnots a) primal dual)
    (hc : s.candidate.xs = [[a], [a]]) (hx : s.xreg.addend = 0) (hu : s.ureg.addend = 0) :
    (s.directed (Problem.restingKnots a) primal dual).predict.d.1 = a * a / 2 := by
  have hzero := System.hessian_damp_zero s.problem.layout (Problem.restingKnots a)
    (s.problem.gaps (Problem.restingKnots a) s.candidate.xs) hx hu
  have hd : (s.directed (Problem.restingKnots a) primal dual).predict.d.1 = _ :=
    congrArg Prod.fst (predict_directed h.length_primal)
  have hst := h.stationary
  rw [damped, Problem.program, hzero, hc] at hst
  rw [hd, hc]
  clear hzero hd h
  generalize s.problem = p at *
  subst hs
  have hone := Problem.hessian_integrator (Problem.linearizedAt_resting (a := a))
    ((Problem.integrator [a] 1).gaps (Problem.restingKnots a) [[a], [a]]) rfl
  rw [hone] at hst
  let program := (Problem.integrator [a] 1).program (Problem.restingKnots a) [[a], [a]]
  let layout := (Problem.integrator [a] 1).layout
  change Shooting.Stationary 1 (program.constraint layout) (program.gradient layout)
    (program.violation layout) _ _ at hst
  rw [Problem.constraint_resting, Problem.gradient_resting, Problem.violation_resting] at hst
  rw [Problem.gradient_resting]
  exact (congrArg Neg.neg (Problem.dotProduct_of_stationary hst)).trans (neg_neg _)

/-- The first iteration from a trajectory without gaps takes the full step, and gains what it was
promised. -/
theorem descends_after_integrator :
    let s : Solver ℝ := (create (.integrator [2] 1) .lenient).after
      [.increase, .setCallbacks [.table 10]]
    s.Descends 1 [.ofVec [2], .ofVec [2]] [.ofVec [0]] 5 true none ∧
    ∃ r r' r'', s.Iterates 1 [.ofVec [2], .ofVec [2]] [.ofVec [0]] 5 true none 0 r ∧
      s.problem.Gapless r.solver.candidate.xs r.solver.candidate.us ∧
      Run.factorize 1 true { r with solver := r.solver.numbered 0 } = .next r' ∧
      r'.solver.predict.d.1 = 2 ∧ r'.step = .next r'' ∧ r''.solver.search.accepted = true ∧
      r''.solver.cost < r'.solver.cost := by
  intro s
  have hdescends : s.Descends 1 ([[2], [2]].map .ofVec) ([[0]].map .ofVec) 5 true none :=
    (descends_after Problem.symmetricHessians_integrator Options.fault?_lenient _).2 _ _ 1 5 true
      none (Tensor.valid_of_mem_map _) (Tensor.valid_of_mem_map _)
  refine ⟨hdescends, ?_⟩
  have hshaped : (Problem.integrator [(2 : ℝ)] 1).Shaped [[2], [2]] [[0]] := ⟨rfl, rfl⟩
  let c : Trajectory ℝ := { xs := [[2], [2]], us := [[0]] }
  let r : Run ℝ := { solver := s.begun c true none, events := [.started] }
  have hbegun : r.solver.Ready :=
    ready_begun Options.fault?_lenient rfl [.increase] (by decide) hshaped true
  have hready : (r.solver.numbered 0).Ready := hbegun.numbered 0
  have hiterates : s.Iterates 1 ([[2], [2]].map .ofVec) ([[0]].map .ofVec) 5 true none 0 r :=
    ⟨⟨c, r, Problem.trajectory_ofVec hshaped, rfl, .first⟩, by decide⟩
  have hw : (Problem.integrator [(2 : ℝ)] 1).WellFormed := Problem.wellFormed_integrator
  have hfollows : (Problem.integrator [(2 : ℝ)] 1).Follows c.xs c.us := by
    refine ⟨rfl, ?_⟩
    rintro (_ | t) m x u hm hx hu <;> cases hm
    cases hx
    cases hu
    exact ⟨_, _, rfl, by simp [c, Vec.add]⟩
  obtain ⟨ks, primal, dual, hsol, hd⟩ := hready.exists_direction
    Problem.linearQuadratic_integrator hw Problem.strictlyConvex_integrator
  obtain rfl := hsol.linearized.unique Problem.linearizedAt_resting
  have hfactor : Run.factorize 1 true { r with solver := r.solver.numbered 0 } = .next { r with
      solver := (r.solver.numbered 0).directed (Problem.restingKnots 2) primal dual } := by
    rw [Run.factorize_succ, hd]
    rfl
  have hgain : ((r.solver.numbered 0).directed (Problem.restingKnots 2) primal dual).predict.d.1 =
      2 := (hsol.decrease_resting rfl rfl rfl rfl).trans (mul_div_cancel_left₀ 2 two_ne_zero)
  obtain ⟨hshaped', -, heval⟩ := hsol.trial Problem.linearQuadratic_integrator hw hready.shaped
  obtain ⟨code, hcode⟩ := (hsol.acceptsFullStep Problem.linearQuadratic_integrator hw hready rfl rfl
    fun _ => hfollows).verdict dual hready hsol.length_primal rfl
  obtain ⟨events, hstep⟩ := Run.step_first (r := { r with
    solver := (r.solver.numbered 0).directed (Problem.restingKnots 2) primal dual }) rfl rfl heval
    rfl hcode hshaped'
  have hacc := Search.accepted_of_verdict hcode
  obtain ⟨-, -, -, -, hless, -⟩ := hdescends.stepped 0 r _ _ hiterates rfl Problem.gapless_resting
    hfactor (by rw [hgain]; exact one_le_two) hstep hacc
  exact ⟨r, _, _, hiterates, Problem.gapless_resting, hfactor, hgain, hstep, hacc, hless⟩

end Solver

end Shooting
