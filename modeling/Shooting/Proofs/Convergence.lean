import Shooting.Proofs.Direction
import Shooting.Proofs.FullStep
import Shooting.Proofs.Iteration
import Shooting.Proofs.Measure

/-! # Convergence on linear-quadratic problems

A strictly convex linear-quadratic problem is solved in two iterations. The first one steps to the
optimum, since its direction solves the program exactly and its full step passes the test of the
search. The second one finds nothing left to do, whatever the damping has become in between.
-/

namespace Shooting

open Matrix

variable {K : Type} [ExactScalar K]

namespace Solver

/-- What an iteration asks of a solver. -/
structure Ready (s : Solver K) : Prop where
  options : s.options.InRange
  steps : ∃ a rest, s.options.alphas = 1 :: a :: rest
  search : (create s.problem s.options).search.SameSettings s.search
  knots : s.knots.running.length = s.problem.horizon
  shaped : s.problem.Shaped s.candidate.xs s.candidate.us
  xreg : 0 ≤ s.xreg.addend
  ureg : 0 ≤ s.ureg.addend
  callbacks : .table 0 ∉ s.callbacks

def damped (s : Solver K) (ks : Knots K) : System K :=
  (s.problem.program ks s.candidate.xs).damp s.problem.layout.ndx s.xreg s.ureg

def relinearized (s : Solver K) (ks : Knots K) : Solver K :=
  { s with
    knots := ks
    cost := ks.total
    system := s.damped ks }

theorem linearize_of_linearizedAt {s : Solver K} {ks : Knots K}
    (hf : s.problem.Fits s.knots s.candidate.xs s.candidate.us)
    (hl : s.problem.LinearizedAt s.candidate.xs s.candidate.us ks) :
    s.linearize = (s.relinearized ks, .ok ks.total) := by
  unfold linearize
  rw [hf.linearize_total hl]
  rfl

def directed (s : Solver K) (ks : Knots K) (primal dual : Vec K) : Solver K :=
  { s with
    knots := ks
    cost := ks.total
    system := s.damped ks
    direction := .ofSolution s.problem.layout primal dual }

/-- A solution of the damped program at the candidate. -/
structure Solution (s : Solver K) (ks : Knots K) (primal dual : Vec K) : Prop where
  linearized : s.problem.LinearizedAt s.candidate.xs s.candidate.us ks
  length_primal : primal.length = s.problem.layout.nprimal
  length_dual : dual.length = s.problem.layout.ndx
  stationary : Stationary ((s.damped ks).hessian s.problem.layout)
    ((s.problem.program ks s.candidate.xs).constraint s.problem.layout)
    ((s.problem.program ks s.candidate.xs).gradient s.problem.layout)
    ((s.problem.program ks s.candidate.xs).violation s.problem.layout)
    (Vec.toFun _ primal) (Vec.toFun _ dual)

variable {s : Solver K} {ks : Knots K} {primal dual : Vec K}

theorem exists_solution (hf : s.problem.Fits s.knots s.candidate.xs s.candidate.us)
    (hl : s.problem.LinearizedAt s.candidate.xs s.candidate.us ks)
    (hsaddle : (s.damped ks).SaddlePoint s.problem.layout
      (System.dampedEntry ks s.xreg.addend s.ureg.addend))
    (hpos : PositiveDefinite ((s.damped ks).hessian s.problem.layout)) :
    ∃ primal dual, s.Solution ks primal dual ∧
      s.computeDirection true = (s.directed ks primal dual, .ok .noError) := by
  have hlin := linearize_of_linearizedAt hf hl
  have hsolve : (s.relinearized ks).solveSystem.2 = .noError :=
    (solveSystem_snd _).mpr (hsaddle.isSome_solve?_iff.mpr hpos)
  obtain ⟨t, ht⟩ := computeDirection_of_linearize hlin hsolve
  obtain ⟨s₁, c, primal, dual, hlin', hpd, rfl⟩ := computeDirection_eq_noError ht
  obtain ⟨rfl, -⟩ := Prod.mk.inj (hlin.symm.trans hlin')
  obtain ⟨hprimal, hdual, hst⟩ := hsaddle.stationary_of_solve? hpd
  refine ⟨primal, dual, ⟨hl, hprimal, hdual, ?_⟩, ht⟩
  rwa [damped, Problem.program, System.constraint_damp, System.gradient_damp,
    System.violation_damp] at hst

section

variable (hp : s.problem.LinearQuadratic) (hw : s.problem.WellFormed)

include hp hw

theorem saddlePoint_damped (hs : s.problem.Shaped s.candidate.xs s.candidate.us)
    (hl : s.problem.LinearizedAt s.candidate.xs s.candidate.us ks) :
    (s.damped ks).SaddlePoint s.problem.layout
      (System.dampedEntry ks s.xreg.addend s.ureg.addend) :=
  System.saddlePoint_damp_assemble (hp.symmetric_slopesAt hw hs hl) s.xreg s.ureg

theorem exists_direction (hc : s.problem.StrictlyConvex) (hf : s.Fits)
    (hs : s.problem.Shaped s.candidate.xs s.candidate.us) (hx : 0 ≤ s.xreg.addend)
    (hu : 0 ≤ s.ureg.addend) :
    ∃ ks primal dual, s.Solution ks primal dual ∧
      s.computeDirection true = (s.directed ks primal dual, .ok .noError) := by
  obtain ⟨ks, c, hks⟩ := hp.linearize_ok hw hs hf
  obtain ⟨hl, -⟩ := Problem.Fits.linearize_ok hf hks
  have hpos : PositiveDefinite ((s.damped ks).hessian s.problem.layout) :=
    System.positiveDefinite_damp _ ks _ hx hu (hc _ _ ks hs hl)
  exact ⟨ks, exists_solution hf hl (saddlePoint_damped hp hw hs hl) hpos⟩

theorem Ready.exists_direction (hc : s.problem.StrictlyConvex) (hr : s.Ready) :
    ∃ ks primal dual, s.Solution ks primal dual ∧
      s.computeDirection true = (s.directed ks primal dual, .ok .noError) :=
  Solver.exists_direction hp hw hc
    ⟨hr.knots, hr.shaped.length_states, hr.shaped.length_controls⟩ hr.shaped hr.xreg hr.ureg

/-- A full step along a solution moves the point of the candidate by it, and the cost as the
quadratic model has it. -/
theorem Solution.trial (hs : s.problem.Shaped s.candidate.xs s.candidate.us)
    (h : s.Solution ks primal dual) :
    let t := (s.directed ks primal dual).trialAt 1
    s.problem.Shaped t.xs t.us ∧
      s.problem.point t.xs t.us - s.problem.point s.candidate.xs s.candidate.us =
        Vec.toFun _ primal ∧
      (s.problem.evaluate ks t.xs t.us).2 = .ok (ks.total +
        quadratic ((s.problem.program ks s.candidate.xs).hessian s.problem.layout)
          ((s.problem.program ks s.candidate.xs).gradient s.problem.layout)
          (Vec.toFun _ primal)) := by
  intro t
  have hx := Layout.lengths_split (Layout.length_take_ndx h.length_primal)
  have hu := Layout.lengths_split (Layout.length_drop_ndx h.length_primal)
  have hshaped : s.problem.Shaped t.xs t.us := Problem.shaped_trial 1 hs hx hu
  have hpoint : s.problem.point t.xs t.us - s.problem.point s.candidate.xs s.candidate.us =
      Vec.toFun _ primal := by
    have hstep := hp.point_fullStep hs hx hu
    rwa [Layout.map_value_increments h.length_primal] at hstep
  obtain ⟨ks', hl'⟩ := hp.exists_linearizedAt hw hshaped
  have hf : s.problem.Fits ks t.xs t.us :=
    ⟨h.linearized.running.length_eq, hshaped.length_states, hshaped.length_controls⟩
  have htwice : s.problem.LinearizedTwice s.candidate.xs s.candidate.us t.xs t.us ks ks' :=
    ⟨hs, h.linearized, hshaped, hl'⟩
  refine ⟨hshaped, hpoint, ?_⟩
  rw [hf.evaluate_total hl', htwice.total_eq hp hw, hpoint]

end

theorem predict_directed (hprimal : primal.length = s.problem.layout.nprimal) :
    (s.directed ks primal dual).predict.d =
      (-((s.problem.program ks s.candidate.xs).gradient s.problem.layout ⬝ᵥ Vec.toFun _ primal),
        -(Vec.toFun _ primal ⬝ᵥ (s.damped ks).hessian s.problem.layout *ᵥ Vec.toFun _ primal)) :=
  System.improvement_eq (s := s.damped ks) hprimal

/-- A full step passes the test of the search: the gradient is small, the candidate is not feasible,
or the cost decreases enough. -/
def AcceptsFullStep (s : Solver K) (ks : Knots K) (q : Fin s.problem.layout.nprimal → K) : Prop :=
  -((s.problem.program ks s.candidate.xs).gradient s.problem.layout ⬝ᵥ q) <
      s.options.gradThreshold ∨
    s.candidate.feasible = false ∨
    s.options.acceptRatio *
        (-((s.problem.program ks s.candidate.xs).gradient s.problem.layout ⬝ᵥ q) -
          Scalar.half * (q ⬝ᵥ (s.damped ks).hessian s.problem.layout *ᵥ q)) <
      -quadratic ((s.problem.program ks s.candidate.xs).hessian s.problem.layout)
        ((s.problem.program ks s.candidate.xs).gradient s.problem.layout) q

theorem Ready.search_eq (hr : s.Ready) :
    s.search.alphas = s.options.alphas ∧ s.search.gradThreshold = s.options.gradThreshold ∧
      s.search.acceptRatio = s.options.acceptRatio :=
  ⟨hr.search.alphas, hr.search.thresholds⟩

theorem AcceptsFullStep.verdict (dual : Vec K) (hr : s.Ready)
    (hprimal : primal.length = s.problem.layout.nprimal)
    (h : s.AcceptsFullStep ks (Vec.toFun _ primal)) {cost : K}
    (hcost : cost = ks.total +
      quadratic ((s.problem.program ks s.candidate.xs).hessian s.problem.layout)
        ((s.problem.program ks s.candidate.xs).gradient s.problem.layout) (Vec.toFun _ primal)) :
    ∃ code, Search.verdict
      { s.search with
        dV := ks.total - cost
        dVexp := Search.expectedDecrease (s.directed ks primal dual).predict.d 1 }
      (s.directed ks primal dual).predict.d s.candidate.feasible = some code := by
  obtain ⟨-, hthreshold, hratio⟩ := hr.search_eq
  unfold Search.verdict Search.expectedDecrease
  dsimp only
  rw [predict_directed hprimal, hthreshold, hratio]
  dsimp only
  split
  · exact ⟨_, rfl⟩
  · rename_i hgrad
    split
    · exact ⟨_, rfl⟩
    · rename_i hfeasible
      rcases h with h | h | h
      · exact absurd (ExactScalar.lt_iff.mpr h) hgrad
      · exact absurd (by rw [h]; rfl) hfeasible
      · refine ⟨_, if_pos (ExactScalar.lt_iff.mpr ?_)⟩
        rwa [hcost, sub_add_cancel_left, one_mul, mul_one, mul_neg,
          ← sub_eq_add_neg]

theorem adapted_eq (ho : s.options.InRange) (hx : 0 ≤ s.xreg.addend) (hu : 0 ≤ s.ureg.addend) :
    ∃ xreg ureg, s.adapted = { s with xreg, ureg } ∧ 0 ≤ xreg.addend ∧ 0 ≤ ureg.addend := by
  have hlow := Weight.addend_decrease ho hx
  unfold adapted
  split
  · exact ⟨_, _, rfl, hlow, hlow⟩
  · exact ⟨_, _, rfl, hx, hu⟩

end Solver

def Problem.residual (p : Problem K) (ks : Knots K) (xs : List (Vec K)) (l : Fin p.layout.ndx → K) :
    K :=
  let r := (p.program ks xs).gradient p.layout + ((p.program ks xs).constraint p.layout)ᵀ *ᵥ l
  r ⬝ᵥ r + (p.program ks xs).violation p.layout ⬝ᵥ (p.program ks xs).violation p.layout

theorem Problem.Stationary.residual_eq_zero {p : Problem K} {ks : Knots K} {xs : List (Vec K)}
    {l : Fin p.layout.ndx → K} (h : p.Stationary ks xs l) : p.residual ks xs l = 0 := by
  have hg := h.gradient
  have hc := h.constraint
  rw [mulVec_zero, zero_add] at hg
  rw [mulVec_zero, eq_comm, neg_eq_zero] at hc
  rw [residual, hg, hc, add_neg_cancel, dotProduct_zero, dotProduct_zero, add_zero]

theorem Problem.LinearQuadratic.rows {p : Problem K} {xs us : List (Vec K)} {ks : Knots K}
    (hp : p.LinearQuadratic) (hw : p.WellFormed) (hs : p.Shaped xs us)
    (hl : p.LinearizedAt xs us ks) : ks.Rows p.layout := by
  have hlen : ks.running.length = p.horizon := hl.running.length_eq
  have hrow {m n : ℕ} (M : Matrix (Fin m) (Fin n) K) : ∀ row ∈ Mat.ofMatrix M, row.length = n := by
    intro row h
    obtain ⟨i, rfl⟩ := List.mem_ofFn.mp h
    exact List.length_ofFn
  have hslopes {t : ℕ} {k : Knot K} (hk : ks.running[t]? = some k) :
      (∀ row ∈ k.slopes.fx, row.length = p.layout.ndxAt t) ∧
        ∀ row ∈ k.slopes.fu, row.length = p.layout.nuAt t := by
    obtain ⟨f, hf⟩ := hp.affine.affineAt hw (hlen ▸ (List.getElem?_eq_some_iff.mp hk).1)
    obtain ⟨-, hx, hu⟩ := hf _ _ _ hs hl
    rw [System.slopesAt_running hk] at hx hu
    rw [hx, hu]
    exact ⟨hrow f.A, hrow f.B⟩
  refine ⟨?_, fun t k hk => (hslopes hk).1, fun t k hk => (hslopes hk).2⟩
  rw [hlen]
  exact (Layout.length_nus p).symm

namespace Solver

variable {s t : Solver K} {ks : Knots K} {primal dual : Vec K}

/-- What is measured with the derivatives and the system of a candidate: its residual, under the
multipliers that are held by then. -/
theorem stop_damped (hl : s.problem.LinearizedAt s.candidate.xs s.candidate.us ks)
    (hrows : ks.Rows s.problem.layout)
    (hlen : t.direction.lambdas.map List.length = s.problem.layout.ndxs)
    (hprob : t.problem = s.problem) (hsys : t.system = s.damped ks)
    (hslopes : ks.SameSlopes t.knots) :
    t.measureStop.stop =
      s.problem.residual ks s.candidate.xs (Vec.toFun _ t.direction.lambdas.flatten) := by
  have hlay : t.layout = s.problem.layout := congrArg Layout.ofProblem hprob
  have halong : t.LinearizedAlong s.candidate.xs s.candidate.us := by
    unfold LinearizedAlong layout
    rw [hprob, hsys]
    exact ⟨ks, hl, hslopes, s.xreg, s.ureg, rfl⟩
  have hstop := halong.stop_eq (by rw [hlay]; exact hrows.congr hslopes.running) (hlay ▸ hlen)
  dsimp only at hstop
  rw [hstop, hsys, hlay, damped, Problem.program, System.gradient_damp, System.constraint_damp,
    System.violation_damp]
  rfl

theorem stop_directed (hl : s.problem.LinearizedAt s.candidate.xs s.candidate.us ks)
    (hrows : ks.Rows s.problem.layout) (hdual : dual.length = s.problem.layout.ndx)
    (hprob : t.problem = s.problem) (hsys : t.system = s.damped ks)
    (hdir : t.direction = .ofSolution s.problem.layout primal dual)
    (hslopes : ks.SameSlopes t.knots) :
    t.measureStop.stop = s.problem.residual ks s.candidate.xs (Vec.toFun _ dual) := by
  have hflat : t.direction.lambdas.flatten = dual := by
    rw [hdir]
    exact Layout.flatten_split hdual
  have hlen : t.direction.lambdas.map List.length = s.problem.layout.ndxs := by
    rw [hdir]
    exact Layout.lengths_split hdual
  rw [stop_damped hl hrows hlen hprob hsys hslopes, hflat]

/-- A solver that has taken a full step, by `q` and with the multipliers `l`. -/
structure Advanced (s t : Solver K) (ks : Knots K) (q : Fin s.problem.layout.nprimal → K)
    (l : Fin s.problem.layout.ndx → K) : Prop where
  problem : t.problem = s.problem
  options : t.options = s.options
  stats : t.stats = s.stats
  ready : t.Ready
  point : s.problem.point t.candidate.xs t.candidate.us -
    s.problem.point s.candidate.xs s.candidate.us = q
  feasible : t.candidate.feasible = true
  wasFeasible : t.wasFeasible = s.candidate.feasible
  stop : t.stop = s.problem.residual ks s.candidate.xs l

end Solver

/-- An iteration finds a solution of the damped program. If the full step along it is accepted, the
solver moves by it. -/
theorem Run.iterate_ready {r : Run K} {s : Solver K} {iter : ℕ} (hr : r.solver.numbered iter = s)
    (hp : s.problem.LinearQuadratic) (hw : s.problem.WellFormed) (hc : s.problem.StrictlyConvex)
    (hs : s.Ready) (fuel : ℕ) :
    ∃ ks primal dual, s.Solution ks primal dual ∧
      (s.AcceptsFullStep ks (Vec.toFun _ primal) → ∃ t events,
        s.Advanced t ks (Vec.toFun _ primal) (Vec.toFun _ dual) ∧
        r.iterate (fuel + 1) iter =
          if t.wasFeasible && Scalar.lt t.stop t.options.stopThreshold
          then finished { solver := t, events } .success
          else .next { solver := t, events }) := by
  obtain ⟨ks, primal, dual, hsol, hd⟩ := hs.exists_direction hp hw hc
  refine ⟨ks, primal, dual, hsol, ?_⟩
  intro hacc
  obtain ⟨hshaped, hpoint, heval⟩ := hsol.trial hp hw hs.shaped
  obtain ⟨code, hcode⟩ := hacc.verdict dual hs hsol.length_primal rfl
  obtain ⟨a, rest, ha⟩ := hs.steps
  have hd' : (r.solver.numbered iter).computeDirection true =
      (s.directed ks primal dual, .ok .noError) := hr.symm ▸ hd
  obtain ⟨events, hiter⟩ := @iterate_first _ _ _ _ _ _ r fuel _
    (s.directed ks primal dual).predict _ hd' rfl (hs.search_eq.1.trans ha) heval rfl hcode hshaped
    (hs.options.last_ne ha) hs.callbacks
  have hslopes := s.problem.sameSlopes_evaluate ks
    ((s.directed ks primal dual).trialAt 1).xs ((s.directed ks primal dual).trialAt 1).us
  have hknots := s.problem.length_evaluate ks
    ((s.directed ks primal dual).trialAt 1).xs ((s.directed ks primal dual).trialAt 1).us
  obtain ⟨xreg, ureg, hadapt, hx, hu⟩ := Solver.adapted_eq
    (s := (s.directed ks primal dual).predict.moved 1 _ code) hs.options hs.xreg hs.ureg
  rw [hadapt] at hiter
  refine ⟨_, events, ?_, hiter⟩
  exact {
    problem := rfl
    options := rfl
    stats := rfl
    ready := ⟨hs.options, hs.steps, hs.search.trans ⟨_, _, _, _, _, _, rfl⟩,
      hknots.trans hsol.linearized.running.length_eq, hshaped, hx, hu, hs.callbacks⟩
    point := hpoint
    feasible := rfl
    wasFeasible := rfl
    stop := Solver.stop_directed hsol.linearized (hp.rows hw hs.shaped hsol.linearized)
      hsol.length_dual rfl rfl rfl hslopes }

namespace Solver

variable {s : Solver K} {ks : Knots K} {primal dual : Vec K}

theorem Ready.numbered (h : s.Ready) (iter : ℕ) : (s.numbered iter).Ready :=
  ⟨h.options, h.steps, h.search, h.knots, h.shaped, h.xreg, h.ureg, h.callbacks⟩

variable (hp : s.problem.LinearQuadratic) (hw : s.problem.WellFormed)

include hp hw

/-- Without damping the full step is accepted: at a feasible candidate the cost decreases exactly as
predicted, and at any other there is nothing to pass. -/
theorem Solution.acceptsFullStep (h : s.Solution ks primal dual) (hs : s.Ready)
    (hx : s.xreg.addend = 0) (hu : s.ureg.addend = 0)
    (hf : s.candidate.feasible = true → s.problem.Follows s.candidate.xs s.candidate.us) :
    s.AcceptsFullStep ks (Vec.toFun _ primal) := by
  unfold AcceptsFullStep
  have hzero :=
    System.hessian_damp_zero s.problem.layout ks (s.problem.gaps ks s.candidate.xs) hx hu
  have hst := h.stationary
  rw [damped, Problem.program, hzero] at hst ⊢
  cases hfeasible : s.candidate.feasible with
  | false => exact .inr (.inl rfl)
  | true =>
    have hviol := (hp.violation_eq_zero_iff_follows hw hs.shaped h.linearized).mpr (hf hfeasible)
    have hgrad := hst.gradient_dotProduct hviol
    rw [ExactScalar.half_eq, quadratic, hgrad, neg_neg]
    generalize Vec.toFun _ primal ⬝ᵥ _ *ᵥ Vec.toFun _ primal = e at *
    rcases lt_or_ge e s.options.gradThreshold with hlt | hge
    · exact .inl hlt
    · have hpos : 0 < e := hs.options.gradThreshold.trans_le hge
      have hhalf : e - 1 / 2 * e = e / 2 := by ring
      have hdecrease : -(1 / 2 * e + -e) = e / 2 := by ring
      rw [hhalf, hdecrease]
      exact .inr (.inr (mul_lt_of_lt_one_left (half_pos hpos) hs.options.acceptRatio_lt))

theorem Solution.eq_zero (h : s.Solution ks primal dual) (hs : s.Ready)
    (hc : s.problem.StrictlyConvex) {l : Fin s.problem.layout.ndx → K}
    (hst : s.problem.Stationary ks s.candidate.xs l) :
    Vec.toFun s.problem.layout.nprimal primal = 0 ∧ Vec.toFun s.problem.layout.ndx dual = l := by
  have hsaddle := saddlePoint_damped hp hw hs.shaped h.linearized
  have hpos : PositiveDefinite ((s.damped ks).hessian s.problem.layout) :=
    System.positiveDefinite_damp _ ks _ hs.xreg hs.ureg (hc _ _ ks hs.shaped h.linearized)
  have hrows := hsaddle.independent
  rw [damped, Problem.program, System.constraint_damp] at hrows
  have hst' : Shooting.Stationary ((s.damped ks).hessian s.problem.layout)
      ((s.problem.program ks s.candidate.xs).constraint s.problem.layout)
      ((s.problem.program ks s.candidate.xs).gradient s.problem.layout)
      ((s.problem.program ks s.candidate.xs).violation s.problem.layout) 0 l := by
    refine ⟨?_, hst.constraint⟩
    rw [mulVec_zero, ← hst.gradient, mulVec_zero]
  exact h.stationary.unique hst' hsaddle.hessian_transpose hpos hrows

end Solver

namespace Run

variable {r : Run K} {p : Problem K} {s : Solver K} {iter : ℕ}
  (hp : p.LinearQuadratic) (hw : p.WellFormed) (hc : p.StrictlyConvex)

include hp hw hc

theorem iterate_stationary (hr : r.solver.numbered iter = s) (hprob : s.problem = p) (hs : s.Ready)
    (hfeasible : s.candidate.feasible = true) {ks : Knots K} {l : Fin p.layout.ndx → K}
    (hl : p.LinearizedAt s.candidate.xs s.candidate.us ks) (hst : p.Stationary ks s.candidate.xs l)
    (fuel : ℕ) :
    ∃ t events, t.candidate.xs = s.candidate.xs ∧ t.candidate.us = s.candidate.us ∧
      t.stats = s.stats ∧
      r.iterate (fuel + 1) iter = finished { solver := t, events } .success := by
  subst hprob
  obtain ⟨ks', primal, dual, hsol, hiter⟩ := iterate_ready hr hp hw hc hs fuel
  obtain rfl := hsol.linearized.unique hl
  obtain ⟨hzero, rfl⟩ := hsol.eq_zero hp hw hs hc hst
  rw [hzero] at hiter
  have hacc : s.AcceptsFullStep ks' 0 := by
    left
    rw [dotProduct_zero, neg_zero]
    exact hs.options.gradThreshold
  obtain ⟨t, events, ht, hiter⟩ := hiter hacc
  have hshaped : s.problem.Shaped t.candidate.xs t.candidate.us := ht.problem ▸ ht.ready.shaped
  obtain ⟨hxs, hus⟩ := hp.point_injective hshaped hs.shaped (sub_eq_zero.mp ht.point)
  have hstop : (t.wasFeasible && Scalar.lt t.stop t.options.stopThreshold) = true := by
    rw [ht.wasFeasible, hfeasible, ht.stop, hst.residual_eq_zero, ht.options]
    exact ExactScalar.lt_iff.mpr hs.options.stopThreshold
  refine ⟨t, events, hxs, hus, ht.stats, ?_⟩
  rw [hiter, if_pos hstop]

end Run

structure Run.Solved (p : Problem K) (n : ℕ) (result : Run K × Ending) : Prop where
  ending : result.2 = .returned true
  status : result.1.solver.stats.status = .success
  iterations : result.1.solver.stats.iterations ≤ n
  optimum : p.UniqueOptimum result.1.solver.candidate.xs result.1.solver.candidate.us

namespace Run

variable {r : Run K} {p : Problem K}

theorem solved_finish {n : ℕ} (h : p.UniqueOptimum r.solver.candidate.xs r.solver.candidate.us)
    (hn : r.solver.stats.iterations ≤ n) : Solved p n (r.finish .success) := ⟨rfl, rfl, hn, h⟩

theorem solved_loop (hp : p.LinearQuadratic) (hw : p.WellFormed) (hc : p.StrictlyConvex)
    (hprob : r.solver.problem = p) (hs : r.solver.Ready) (hx : r.solver.xreg.addend = 0)
    (hu : r.solver.ureg.addend = 0)
    (hf : r.solver.candidate.feasible = true →
      p.Follows r.solver.candidate.xs r.solver.candidate.us) (fuel left : ℕ) :
    Solved p 2 (r.loop (fuel + 1) (left + 2) 0) := by
  subst hprob
  have hs₀ := hs.numbered 0
  obtain ⟨ks, primal, dual, hsol, hiter⟩ := iterate_ready rfl hp hw hc hs₀ fuel
  obtain ⟨t, events, ht, hiter⟩ := hiter (hsol.acceptsFullStep hp hw hs₀ hx hu hf)
  have hshaped : r.solver.problem.Shaped t.candidate.xs t.candidate.us :=
    ht.problem ▸ ht.ready.shaped
  obtain ⟨ks', hl'⟩ := hp.exists_linearizedAt hw hshaped
  have htwice : r.solver.problem.LinearizedTwice r.solver.candidate.xs r.solver.candidate.us
      t.candidate.xs t.candidate.us ks ks' := ⟨hs.shaped, hsol.linearized, hshaped, hl'⟩
  have hst : r.solver.problem.Stationary ks' t.candidate.xs (Vec.toFun _ dual) := by
    refine hp.stationary_step hw htwice ?_ ht.point
    have hzero := System.hessian_damp_zero r.solver.problem.layout ks
      (r.solver.problem.gaps ks r.solver.candidate.xs) hx hu
    exact hzero ▸ hsol.stationary
  have hopt := hp.uniqueOptimum hw hc hshaped hl' hst
  -- The residual is measured where the first iteration began, so that it may take a second one,
  -- which stays where it is, to pass the test.
  have hcount : t.stats.iterations = 1 := by
    rw [ht.stats]
    rfl
  split at hiter
  · rw [loop_finished hiter]
    exact solved_finish hopt (by rw [hcount]; decide)
  · obtain ⟨u, events', hxs, hus, hstats, hiter'⟩ :=
      @iterate_stationary _ _ { solver := t, events } _ (t.numbered 1) 1 hp hw hc rfl ht.problem
        (ht.ready.numbered 1) ht.feasible _ _ hl' hst fuel
    rw [loop_next hiter, loop_finished hiter']
    refine solved_finish ?_ ?_
    · rw [hxs, hus]
      exact hopt
    · rw [hstats]
      exact le_rfl

theorem start_linearizedAt {ks : Knots K}
    (hf : r.solver.problem.Fits r.solver.knots r.solver.candidate.xs r.solver.candidate.us)
    (hl : r.solver.problem.LinearizedAt r.solver.candidate.xs r.solver.candidate.us ks) :
    ∃ events, r.start = ({ solver := r.solver, events }, none) ∨
      r.start = ({ solver := r.solver.evaluated, events }, none) := by
  rw [start_eq, hf.evaluate_total hl]
  split
  · exact ⟨_, .inr rfl⟩
  · exact ⟨_, .inl rfl⟩

theorem start_ready (hp : r.solver.problem.LinearQuadratic) (hw : r.solver.problem.WellFormed)
    (hs : r.solver.Ready) :
    ∃ events, r.start = ({ solver := r.solver, events }, none) ∨
      r.start = ({ solver := r.solver.evaluated, events }, none) := by
  obtain ⟨ks, hl⟩ := hp.exists_linearizedAt hw hs.shaped
  exact start_linearizedAt ⟨hs.knots, hs.shaped.length_states, hs.shaped.length_controls⟩ hl

end Run

namespace Solver

theorem Ready.evaluated {s : Solver K} (h : s.Ready) : s.evaluated.Ready := by
  have hknots := Problem.length_evaluate s.problem s.knots s.candidate.xs s.candidate.us
  exact ⟨h.options, h.steps, h.search, hknots.trans h.knots, h.shaped, h.xreg, h.ureg, h.callbacks⟩

theorem ready_begun {p : Problem K} {o : Options K} (ho : o.fault? = none) {a : K} {rest : List K}
    (ha : o.alphas = 1 :: a :: rest) (past : List (Operation K)) {callbacks : List Callback}
    (hcallbacks : .table 0 ∉ callbacks) {c : Trajectory K} (hc : p.Shaped c.xs c.us)
    (feasible : Bool) :
    ({ (create p o).after past with callbacks }.begun c feasible none : Solver K).Ready := by
  have hprob := problem_after (p := p) (o := o) past
  have hopt := options_after (p := p) (o := o) past
  have hsearch := search_after (p := p) (o := o) past
  have hfits := fits_after (p := p) (o := o) past
  generalize (create p o).after past = s at *
  subst hprob hopt
  constructor
  · exact Options.fault?_eq_none_iff.mp ho
  · exact ⟨a, rest, ha⟩
  · exact hsearch
  · exact hfits.knots
  · exact hc
  · exact le_rfl
  · exact le_rfl
  · exact hcallbacks

end Solver

/-- Two iterations solve a strictly convex linear-quadratic problem, from any trajectory that is not
held to be feasible or is, and whatever the solver has done before. -/
theorem solve_linearQuadratic {x0 : Tensor K} (hx0 : x0.Valid) {running : List (Model K)}
    {terminal : Model K} {p : Problem K} (hbuild : Problem.build x0 running terminal = .ok p)
    (hp : p.LinearQuadratic) (hc : p.StrictlyConvex) {o : Options K} (ho : o.fault? = none)
    {a : K} {rest : List K} (ha : o.alphas = 1 :: a :: rest) (past : List (Operation K))
    {callbacks : List Callback} (hcallbacks : .table 0 ∉ callbacks) {xs us : List (Tensor K)}
    (hxs : ∀ x ∈ xs, x.Valid) (hus : ∀ u ∈ us, u.Valid) {c : Trajectory K}
    (htraj : p.trajectory xs us = .ok c) (feasible : Bool)
    (hf : feasible = true → p.Follows c.xs c.us) {maxiter : ℤ} (hmax : 2 ≤ maxiter) (fuel : ℕ) :
    let s : Solver K := { (Solver.create p o).after past with callbacks }
    Run.Solved p 2 (s.solve (fuel + 1) xs us maxiter feasible none) := by
  intro s
  have hw := Problem.wellFormed_of_build hx0 hbuild
  have hprob : s.problem = p := Solver.problem_after past
  have hready : (s.begun c feasible none).Ready :=
    Solver.ready_begun ho ha past hcallbacks (Problem.shaped_trajectory htraj hxs hus) feasible
  obtain ⟨left, hleft⟩ : ∃ left, maxiter.toNat = left + 2 := ⟨maxiter.toNat - 2, by omega⟩
  obtain ⟨events, hstart⟩ := Run.start_ready
    (r := { solver := s.begun c feasible none, events := [] }) (hprob.symm ▸ hp) (hprob.symm ▸ hw)
    hready
  rw [Solver.solve_eq (hprob.symm ▸ htraj), hleft]
  rcases hstart with hstart | hstart
  · rw [hstart]
    exact Run.solved_loop hp hw hc hprob hready rfl rfl hf fuel left
  · rw [hstart]
    exact Run.solved_loop hp hw hc hprob hready.evaluated rfl rfl hf fuel left

theorem solve_linearQuadratic_integrator :
    let p : Problem ℝ := .integrator [1] 1
    let past : List (Operation ℝ) := [.increase, .computeDirection true]
    let s : Solver ℝ := { (Solver.create p .lenient).after past with callbacks := [.table 10] }
    p.Follows [[1], [1]] [[0]] ∧
      Run.Solved p 2 (s.solve 1 [.ofVec [1], .ofVec [1]] [.ofVec [0]] 100 true none) := by
  intro p past s
  have hf : p.Follows [[1], [1]] [[0]] := by
    constructor
    · rfl
    · intro t m x u hm hx hu
      obtain rfl : t = 0 := by
        have := (List.getElem?_eq_some_iff.mp hu).1
        simpa using this
      cases hm
      cases hx
      cases hu
      refine ⟨_, _, rfl, ?_⟩
      simp [Vec.add]
  have hbuild : Problem.build (.ofVec [1]) [.integrator 1] (.resting 1) = .ok p := rfl
  have htraj := @Problem.trajectory_ofVec ℝ _ p [[1], [1]] [[0]] ⟨rfl, rfl⟩
  have hvalid (vs : List (Vec ℝ)) : ∀ a ∈ vs.map Tensor.ofVec, a.Valid := by
    intro a ha
    obtain ⟨v, -, rfl⟩ := List.mem_map.mp ha
    exact Tensor.valid_ofVec v
  exact ⟨hf, solve_linearQuadratic (Tensor.valid_ofVec _) hbuild Problem.linearQuadratic_integrator
    Problem.strictlyConvex_integrator Options.fault?_lenient rfl _ (by decide) (hvalid _) (hvalid _)
    htraj true (fun _ => hf) (by decide) 0⟩

end Shooting
