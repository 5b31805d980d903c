import Shooting.Proofs.Convergence
import Shooting.Proofs.Escalation
import Shooting.Proofs.Gaps

/-! # Stationary warm starts

At a trajectory without gaps whose gradient some multipliers cancel, no increment is needed. Under
every damping the direction is then zero, with these multipliers, and a step along it stays where it
is. A solve from there succeeds after one iteration, if only its attempts reach a system that can be
factored.
-/

namespace Shooting

open Matrix

variable {K : Type} [ExactScalar K]

theorem Vec.scale_zeros (a : K) (n : ℕ) : Vec.scale a (Vec.zeros n) = Vec.zeros n := by
  simp [scale, zeros]

theorem Vec.add_zeros {n : ℕ} {v : Vec K} (hv : v.length = n) : Vec.add v (Vec.zeros n) = v := by
  have hlen : v.length = (Vec.zeros n : Vec K).length := by simpa using hv
  refine (Vec.toFun_eq_iff (n := n) ?_ hv).mp ?_
  · rw [length_add, length_zeros, hv, min_self]
  · rw [Vec.toFun_add hlen, Vec.toFun_zeros, add_zero]

theorem Layout.split_zeros (dims : List ℕ) :
    split dims (Vec.zeros (total dims) : Vec K) = dims.map Vec.zeros := by
  induction dims with
  | nil => rfl
  | cons d dims ih =>
    have htake : (Vec.zeros (total (d :: dims)) : Vec K).take d = Vec.zeros d := by
      simp [Vec.zeros, total]
    have hdrop : (Vec.zeros (total (d :: dims)) : Vec K).drop d = Vec.zeros (total dims) := by
      simp [Vec.zeros, total]
    rw [split, htake, hdrop, ih, List.map_cons]

theorem Manifold.integrate_zeros (hsin : Scalar.sin (0 : K) = 0) (hcos : Scalar.cos (0 : K) = 1)
    {m : Manifold} {x : Vec K} (hx : x.length = m.nx) : m.integrate x (Vec.zeros m.ndx) = x := by
  cases m with
  | euclidean n => exact Vec.add_zeros hx
  | rotation nv =>
    have hzeros : (Vec.zeros (rotation nv).ndx : Vec K) = 0 :: Vec.zeros nv := by
      rw [ndx, add_comm]
      rfl
    rcases x with _ | ⟨a, _ | ⟨b, x⟩⟩
    · simp only [nx, List.length_nil] at hx
      omega
    · simp only [nx, List.length_cons, List.length_nil] at hx
      omega
    · have hlen : x.length = nv := by
        simp only [nx, List.length_cons] at hx
        omega
      rw [hzeros]
      change (a * Scalar.cos 0 - b * Scalar.sin 0) :: (b * Scalar.cos 0 + a * Scalar.sin 0) ::
        Vec.add x (Vec.zeros nv) = a :: b :: x
      rw [hsin, hcos, Vec.add_zeros hlen, mul_one, mul_one, mul_zero, mul_zero, sub_zero, add_zero]

theorem moveStates_zeros (hsin : Scalar.sin (0 : K) = 0) (hcos : Scalar.cos (0 : K) = 1) (a : K)
    {ms : List (Model K)} {xs : List (Vec K)} (h : xs.map List.length = ms.map (·.state.nx)) :
    ((ms.zip (xs.zip ((ms.map (·.state.ndx)).map Vec.zeros))).map fun (m, x, dx) =>
      m.state.integrate x (Vec.scale a dx)) = xs := by
  induction ms generalizing xs with
  | nil =>
    obtain rfl : xs = [] := by simpa using h
    rfl
  | cons m ms ih =>
    cases xs with
    | nil => rfl
    | cons x xs =>
      obtain ⟨hx, hxs⟩ := List.cons.inj h
      change m.state.integrate x (Vec.scale a (Vec.zeros m.state.ndx)) :: _ = _
      rw [Vec.scale_zeros, Manifold.integrate_zeros hsin hcos hx]
      exact congrArg (x :: ·) (ih hxs)

theorem moveControls_zeros (a : K) {ns : List ℕ} {us : List (Vec K)}
    (h : us.map List.length = ns) : moveControls a us (ns.map Vec.zeros) = us := by
  induction ns generalizing us with
  | nil =>
    obtain rfl : us = [] := by simpa using h
    rfl
  | cons n ns ih =>
    cases us with
    | nil => rfl
    | cons u us =>
      obtain ⟨hu, hus⟩ := List.cons.inj h
      change Vec.add u (Vec.scale a (Vec.zeros n)) :: _ = _
      rw [Vec.scale_zeros, Vec.add_zeros hu]
      exact congrArg (u :: ·) (ih hus)

/-- Along a direction without increments every trial is the candidate itself. -/
theorem Solver.trialAt_zeros {s : Solver K} {dual : Vec K}
    (hsin : Scalar.sin (0 : K) = 0) (hcos : Scalar.cos (0 : K) = 1)
    (hs : s.problem.Shaped s.candidate.xs s.candidate.us)
    (hd : s.direction = .ofSolution s.problem.layout (Vec.zeros s.problem.layout.nprimal) dual)
    (a : K) : s.trialAt a = s.candidate.toTrajectory := by
  have htake : (Vec.zeros s.problem.layout.nprimal : Vec K).take s.problem.layout.ndx =
      Vec.zeros (total s.problem.layout.ndxs) := by
    simp [Vec.zeros, Layout.nprimal, Layout.ndx]
  have hdrop : (Vec.zeros s.problem.layout.nprimal : Vec K).drop s.problem.layout.ndx =
      Vec.zeros (total s.problem.layout.nus) := by
    simp [Vec.zeros, Layout.nprimal, Layout.nu]
  have hxs := moveStates_zeros hsin hcos a hs.states
  have hus := moveControls_zeros a hs.controls
  rw [trialAt, hd, Direction.ofSolution, htake, hdrop, Layout.split_zeros, Layout.split_zeros]
  exact congrArg₂ Trajectory.mk hxs hus

theorem System.lower_damp (l : Layout) (ks : Knots K) (gaps : List (Vec K)) (a : K) :
    Mat.lower l.nprimal ((assemble l ks gaps).damp l.ndx (some a) (some a)).matrix =
      Mat.lower l.nprimal (assemble l ks gaps).matrix + a • 1 := by
  have hentry (i j : Fin l.nprimal) :
      ((assemble l ks gaps).damp l.ndx (some a) (some a)).matrix.entry i j =
        (assemble l ks gaps).matrix.entry i j + (a • (1 : Matrix _ _ K)) i j :=
    congrFun (congrFun (hessian_damp l ks gaps rfl rfl) i) j
  have hsymm (i j : Fin l.nprimal) :
      (a • (1 : Matrix (Fin l.nprimal) (Fin l.nprimal) K)) j i =
        (a • (1 : Matrix (Fin l.nprimal) (Fin l.nprimal) K)) i j := by
    simp only [Matrix.smul_apply, one_apply, eq_comm]
  ext i j
  rw [Matrix.add_apply, Mat.lower, Mat.lower, of_apply, of_apply]
  split
  · exact hentry i j
  · rw [hentry, hsymm]

/-- The undamped Hessian along a trajectory as a factorization reads it, by its lower triangle. -/
def Problem.factoredHessian (p : Problem K) (ks : Knots K) (xs : List (Vec K)) :
    Matrix (Fin p.layout.nprimal) (Fin p.layout.nprimal) K :=
  Mat.lower p.layout.nprimal (p.program ks xs).matrix

theorem Problem.factoredHessian_eq {p : Problem K} {ks : Knots K} {xs us : List (Vec K)}
    (hp : p.SymmetricHessians) (hl : p.LinearizedAt xs us ks) :
    p.factoredHessian ks xs = (p.program ks xs).hessian p.layout :=
  System.lower_eq_hessian (matrix_program p ks xs) fun _ hσ _ hτ =>
    System.matrixEntry_symm (System.symmetric_slopesAt hp hl) hσ hτ

/-- A trajectory without gaps, and multipliers that cancel the gradient there. -/
structure Problem.Critical (p : Problem K) (ks : Knots K) (xs us : List (Vec K))
    (l : Fin p.layout.ndx → K) : Prop where
  linearized : p.LinearizedAt xs us ks
  gapless : p.Gapless xs us
  gradient : (p.program ks xs).gradient p.layout + ((p.program ks xs).constraint p.layout)ᵀ *ᵥ l = 0

theorem Problem.Critical.stationary {p : Problem K} {ks : Knots K} {xs us : List (Vec K)}
    {l : Fin p.layout.ndx → K} (h : p.Critical ks xs us l) (hs : p.Shaped xs us)
    (H : Matrix (Fin p.layout.nprimal) (Fin p.layout.nprimal) K) :
    Shooting.Stationary H ((p.program ks xs).constraint p.layout)
      ((p.program ks xs).gradient p.layout) ((p.program ks xs).violation p.layout) 0 l where
  gradient := by
    rw [mulVec_zero, zero_add]
    exact eq_neg_of_add_eq_zero_right h.gradient
  constraint := by
    rw [h.gapless.violation_eq_zero h.linearized
      ⟨h.linearized.running.length_eq, hs.length_states, hs.length_controls⟩, mulVec_zero, neg_zero]

theorem Problem.matrix_damp_program (p : Problem K) (ks : Knots K) (xs : List (Vec K)) (w : K) :
    ((p.program ks xs).damp p.layout.ndx (some w) (some w)).matrix =
      Mat.grid p.layout.slots p.layout.slots (System.dampedEntry ks w w) :=
  System.matrix_damp_assemble _ _

theorem Problem.independentRows_program (p : Problem K) (ks : Knots K) (xs : List (Vec K)) :
    IndependentRows ((p.program ks xs).constraint p.layout) := by
  have hrows := System.independentRows_constraint (p.matrix_damp_program ks xs 0)
  rwa [program, System.constraint_damp] at hrows

namespace Problem.Critical

variable {p : Problem K} {ks : Knots K} {xs us : List (Vec K)} {l l' : Fin p.layout.ndx → K}

theorem unique (h : p.Critical ks xs us l) (h' : p.Critical ks xs us l') : l = l' := by
  refine sub_eq_zero.mp (p.independentRows_program ks xs _ ?_)
  rw [mulVec_sub, sub_eq_zero]
  exact add_left_cancel (h.gradient.trans h'.gradient.symm)

/-- Whatever the weight, what is solved for is no increment at all, with these multipliers. -/
theorem eq_zeros_of_solve? (h : p.Critical ks xs us l) (hs : p.Shaped xs us) {w : K}
    (hw : PositiveDefinite (p.factoredHessian ks xs + w • 1)) {primal dual : Vec K}
    (hsolve : RangeSpace.solve? ((p.program ks xs).damp p.layout.ndx (some w) (some w)).matrix
      ((p.program ks xs).damp p.layout.ndx (some w) (some w)).residual p.layout.nprimal =
        some (primal, dual)) :
    primal = Vec.zeros p.layout.nprimal ∧ dual = List.ofFn l := by
  have hres : ((p.program ks xs).damp p.layout.ndx (some w) (some w)).residual.length =
      p.layout.nprimal + p.layout.ndx := by
    rw [program, System.residual_damp_assemble]
    simp
  obtain ⟨hprimal, hdual, hst⟩ := System.stationary_lower_of_solve?
    (p.matrix_damp_program ks xs w) hres hsolve
  rw [program, System.constraint_damp, System.gradient_damp, System.violation_damp] at hst
  rw [factoredHessian, program, ← System.lower_damp] at hw
  obtain ⟨hzero, hl⟩ := hst.unique (h.stationary hs _) (Mat.lower_transpose _ _) hw
    (p.independentRows_program ks xs)
  constructor
  · rw [← Vec.toFun_zeros p.layout.nprimal p.layout.nprimal] at hzero
    exact (Vec.toFun_eq_iff hprimal (Vec.length_zeros _)).mp hzero
  · rw [← hl, Vec.ofFn_toFun hdual]

end Problem.Critical

namespace Solver

/-- What an iteration asks of a solver that stands at a trajectory held to be feasible, under the
weight `x` for all increments. -/
structure Poised (s : Solver K) (x : K) : Prop where
  options : s.options.InRange
  search : (create s.problem s.options).search.SameSettings s.search
  knots : s.knots.running.length = s.problem.horizon
  shaped : s.problem.Shaped s.candidate.xs s.candidate.us
  feasible : s.candidate.feasible = true
  xreg : s.xreg = some x
  ureg : s.ureg = some x
  callbacks : .table 0 ∉ s.callbacks

def under (s : Solver K) (w : K) : Solver K := { s with xreg := some w, ureg := some w }

variable {s : Solver K} {ks : Knots K} {x : K}

theorem Poised.fits (h : s.Poised x) :
    s.problem.Fits s.knots s.candidate.xs s.candidate.us :=
  ⟨h.knots, h.shaped.length_states, h.shaped.length_controls⟩

theorem factorize_under_iff (s : Solver K) (ks : Knots K) (w : K) :
    ((s.under w).relinearized ks).factorize.2 = .noError ↔
      PositiveDefinite (s.problem.factoredHessian ks s.candidate.xs + w • 1) := by
  have hm := s.problem.matrix_damp_program ks s.candidate.xs w
  rw [Problem.factoredHessian, Problem.program, ← System.lower_damp]
  exact (factorize_snd _).trans
    (System.isSome_solve?_iff_lower hm (System.independentRows_constraint hm))

theorem Poised.factorize_under (h : s.Poised x) {l : Fin s.problem.layout.ndx → K}
    (hc : s.problem.Critical ks s.candidate.xs s.candidate.us l) {w : K}
    (hw : PositiveDefinite (s.problem.factoredHessian ks s.candidate.xs + w • 1)) :
    ((s.under w).relinearized ks).factorize =
      ((s.under w).directed ks (Vec.zeros s.problem.layout.nprimal) (List.ofFn l), .noError) := by
  have hsnd := (s.factorize_under_iff ks w).mpr hw
  have hpair : ((s.under w).relinearized ks).factorize =
      (((s.under w).relinearized ks).factorize.1, .noError) := Prod.ext rfl hsnd
  obtain ⟨primal, dual, hsolve, hfactor⟩ := factorize_eq_noError hpair
  obtain ⟨rfl, rfl⟩ := hc.eq_zeros_of_solve? h.shaped hw hsolve
  rw [hpair, hfactor]
  rfl

end Solver

/-- The attempts at a critical trajectory end with the direction zero, if only one of their weights
makes the factored Hessian positive definite. -/
theorem Run.factorize_critical {r : Run K} {ks : Knots K} {x : K} (h : r.solver.Poised x)
    {l : Fin r.solver.problem.layout.ndx → K}
    (hc : r.solver.problem.Critical ks r.solver.candidate.xs r.solver.candidate.us l) {n : ℕ}
    (hn : PositiveDefinite (r.solver.problem.factoredHessian ks r.solver.candidate.xs +
      r.solver.options.escalation x n • 1))
    (hk : ∀ k < n, r.solver.options.escalation x k ≠ r.solver.options.regMax) {fuel : ℕ}
    (hfuel : n < fuel) :
    ∃ w events, factorize fuel true r = .next {
      solver := (r.solver.under w).directed ks (Vec.zeros r.solver.problem.layout.nprimal)
        (List.ofFn l)
      events } := by
  classical
  have hlin := Solver.linearize_of_linearizedAt h.fits hc.linearized
  -- the attempts stop at the first weight that will do
  have hex : ∃ k, PositiveDefinite (r.solver.problem.factoredHessian ks r.solver.candidate.xs +
      r.solver.options.escalation x k • 1) := ⟨n, hn⟩
  have hle : Nat.find hex ≤ n := Nat.find_min' hex hn
  obtain ⟨m, rfl⟩ : ∃ m, fuel = m + Nat.find hex + 1 := ⟨fuel - Nat.find hex - 1, by omega⟩
  have hsolved := h.factorize_under hc (Nat.find_spec hex)
  refine ⟨r.solver.options.escalation x (Nat.find hex),
    r.events ++ r.solver.options.dampings x (Nat.find hex), ?_⟩
  have hgo := attempt_weighted (s := r.solver.relinearized ks)
    (A := (r.solver.relinearized ks).undamped) (x := x) h.options (Nat.find hex) m r.events
    fun k hlt => ⟨fun hfound =>
      Nat.find_min hex hlt ((r.solver.factorize_under_iff ks _).mp hfound), hk k (hlt.trans_le hle)⟩
  rw [factorize_eq_attempt h.xreg h.ureg hlin]
  refine hgo.trans ?_
  have hnext := attempt_solved (congrArg Prod.snd hsolved) m
    (r.events ++ r.solver.options.dampings x (Nat.find hex))
  rw [hsolved] at hnext
  exact hnext

namespace Solver

variable {s t : Solver K} {ks : Knots K} {x w : K} {l : Fin s.problem.layout.ndx → K}

theorem Poised.stop_eq_zero (h : s.Poised x) (hrows : ks.Rows s.problem.layout)
    (hc : s.problem.Critical ks s.candidate.xs s.candidate.us l) (hprob : t.problem = s.problem)
    (hsys : t.system = (s.under w).damped ks)
    (hdir : t.direction =
      .ofSolution s.problem.layout (Vec.zeros s.problem.layout.nprimal) (List.ofFn l))
    (hslopes : ks.SameSlopes t.knots) : t.measureStop.stop = 0 := by
  have hstop := stop_directed (s := s.under w) hc.linearized hrows List.length_ofFn hprob hsys hdir
    hslopes
  have hl : Vec.toFun s.problem.layout.ndx (List.ofFn l) = l := Vec.toFun_ofFn l
  have hzero : s.problem.residual ks s.candidate.xs l = 0 :=
    Problem.Stationary.residual_eq_zero (hc.stationary h.shaped _)
  rw [← hl] at hzero
  exact hstop.trans hzero

/-- The solver stands at a trajectory, with no residual and no decrease in sight, and has found the
given multipliers. -/
structure Settled (c : Trajectory K) (lambdas : List (Vec K)) (s : Solver K) : Prop where
  xs : s.candidate.xs = c.xs
  us : s.candidate.us = c.us
  stop : s.stop = 0
  d : s.d = (0, 0)
  dV : s.dV = 0
  lambdas : s.direction.lambdas = lambdas

end Solver

/-- An iteration that finds the direction zero stays where it is and succeeds: the gradient is small
enough for the first step to be accepted, and nothing is left of the residual. -/
theorem Run.iterate_critical {r : Run K} {ks : Knots K} {x : K} {fuel iter : ℕ} {s : Solver K}
    (h : s.Poised x) (hsin : Scalar.sin (0 : K) = 0) (hcos : Scalar.cos (0 : K) = 1)
    {a b : K} {rest : List K} (ha : s.options.alphas = a :: b :: rest)
    {l : Fin s.problem.layout.ndx → K} (hrows : ks.Rows s.problem.layout)
    (hc : s.problem.Critical ks s.candidate.xs s.candidate.us l) {w : K} {events : List (Event K)}
    (hd : factorize fuel true { r with solver := r.solver.numbered iter } = .next {
      solver := (s.under w).directed ks (Vec.zeros s.problem.layout.nprimal) (List.ofFn l)
      events }) :
    ∃ t events, t.stats = s.stats ∧
      t.Settled s.candidate.toTrajectory (Layout.split s.problem.layout.ndxs (List.ofFn l)) ∧
      r.iterate fuel iter = finished { solver := t, events } .success := by
  let t : Solver K :=
    ((s.under w).directed ks (Vec.zeros s.problem.layout.nprimal) (List.ofFn l)).predict
  have hzero : t.d = (0, 0) := by
    have hpredict : t.d = _ := Solver.predict_directed (s := s.under w) (Vec.length_zeros _)
    rw [Vec.toFun_zeros, dotProduct_zero, zero_dotProduct, neg_zero] at hpredict
    exact hpredict
  have htrial : t.trialAt a = s.candidate.toTrajectory :=
    Solver.trialAt_zeros (s := t) hsin hcos h.shaped rfl a
  have hcost : (t.problem.evaluate t.knots (t.trialAt a).xs (t.trialAt a).us).2 =
      .ok ks.total := by
    rw [htrial]
    exact Problem.Fits.evaluate_total
      ⟨hc.linearized.running.length_eq, h.shaped.length_states, h.shaped.length_controls⟩
      hc.linearized
  have hverdict : Search.verdict
      { t.search with dV := t.cost - ks.total, dVexp := Search.expectedDecrease t.d a }
      t.d t.candidate.feasible = some .gradientTooSmall := by
    unfold Search.verdict
    rw [hzero]
    refine if_pos (ExactScalar.lt_iff.mpr ?_)
    exact h.search.thresholds.1 ▸ h.options.gradThreshold
  have hshaped : t.problem.Shaped (t.trialAt a).xs (t.trialAt a).us := by
    rw [htrial]
    exact h.shaped
  obtain ⟨events', hiter⟩ := iterate_found (s := t) hd rfl (h.search.alphas.trans ha) hcost rfl
    hverdict hshaped (h.options.last_ne ha) h.callbacks
  have hslopes := t.problem.sameSlopes_evaluate ks (t.trialAt a).xs (t.trialAt a).us
  obtain ⟨xreg, ureg, hadapted⟩ := (t.moved a ks.total .gradientTooSmall).adapted_weights
  rw [hadapted] at hiter
  have hstop := h.stop_eq_zero (t := { t.moved a ks.total .gradientTooSmall with xreg, ureg })
    hrows hc rfl rfl rfl hslopes
  refine ⟨_, events', ?_, ?_, hiter.trans (if_pos ?_)⟩
  · rfl
  · exact {
      xs := congrArg Trajectory.xs htrial
      us := congrArg Trajectory.us htrial
      stop := hstop
      d := hzero
      dV := sub_self _
      lambdas := rfl }
  · rw [hstop, Bool.and_eq_true]
    exact ⟨h.feasible, ExactScalar.lt_iff.mpr h.options.stopThreshold⟩

namespace Solver

theorem poised_begun {p : Problem K} {o : Options K} (ho : o.fault? = none)
    (past : List (Operation K)) {callbacks : List Callback} (hcallbacks : .table 0 ∉ callbacks)
    {c : Trajectory K} (hc : p.Shaped c.xs c.us) (reginit : Weight K) :
    ({ (create p o).after past with callbacks }.begun c true reginit : Solver K).Poised
      (reginit.getD 0) := by
  have hprob := problem_after (p := p) (o := o) past
  have hopt := options_after (p := p) (o := o) past
  have hsearch := search_after (p := p) (o := o) past
  have hfits := fits_after (p := p) (o := o) past
  generalize (create p o).after past = s at *
  subst hprob hopt
  exact ⟨Options.fault?_eq_none_iff.mp ho, hsearch, hfits.knots, hc, rfl, rfl, rfl, hcallbacks⟩

variable {s : Solver K} {x : K}

theorem Poised.evaluated (h : s.Poised x) : s.evaluated.Poised x :=
  have hknots := Problem.length_evaluate s.problem s.knots s.candidate.xs s.candidate.us
  ⟨h.options, h.search, hknots.trans h.knots, h.shaped, h.feasible, h.xreg, h.ureg, h.callbacks⟩

theorem Poised.numbered (h : s.Poised x) (iter : ℕ) : (s.numbered iter).Poised x :=
  ⟨h.options, h.search, h.knots, h.shaped, h.feasible, h.xreg, h.ureg, h.callbacks⟩

end Solver

structure Run.Settled (c : Trajectory K) (lambdas : List (Vec K)) (result : Run K × Ending) :
    Prop where
  ending : result.2 = .returned true
  status : result.1.solver.stats.status = .success
  iterations : result.1.solver.stats.iterations = 1
  solver : result.1.solver.Settled c lambdas

theorem Run.settled_loop {r : Run K} {ks : Knots K} {x : K} (h : r.solver.Poised x)
    (hsin : Scalar.sin (0 : K) = 0) (hcos : Scalar.cos (0 : K) = 1)
    {a b : K} {rest : List K} (ha : r.solver.options.alphas = a :: b :: rest)
    {l : Fin r.solver.problem.layout.ndx → K} (hrows : ks.Rows r.solver.problem.layout)
    (hc : r.solver.problem.Critical ks r.solver.candidate.xs r.solver.candidate.us l) {n : ℕ}
    (hn : PositiveDefinite (r.solver.problem.factoredHessian ks r.solver.candidate.xs +
      r.solver.options.escalation x n • 1))
    (hk : ∀ k < n, r.solver.options.escalation x k ≠ r.solver.options.regMax) {fuel : ℕ}
    (hfuel : n < fuel) (left : ℕ) :
    Settled r.solver.candidate.toTrajectory
      (Layout.split r.solver.problem.layout.ndxs (List.ofFn l)) (r.loop fuel (left + 1) 0) := by
  obtain ⟨w, events, hd⟩ := factorize_critical
    (r := { r with solver := r.solver.numbered 0 }) (h.numbered 0) hc hn hk hfuel
  obtain ⟨t, events, hstats, hsettled, hiter⟩ :=
    iterate_critical (h.numbered 0) hsin hcos ha hrows hc hd
  rw [loop_finished hiter]
  refine ⟨rfl, rfl, congrArg Stats.iterations hstats, ?_⟩
  exact ⟨hsettled.xs, hsettled.us, hsettled.stop, hsettled.d, hsettled.dV, hsettled.lambdas⟩

/-- From a trajectory without gaps at which the Lagrangian is stationary, a solve succeeds after one
iteration and has not moved, whatever weight its attempts end with. -/
theorem solve_critical {p : Problem K} {o : Options K} (ho : o.fault? = none) {a b : K}
    {rest : List K} (ha : o.alphas = a :: b :: rest)
    (hsin : Scalar.sin (0 : K) = 0) (hcos : Scalar.cos (0 : K) = 1)
    (past : List (Operation K)) {callbacks : List Callback} (hcallbacks : .table 0 ∉ callbacks)
    {xs us : List (Tensor K)} (hxs : ∀ x ∈ xs, x.Valid) (hus : ∀ u ∈ us, u.Valid)
    {c : Trajectory K} (htraj : p.trajectory xs us = .ok c) {ks : Knots K}
    (hrows : ks.Rows p.layout) {l : Fin p.layout.ndx → K} (hc : p.Critical ks c.xs c.us l)
    (reginit : Weight K) {n : ℕ}
    (hn : PositiveDefinite (p.factoredHessian ks c.xs + o.escalation (reginit.getD 0) n • 1))
    (hk : ∀ k < n, o.escalation (reginit.getD 0) k ≠ o.regMax) {maxiter : ℤ} (hmax : 1 ≤ maxiter)
    {fuel : ℕ} (hfuel : n < fuel) :
    let s : Solver K := { (Solver.create p o).after past with callbacks }
    Run.Settled c (Layout.split p.layout.ndxs (List.ofFn l))
        (s.solve fuel xs us maxiter true reginit) ∧
      ∀ l', p.Critical ks c.xs c.us l' → l' = l := by
  intro s
  refine ⟨?_, fun l' h' => h'.unique hc⟩
  have hprob : s.problem = p := Solver.problem_after past
  have hopt : s.options = o := Solver.options_after past
  have hpoised : (s.begun c true reginit).Poised (reginit.getD 0) :=
    Solver.poised_begun ho past hcallbacks (Problem.shaped_trajectory htraj hxs hus) reginit
  obtain ⟨left, hleft⟩ : ∃ left, maxiter.toNat = left + 1 := ⟨maxiter.toNat - 1, by omega⟩
  clear_value s
  subst hprob hopt
  obtain ⟨events, hstart⟩ := Run.start_linearizedAt
    (r := { solver := s.begun c true reginit, events := [] }) hpoised.fits hc.linearized
  rw [Solver.solve_eq htraj, hleft]
  rcases hstart with hstart | hstart
  · rw [hstart]
    exact Run.settled_loop (r := { solver := s.begun c true reginit, events }) hpoised hsin hcos ha
      hrows hc hn hk hfuel left
  · rw [hstart]
    exact Run.settled_loop (r := { solver := (s.begun c true reginit).evaluated, events })
      hpoised.evaluated hsin hcos ha hrows hc hn hk hfuel left

def Model.turn : Model K where
  state := .rotation 0
  next := .rotation 0
  nu := 1
  hasDynamics := true
  eval x u := .ok (Scalar.half * Vec.normSq u - u.coord 0, (Manifold.rotation 0).integrate x u)
  deriv _ u := .ok
    { lx := [0]
      lu := [u.coord 0 - 1]
      lxx := [[0]]
      lxu := [[0]]
      luu := [[1]]
      fx := [[1]]
      fu := [[1]] }

def Model.height : Model K where
  state := .rotation 0
  next := .rotation 0
  nu := 0
  hasDynamics := false
  eval x _ := .ok (x.coord 1, x)
  deriv x _ := .ok
    { lx := [x.coord 0]
      lu := []
      lxx := [[-x.coord 1]]
      lxu := [[]]
      luu := []
      fx := [[1]]
      fu := [[]] }

/-- One turn from the angle zero. Its Hessian at no turn is singular. -/
def Problem.turn : Problem K where
  x0 := [1, 0]
  running := [.turn]
  terminal := .height

namespace Problem

def stillKnots : Knots K := ((turn : Problem K).linearize turn.fresh [[1, 0], [1, 0]] [[0]]).1

theorem linearizedAt_turn : (turn : Problem K).LinearizedAt [[1, 0], [1, 0]] [[0]] stillKnots :=
  ⟨.cons ⟨rfl, rfl⟩ .nil, rfl, rfl⟩

theorem rows_turn : (stillKnots : Knots K).Rows (turn : Problem K).layout := by
  constructor
  case count => rfl
  all_goals
    rintro (_ | t) k hk row hrow <;> cases hk
    obtain rfl := List.mem_singleton.mp hrow
    rfl

theorem constraint_turn : ((turn : Problem K).program stillKnots [[1, 0], [1, 0]]).constraint
    (turn : Problem K).layout = !![1, 0, 0; -1, 1, -1] := by
  ext i j
  fin_cases i <;> fin_cases j <;> rfl

theorem gradient_turn : ((turn : Problem K).program stillKnots [[1, 0], [1, 0]]).gradient
    (turn : Problem K).layout = ![0, 1, 0 - 1] := by
  ext i
  fin_cases i <;> rfl

theorem factoredHessian_turn :
    (turn : Problem K).factoredHessian stillKnots [[1, 0], [1, 0]] =
      !![0, 0, 0; 0, -0, 0; 0, 0, 1] := by
  ext i j
  fin_cases i <;> fin_cases j <;> rfl

theorem gapless_turn : (turn : Problem ℝ).Gapless [[1, 0], [1, 0]] [[0]] := by
  have hdiff : ∀ a ∈ (Manifold.rotation 0).diff [(1 : ℝ), 0] [1, 0], a = 0 := by
    have harg : Complex.arg ⟨(1 : ℝ) * 1 + 0 * 0, 1 * 0 - 0 * 1⟩ = 0 := by
      norm_num [Complex.arg]
    intro a ha
    obtain rfl := List.mem_singleton.mp ha
    exact harg
  have hstay : (Manifold.rotation 0).integrate [(1 : ℝ), 0] [0] = [1, 0] :=
    Manifold.integrate_zeros Real.sin_zero Real.cos_zero rfl
  constructor
  · intro m hm
    cases hm
    exact hdiff
  · rintro (_ | t) m hm <;> cases hm
    refine ⟨_, _, rfl, ?_⟩
    change ∀ a ∈ (Manifold.rotation 0).diff
      ((Manifold.rotation 0).integrate [(1 : ℝ), 0] [0]) [1, 0], a = 0
    rw [hstay]
    exact hdiff

theorem critical_turn :
    (turn : Problem ℝ).Critical stillKnots [[1, 0], [1, 0]] [[0]] ![-1, -1] := by
  refine ⟨linearizedAt_turn, gapless_turn, ?_⟩
  have hcancel : (![0, 1, 0 - 1] : Fin 3 → ℝ) +
      (!![1, 0, 0; -1, 1, -1] : Matrix (Fin 2) (Fin 3) ℝ)ᵀ *ᵥ ![-1, -1] = 0 := by
    ext i
    fin_cases i <;> simp [mulVec, dotProduct, Fin.sum_univ_two]
  rw [gradient_turn, constraint_turn]
  exact hcancel

theorem not_positiveDefinite_turn :
    ¬ PositiveDefinite ((turn : Problem ℝ).factoredHessian stillKnots [[1, 0], [1, 0]]) := by
  rw [factoredHessian_turn]
  intro h
  have hpos : (0 : ℝ) < ![1, 0, 0] ⬝ᵥ !![0, 0, 0; 0, -0, 0; 0, 0, 1] *ᵥ ![1, 0, 0] :=
    h ![1, 0, 0] fun hzero => one_ne_zero (congrFun hzero 0)
  simp [mulVec, dotProduct, Fin.sum_univ_three] at hpos

theorem positiveDefinite_turn : PositiveDefinite
    ((turn : Problem ℝ).factoredHessian stillKnots [[1, 0], [1, 0]] + (1 / 2 : ℝ) • 1) := by
  rw [factoredHessian_turn]
  intro (v : Fin 3 → ℝ) hv
  have hone : 0 < v ⬝ᵥ v := by
    have := Mat.positiveDefinite_one 3 v hv
    rwa [one_mulVec] at this
  have hvalue : v ⬝ᵥ (!![0, 0, 0; 0, -0, 0; 0, 0, 1] + (1 / 2 : ℝ) • 1) *ᵥ v =
      1 / 2 * (v ⬝ᵥ v) + v 2 * v 2 := by
    simp [mulVec, dotProduct, Fin.sum_univ_three]
    ring
  exact hvalue.symm ▸ add_pos_of_pos_of_nonneg (mul_pos one_half_pos hone) (mul_self_nonneg _)

end Problem

theorem solve_critical_turn :
    let o : Options ℝ := { Options.lenient with regMin := 1 / 2 }
    let past : List (Operation ℝ) := [.increase, .computeDirection true]
    let s : Solver ℝ := { (Solver.create .turn o).after past with callbacks := [.table 10] }
    ¬ PositiveDefinite ((Problem.turn : Problem ℝ).factoredHessian Problem.stillKnots
      [[1, 0], [1, 0]]) ∧
    Run.Settled (K := ℝ) { xs := [[1, 0], [1, 0]], us := [[0]] } [[-1], [-1]]
      (s.solve 2 [.ofVec [1, 0], .ofVec [1, 0]] [.ofVec [0]] 1 true none) := by
  intro o past s
  have ho : o.fault? = none := by
    simp [o, Options.fault?, Options.lenient, Options.strictlyDecreasing, Bool.eq_false_iff]
    norm_num
  have hfirst : o.escalation 0 1 = 1 / 2 := by
    norm_num [o, Options.escalation, Options.lenient]
  have hn : PositiveDefinite ((Problem.turn : Problem ℝ).factoredHessian Problem.stillKnots
      [[1, 0], [1, 0]] + o.escalation 0 1 • 1) := hfirst.symm ▸ Problem.positiveDefinite_turn
  have hk : ∀ k < 1, o.escalation 0 k ≠ o.regMax := by
    intro k hk
    obtain rfl := Nat.lt_one_iff.mp hk
    exact zero_ne_one
  have htraj := @Problem.trajectory_ofVec ℝ _ .turn [[1, 0], [1, 0]] [[0]] ⟨rfl, rfl⟩
  have hcallbacks : Callback.table 0 ∉ [Callback.table 10] := by decide
  refine ⟨Problem.not_positiveDefinite_turn, ?_⟩
  exact (solve_critical ho rfl Real.sin_zero Real.cos_zero past hcallbacks
    (Tensor.valid_of_mem_map _) (Tensor.valid_of_mem_map _) htraj Problem.rows_turn
    Problem.critical_turn none hn hk le_rfl one_lt_two).1

end Shooting
