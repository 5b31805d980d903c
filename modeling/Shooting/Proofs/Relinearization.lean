import Shooting.Proofs.Direction

/-! # Reusing a linearization

As long as a solver stays where it is, the system that it holds is the one that a new linearization
would assemble, but for the weights on the diagonal. These are replaced from a saved copy, so that a
direction found without linearizing again is the one that would be found with it.
-/

namespace Shooting

variable {α : Type} [Scalar α]

/-- All that moves the trajectory of a solver is setting it, or solving. -/
def Operation.keepsTrajectory : Operation α → Bool
  | .setCandidate .. | .solve .. => false
  | _ => true

/-- The undamped system that a linearization along a trajectory gives, whatever records it goes to. -/
structure Problem.SystemAt (p : Problem α) (xs us : List (Vec α)) (system : System α) : Prop where
  linearize : ∀ ks, p.Fits ks xs us → ∃ ks' c, p.linearize ks xs us = (ks', .ok c) ∧
    system = System.assemble (.ofProblem p) ks' (p.gaps ks' xs)

theorem Problem.Fits.systemAt {p : Problem α} {ks ks' : Knots α} {xs us : List (Vec α)} {c : α}
    (h : p.Fits ks xs us) (hl : p.linearize ks xs us = (ks', .ok c)) :
    p.SystemAt xs us (System.assemble (.ofProblem p) ks' (p.gaps ks' xs)) := by
  constructor
  intro ks₁ h₁
  have hres := h₁.linearize_congr h
  rw [hl] at hres
  have hl₁ : p.linearize ks₁ xs us = ((p.linearize ks₁ xs us).1, .ok c) := Prod.ext rfl hres
  refine ⟨_, c, hl₁, ?_⟩
  rw [(h.linearize_ok hl).1.unique (h₁.linearize_ok hl₁).1]

namespace Solver

variable {p : Problem α} {c : Candidate α} {A : System α} {s : Solver α}

/-- A solver that stands at a trajectory and holds a given system under weights of one time or
another. -/
structure StandsAt (p : Problem α) (c : Candidate α) (A : System α) (s : Solver α) : Prop where
  problem : s.problem = p
  candidate : s.candidate = c
  fits : s.Fits
  system : ∃ xr ur, s.system = A.damp (Layout.ofProblem p).ndx xr ur

theorem StandsAt.of_eq {s' : Solver α} (h : s.StandsAt p c A) (hp : s'.problem = s.problem)
    (hc : s'.candidate = s.candidate) (hA : s'.system = s.system)
    (hk : s'.knots.running.length = s.knots.running.length) : s'.StandsAt p c A where
  problem := hp.trans h.problem
  candidate := hc.trans h.candidate
  fits := by
    obtain ⟨hlen, hx, hu⟩ := h.fits
    rw [Fits, hp, hc]
    exact ⟨hk.trans hlen, hx, hu⟩
  system := hA ▸ h.system

/-- Weights are replaced from the saved diagonal, so that nothing adds up. -/
theorem StandsAt.redamp_eq (h : s.StandsAt p c A) :
    s.redamp = { s with system := A.damp (Layout.ofProblem p).ndx s.xreg s.ureg } := by
  obtain ⟨rfl, -, -, xr, ur, hA⟩ := h
  unfold redamp
  rw [hA]
  exact congrArg (fun system => { s with system }) (System.damp_damp _ _ _ _ _ _)

theorem StandsAt.linearize_eq (h : s.StandsAt p c A) (hA : p.SystemAt c.xs c.us A) :
    ∃ knots cost, knots.running.length = s.knots.running.length ∧
      s.linearize = ({ s with
        knots
        cost
        system := A.damp (Layout.ofProblem p).ndx s.xreg s.ureg }, .ok cost) := by
  obtain ⟨rfl, rfl, hf, -⟩ := h
  obtain ⟨knots, cost, hl, hsys⟩ := hA.linearize s.knots hf
  have hlen := Problem.length_linearize s.problem s.knots s.candidate.xs s.candidate.us
  rw [hl] at hlen
  refine ⟨knots, cost, hlen, ?_⟩
  unfold Solver.linearize
  rw [hl, hsys]
  rfl

theorem StandsAt.redamp (h : s.StandsAt p c A) : s.redamp.StandsAt p c A := by
  rw [h.redamp_eq]
  exact ⟨h.problem, h.candidate, h.fits, _, _, rfl⟩

theorem StandsAt.linearize (h : s.StandsAt p c A) (hA : p.SystemAt c.xs c.us A) :
    s.linearize.1.StandsAt p c A := by
  obtain ⟨knots, cost, hlen, hl⟩ := h.linearize_eq hA
  rw [hl]
  have hfits := h.fits
  exact ⟨h.problem, h.candidate, ⟨hlen.trans hfits.knots, hfits.states, hfits.controls⟩, _, _, rfl⟩

theorem factorize_fst (s : Solver α) :
    s.factorize.1 = { s with direction := s.factorize.1.direction } := by
  rw [factorize_eq]
  cases RangeSpace.solve? s.system.matrix s.system.residual s.layout.nprimal <;> rfl

theorem factorize_congr (s : Solver α) (knots : Knots α) (cost : α) :
    factorize { s with knots, cost } = ({ s.factorize.1 with knots, cost }, s.factorize.2) := by
  rw [factorize_eq, factorize_eq]
  dsimp only [layout]
  cases RangeSpace.solve? s.system.matrix s.system.residual (Layout.ofProblem s.problem).nprimal <;>
    rfl

theorem StandsAt.factorize (h : s.StandsAt p c A) : s.factorize.1.StandsAt p c A := by
  rw [factorize_fst]
  exact h.of_eq rfl rfl rfl rfl

theorem computeDirection_true {s' : Solver α} {cost : α} (h : s.linearize = (s', .ok cost)) :
    s.computeDirection true = (s'.factorize.1, .ok s'.factorize.2) := by
  unfold computeDirection
  rw [if_pos rfl, h]

theorem computeDirection_false (s : Solver α) :
    s.computeDirection false = (s.redamp.factorize.1, .ok s.redamp.factorize.2) := rfl

theorem StandsAt.computeDirection_true (h : s.StandsAt p c A) (hA : p.SystemAt c.xs c.us A) :
    ∃ knots cost, knots.running.length = s.knots.running.length ∧
      s.computeDirection true =
        ({ (s.computeDirection false).1 with knots, cost }, (s.computeDirection false).2) := by
  obtain ⟨knots, cost, hlen, hl⟩ := h.linearize_eq hA
  have hcongr := s.redamp.factorize_congr knots cost
  refine ⟨knots, cost, hlen, ?_⟩
  rw [Solver.computeDirection_true hl, computeDirection_false]
  rw [h.redamp_eq] at hcongr ⊢
  rw [hcongr]

theorem StandsAt.computeDirection (h : s.StandsAt p c A) (hA : p.SystemAt c.xs c.us A)
    (relinearize : Bool) : (s.computeDirection relinearize).1.StandsAt p c A := by
  have hfalse : (s.computeDirection false).1.StandsAt p c A := h.redamp.factorize
  cases relinearize with
  | false => exact hfalse
  | true =>
    have hkept := s.preserved_computeDirection false
    obtain ⟨knots, cost, hlen, ht⟩ := h.computeDirection_true hA
    have hlen' : (s.computeDirection false).1.knots.running.length = s.knots.running.length := by
      rw [(hkept.fits h.fits).knots, h.fits.knots, hkept.problem]
    rw [ht]
    exact hfalse.of_eq rfl rfl rfl (hlen.trans hlen'.symm)

theorem StandsAt.perform (h : s.StandsAt p c A) (hA : p.SystemAt c.xs c.us A) {op : Operation α}
    (hop : op.keepsTrajectory = true) : (s.perform op).StandsAt p c A := by
  cases op with
  | setCandidate xs us feasible => cases hop
  | solve fuel xs us maxiter feasible reginit => cases hop
  | setWeights xreg ureg => exact h.of_eq rfl rfl rfl rfl
  | setCallbacks callbacks => exact h.of_eq rfl rfl rfl rfl
  | increase => exact h.of_eq rfl rfl rfl rfl
  | decrease => exact h.of_eq rfl rfl rfl rfl
  | predict => exact h.of_eq rfl rfl rfl rfl
  | measureStop => exact h.of_eq rfl rfl rfl rfl
  | linearize => exact h.linearize hA
  | computeDirection relinearize => exact h.computeDirection hA relinearize
  | solveSystem =>
    change s.solveSystem.1.StandsAt p c A
    unfold solveSystem
    split <;> exact h.of_eq rfl rfl rfl rfl
  | tryStep a =>
    change (s.tryStep a).1.StandsAt p c A
    unfold tryStep
    dsimp only
    split <;> rename_i he <;> exact h.of_eq rfl rfl rfl (Problem.length_of_evaluate he)
  | rollout us => exact h.of_eq rfl rfl rfl (Problem.length_rollout s.problem s.knots us)

theorem StandsAt.after (h : s.StandsAt p c A) (hA : p.SystemAt c.xs c.us A)
    {ops : List (Operation α)} (hops : ops.all Operation.keepsTrajectory = true) :
    (s.after ops).StandsAt p c A := by
  induction ops generalizing s with
  | nil => exact h
  | cons op ops ih =>
    rw [List.all_cons, Bool.and_eq_true] at hops
    exact ih (h.perform hA hops.1) hops.2

theorem standsAt_linearize {cost : α} (hf : s.Fits) {s' : Solver α}
    (h : s.linearize = (s', .ok cost)) :
    s'.StandsAt s'.problem s'.candidate
        (System.assemble s'.layout s'.knots (s'.problem.gaps s'.knots s'.candidate.xs)) ∧
      s'.problem.SystemAt s'.candidate.xs s'.candidate.us
        (System.assemble s'.layout s'.knots (s'.problem.gaps s'.knots s'.candidate.xs)) := by
  unfold Solver.linearize at h
  split at h
  · cases h
  · rename_i knots c' hl
    cases h
    have hlen := Problem.length_linearize s.problem s.knots s.candidate.xs s.candidate.us
    rw [hl] at hlen
    refine ⟨⟨rfl, rfl, ?_, _, _, rfl⟩, Problem.Fits.systemAt hf hl⟩
    exact ⟨hlen.trans hf.knots, hf.states, hf.controls⟩

/-- A direction found under the current weights without linearizing again is the one that would be
found with it, over a system that was `A` before it was given any weights. -/
structure Reuses (A : System α) (s : Solver α) : Prop where
  outcome : ∃ code, (s.computeDirection false).2 = .ok code ∧
    (s.computeDirection true).2 = .ok code ∧
    (code ≠ .noError →
      (s.computeDirection false).1.direction = s.direction ∧
      (s.computeDirection true).1.direction = s.direction)
  system : (s.computeDirection false).1.system = (s.computeDirection true).1.system
  direction : (s.computeDirection false).1.direction = (s.computeDirection true).1.direction
  weights : (s.computeDirection false).1.system = A.damp s.layout.ndx s.xreg s.ureg
  diagonal : ∀ i < s.layout.nprimal, (s.computeDirection false).1.system.matrix.entry i i =
    A.matrix.entry i i + (if i < s.layout.ndx then s.xreg else s.ureg).addend

theorem StandsAt.reuses {ks : Knots α} {gaps : List (Vec α)}
    (h : s.StandsAt p c (System.assemble (.ofProblem p) ks gaps))
    (hA : p.SystemAt c.xs c.us (System.assemble (.ofProblem p) ks gaps)) :
    s.Reuses (System.assemble (.ofProblem p) ks gaps) := by
  obtain ⟨knots, cost, -, ht⟩ := h.computeDirection_true hA
  have hlayout : s.layout = .ofProblem p := congrArg Layout.ofProblem h.problem
  have hsystem : (s.computeDirection false).1.system =
      (System.assemble (.ofProblem p) ks gaps).damp s.layout.ndx s.xreg s.ureg := by
    rw [computeDirection_false, factorize_fst, h.redamp_eq, hlayout]
  constructor
  case outcome =>
    refine ⟨s.redamp.factorize.2, rfl, congrArg Prod.snd ht, fun hcode => ?_⟩
    have hkept : (s.computeDirection false).1.direction = s.direction := by
      rw [computeDirection_false, factorize_of_ne hcode]
      rfl
    refine ⟨hkept, ?_⟩
    rw [ht]
    exact hkept
  case system => rw [ht]
  case direction => rw [ht]
  case weights => exact hsystem
  case diagonal =>
    intro i hi
    rw [hsystem, hlayout]
    exact System.entry_damp_assemble _ _ (hlayout ▸ hi)

/-- Once a linearization has succeeded, and until the trajectory moves, it can be used again: whatever
has happened to the weights, the direction and the trial steps since. -/
theorem reuses_after_linearize (p : Problem α) (o : Options α) (past : List (Operation α))
    {s : Solver α} {cost : α} (h : ((create p o).after past).linearize = (s, .ok cost))
    {later : List (Operation α)} (hlater : later.all Operation.keepsTrajectory = true) :
    (s.after later).Reuses
      (System.assemble s.layout s.knots (s.problem.gaps s.knots s.candidate.xs)) := by
  obtain ⟨hs, hA⟩ := standsAt_linearize (fits_after past) h
  exact (hs.after hA hlater).reuses hA

theorem reuses_after_linearize_integrator : ∃ s cost,
    ((create (Problem.integrator [(1 : ℝ)] 1) .lenient).after [.increase]).linearize =
      (s, .ok cost) ∧
    (s.after [.setWeights none (some 1), .computeDirection false, .tryStep 1, .increase]).Reuses
      (System.assemble s.layout s.knots (s.problem.gaps s.knots s.candidate.xs)) := by
  have hlin : ∃ s cost, ((create (Problem.integrator [(1 : ℝ)] 1) .lenient).after
      [.increase]).linearize = (s, .ok cost) := ⟨_, _, rfl⟩
  obtain ⟨s, cost, h⟩ := hlin
  exact ⟨s, cost, h, reuses_after_linearize _ _ _ h (by decide)⟩

end Solver
end Shooting
