import Shooting.Proofs.Course
import Shooting.Proofs.LastLinearization

/-! # Directions along the current trajectory

A direction is computed from the system of the current trajectory, linearized anew or assembled
before, under weights that are raised until the Hessian block is positive definite. If the
trajectory has no gaps, the constraints of that system are met without any increment.
-/

namespace Shooting

open Matrix

/-- The first state differs by nothing from the fixed one, and every other from where the model
before it leads. -/
structure Problem.Gapless {α : Type} [Scalar α] (p : Problem α) (xs us : List (Vec α)) : Prop where
  initial : ∀ m : Model α, p.running[0]? = some m → ∀ a ∈ m.state.diff p.x0 (xs.getD 0 []), a = 0
  dynamics : ∀ (t : ℕ) (m : Model α), p.running[t]? = some m → ∃ c y,
    m.eval (xs.getD t []) (us.getD t []) = .ok (c, y) ∧
      ∀ a ∈ m.next.diff y (xs.getD (t + 1) []), a = 0

section Gaps

variable {α : Type} [Scalar α] {p : Problem α} {xs us : List (Vec α)} {ks : Knots α}

theorem Problem.Gapless.getD_gaps (h : p.Gapless xs us) (hl : p.LinearizedAt xs us ks)
    (hf : p.Fits ks xs us) {t : ℕ} (ht : t < p.horizon + 1) :
    ∀ a ∈ (p.gaps ks xs).getD t [], a = 0 := by
  cases t with
  | zero =>
    cases hm : p.running[0]? with
    | none =>
      have hnil : p.running = [] := by simpa using hm
      simp [gaps, hnil]
    | some m =>
      rw [hf.gaps_zero hm]
      exact h.initial m hm
  | succ t =>
    have hm := List.getElem?_eq_getElem (l := p.running) (Nat.lt_of_succ_lt_succ ht)
    obtain ⟨k, hk, heval, -⟩ := hl.get hf.states hm
    obtain ⟨c, y, heval', hy⟩ := h.dynamics t _ hm
    obtain ⟨-, rfl⟩ := Prod.mk.inj (Except.ok.inj (heval.symm.trans heval'))
    rw [hf.gaps_succ hm hk]
    exact hy

/-- The system that a solver holds is that of its candidate, under some weights. -/
def Solver.SystemIsCurrent (s : Solver α) : Prop :=
  ∃ ks, s.problem.LinearizedAt s.candidate.xs s.candidate.us ks ∧
    ∃ xr ur, s.system = (System.assemble s.layout ks
      (s.problem.gaps ks s.candidate.xs)).damp s.layout.ndx xr ur

namespace Solver

variable {s s' : Solver α}

theorem SystemIsCurrent.assembled (h : s.SystemIsCurrent) : s.problem.Assembled s.system := by
  obtain ⟨ks, hl, xr, ur, hs⟩ := h
  exact ⟨_, _, ks, xr, ur, hl, hs⟩

theorem SystemIsCurrent.redamp (h : s.SystemIsCurrent) : s.redamp.SystemIsCurrent := by
  obtain ⟨ks, hl, xr, ur, hs⟩ := h
  refine ⟨ks, hl, s.xreg, s.ureg, ?_⟩
  rw [Solver.redamp, hs]
  exact System.damp_damp _ _ _ _ _ _

theorem SystemIsCurrent.of_eq (h : s.SystemIsCurrent) (hp : s'.problem = s.problem)
    (hc : s'.candidate = s.candidate) (hA : s'.system = s.system) : s'.SystemIsCurrent := by
  unfold SystemIsCurrent layout at h ⊢
  rw [hp, hc, hA]
  exact h

theorem Fits.systemIsCurrent {cost : α} (hf : s.Fits) (h : s.linearize = (s', .ok cost)) :
    s'.SystemIsCurrent := by
  obtain ⟨knots, hl, rfl⟩ := linearize_eq_ok h
  exact ⟨knots, (hf.linearize_ok hl).1, _, _, rfl⟩

theorem Fits.system_computeDirection (hf : s.Fits) {relinearize : Bool} {code : ErrorCode}
    (hs : relinearize = false → s.SystemIsCurrent)
    (h : s.computeDirection relinearize = (s', .ok code)) :
    ∃ s₁ : Solver α, s₁.SystemIsCurrent ∧ s₁.problem = s.problem ∧ s₁.candidate = s.candidate ∧
      s₁.factorize = (s', code) := by
  obtain ⟨rfl, hfactor⟩ | ⟨rfl, s₁, cost, hl, hfactor⟩ := computeDirection_eq_ok h
  · exact ⟨s.redamp, (hs rfl).redamp, rfl, rfl, hfactor⟩
  · have hcurrent := hf.systemIsCurrent hl
    obtain ⟨knots, -, rfl⟩ := linearize_eq_ok hl
    exact ⟨_, hcurrent, rfl, rfl, hfactor⟩

theorem SystemIsCurrent.factorize (h : s.SystemIsCurrent) : s.factorize.1.SystemIsCurrent := by
  rw [factorize_fst]
  exact h.of_eq rfl rfl rfl

theorem LinearizedAlong.systemIsCurrent
    (h : s.LinearizedAlong s.candidate.xs s.candidate.us) : s.SystemIsCurrent := by
  obtain ⟨ks, hl, -, hs⟩ := h
  exact ⟨ks, hl, hs⟩

end Solver

namespace Run

variable {r r' : Run α} {fuel iter : ℕ}

/-- An iteration finds its direction in the system of the trajectory that it starts from, after as
many attempts as it takes. -/
theorem factorize_eq_next {relinearize : Bool} (hf : r.solver.Fits)
    (hs : relinearize = false →
      r.solver.LinearizedAlong r.solver.candidate.xs r.solver.candidate.us)
    (h : factorize fuel relinearize r = .next r') :
    ∃ s₁ : Solver α, s₁.LinearizedAlong r.solver.candidate.xs r.solver.candidate.us ∧
      s₁.problem = r.solver.problem ∧ s₁.candidate = r.solver.candidate ∧
      s₁.factorize = (r'.solver, .noError) := by
  induction fuel generalizing relinearize r with
  | zero => cases h
  | succ fuel ih =>
    have hpreserved := r.solver.preserved_computeDirection relinearize
    rw [factorize_succ] at h
    rcases hd : r.solver.computeDirection relinearize with ⟨s, f | code⟩
    · rw [hd] at h
      cases h
    · rw [hd] at h hpreserved
      change resume fuel code { r with solver := s } = .next r' at h
      obtain ⟨s₁, halong, hprob, hcand, hfactor⟩ :=
        hf.factorize_of_computeDirection hs (fun _ => ⟨rfl, rfl⟩) hd
      unfold resume at h
      split_ifs at h with hcode hsat
      · cases h
        subst hcode
        exact ⟨s₁, halong, hprob, hcand, hfactor⟩
      · cases h
      · -- The next attempt starts from the candidate and from the system of this one.
        have hs₁ : s = { s₁ with direction := s.direction } := by
          have hfst := s₁.factorize_fst
          rwa [hfactor] at hfst
        have hcand' : s.candidate = r.solver.candidate :=
          (congrArg Solver.candidate hs₁).trans hcand
        have halong' : s.LinearizedAlong r.solver.candidate.xs r.solver.candidate.us := by
          have hs := halong.factorize
          rwa [hfactor] at hs
        obtain ⟨s₂, halong₂, hprob₂, hcand₂, hfactor₂⟩ :=
          ih (r := ({ r with solver := s.increase } : Run α).report _) (hpreserved.fits hf)
            (fun _ => hcand'.symm ▸ halong'.of_eq rfl rfl (.refl _)) h
        refine ⟨s₂, ?_, ?_, ?_, hfactor₂⟩
        · exact hcand' ▸ halong₂
        · exact hprob₂.trans hpreserved.problem
        · exact hcand₂.trans hcand'

theorem keepsDirection_step (h : r.step = .next r') : r.solver.KeepsDirection r'.solver := by
  have hpredict : r.solver.KeepsDirection r.solver.predict := ⟨rfl, rfl, rfl, .refl _⟩
  have hsearched : r.solver.KeepsDirection r.searched.solver :=
    hpredict.trans (r.solver.predict.keepsDirection_searchAlong _ _)
  rw [step_eq] at h
  split at h
  · cases h
  · rename_i a _
    have hnoted : r.solver.KeepsDirection (r.searched.solver.noted a) :=
      hsearched.trans ⟨rfl, rfl, rfl, .refl _⟩
    have hpromoted := hnoted.trans (Solver.keepsDirection_promote _)
    rw [advance_eq] at h
    split_ifs at h
    · split at h <;> rename_i hp <;> rw [hp] at hpromoted <;> cases h
      exact hpromoted
    · cases h
      exact hnoted

theorem solver_adapt (h : r.adapt = .next r') :
    ∃ xreg ureg, r'.solver = { r.solver with xreg, ureg } := by
  obtain ⟨xreg, ureg, hadapted⟩ := r.solver.adapted_weights
  rw [adapt_eq] at h
  change escalate { r with solver := r.solver.adapted } = .next r' at h
  rw [hadapted] at h
  unfold escalate unlessSaturated at h
  split_ifs at h <;> cases h <;> exact ⟨_, _, rfl⟩

theorem keepsDirection_adapt (h : r.adapt = .next r') : r.solver.KeepsDirection r'.solver := by
  obtain ⟨xreg, ureg, hs⟩ := solver_adapt h
  rw [hs]
  exact ⟨rfl, rfl, rfl, .refl _⟩

theorem linearizedAlong_of_unassessed (hf : r.solver.Fits)
    (h : r.unassessed fuel iter = .next r') :
    r'.solver.LinearizedAlong r.solver.candidate.xs r.solver.candidate.us := by
  obtain ⟨r₂, hr₂, hadapt⟩ := Flow.andThen_eq_next h
  obtain ⟨r₁, hfactor, hstep⟩ := Flow.andThen_eq_next hr₂
  obtain ⟨s₁, halong, -, -, hs₁⟩ :=
    @factorize_eq_next _ _ { r with solver := r.solver.numbered iter } r₁ fuel true hf nofun hfactor
  have hr₁ : r₁.solver.LinearizedAlong r.solver.candidate.xs r.solver.candidate.us := by
    have hs := halong.factorize
    rwa [hs₁] at hs
  exact (hr₁.keeps (keepsDirection_step hstep)).keeps (keepsDirection_adapt hadapt)

/-- How an iteration gets to its observers: a direction is found where it starts, and a search along
it ends at a step length. -/
structure Searched (r : Run α) (s : Solver α) (a : α) (t : Solver α) : Prop where
  found : ∃ s₁ : Solver α, s₁.LinearizedAlong r.solver.candidate.xs r.solver.candidate.us ∧
    s₁.problem = r.solver.problem ∧ s₁.factorize = (s, .noError)
  problem : s.problem = r.solver.problem
  candidate : s.candidate = r.solver.candidate
  directed : s.Directed
  steps : s.Steps a t
  keeps : s.KeepsDirection t
  costed : t.Costed
  mem : t.search.accepted = true → a ∈ r.solver.search.alphas

theorem searched_of_step (h : r.Holds Solver.Sound)
    (hr' : (factorize fuel true { r with solver := r.solver.numbered iter }).andThen step =
      .next r') : ∃ s a, r.Searched s a r'.solver := by
  obtain ⟨r₁, hfactor, hstep⟩ := Flow.andThen_eq_next hr'
  obtain ⟨s₁, halong, hproblem, -, hs₁⟩ := @factorize_eq_next _ _
    { r with solver := r.solver.numbered iter } r₁ fuel true h.solver.fits nofun hfactor
  have hdirected := holds_factorize fuel (h.numbered iter)
  have hkept := keeps_factorize fuel true { r with solver := r.solver.numbered iter }
  have hpreserved := preserved_factorize fuel true { r with solver := r.solver.numbered iter }
  rw [hfactor] at hdirected hkept hpreserved
  obtain ⟨a, hres, hsearch, hsteps⟩ := steps_of_next hdirected.solver hstep
  have hcosted := holds_step hdirected
  rw [hstep] at hcosted
  refine ⟨r₁.solver, a, ?_⟩
  constructor
  case found => exact ⟨s₁, halong, hproblem, hs₁⟩
  case problem => exact hpreserved.problem
  case candidate => exact hkept.candidate
  case directed => exact hdirected.solver
  case steps => exact hsteps
  case keeps => exact keepsDirection_step hstep
  case costed => exact hcosted.solver
  case mem =>
    intro hacc
    rw [hsearch] at hacc
    have hmem : a ∈ r₁.solver.search.alphas := (Solver.searchStep_accepted hres hacc).1
    rwa [hkept.search] at hmem

theorem searched_of_unassessed (h : r.Holds Solver.Sound)
    (hr' : r.unassessed fuel iter = .next r') :
    ∃ s a t xreg ureg, r.Searched s a t ∧ r'.solver = { t with xreg, ureg } := by
  obtain ⟨r₂, hr₂, hadapt⟩ := Flow.andThen_eq_next hr'
  obtain ⟨s, a, hsearched⟩ := searched_of_step h hr₂
  obtain ⟨xreg, ureg, hs⟩ := solver_adapt hadapt
  exact ⟨s, a, r₂.solver, xreg, ureg, hsearched, hs⟩

theorem fits_of_unassessed (hf : r.solver.Fits) (h : r.unassessed fuel iter = .next r') :
    r'.solver.problem.Fits r'.solver.knots r.solver.candidate.xs r.solver.candidate.us := by
  have hkept := preserved_unassessed fuel iter r
  rw [h] at hkept
  have hproblem : r'.solver.problem = r.solver.problem := hkept.problem
  refine ⟨(hkept.fits hf).knots, ?_, ?_⟩
  · rw [hproblem]
    exact hf.states
  · rw [hproblem]
    exact hf.controls

end Run

theorem Solver.Steps.of_weights {s t t' : Solver α} {a stop : α} {xreg ureg : Weight α}
    {stats : Stats α} (h : s.Steps a t) (ht : t' = { t with xreg, ureg, stop, stats }) :
    s.Steps a t' := by
  subst ht
  exact ⟨h.steplength, h.current, h.shaped, h.states, h.controls, h.finite, h.decrease, h.rejected⟩

end Gaps

variable {K : Type} [ExactScalar K]

theorem Problem.Gapless.violation_eq_zero {p : Problem K} {ks : Knots K} {xs us : List (Vec K)}
    (hg : p.Gapless xs us) (hl : p.LinearizedAt xs us ks) (hf : p.Fits ks xs us) :
    (p.program ks xs).violation p.layout = 0 := by
  refine LinearQuadratic.violation_eq_zero_iff.mpr fun t ht => ?_
  ext i
  rw [Layout.stateAt, Vec.toFun_apply, List.getD_eq_getElem?_getD]
  cases hi : ((p.gaps ks xs).getD t [])[(i : ℕ)]? with
  | none => rfl
  | some a => exact hg.getD_gaps hl hf ht a (List.mem_of_getElem? hi)

/-- A solver whose direction is the solution of its system, the Hessian block of which is positive
definite. -/
structure Solver.HasDirection (s : Solver K) : Prop where
  current : s.SystemIsCurrent
  symmetric : (s.system.hessian s.layout)ᵀ = s.system.hessian s.layout
  positive : PositiveDefinite (s.system.hessian s.layout)
  independent : IndependentRows (s.system.constraint s.layout)
  length_primal : s.direction.primal.length = s.layout.nprimal
  length_dual : s.direction.dual.length = s.layout.ndx
  stationary : Stationary (s.system.hessian s.layout) (s.system.constraint s.layout)
    (s.system.gradient s.layout) (s.system.violation s.layout)
    (Vec.toFun _ s.direction.primal) (Vec.toFun _ s.direction.dual)

namespace Solver

variable {s s' : Solver K}

theorem SystemIsCurrent.hasDirection (h : s.SystemIsCurrent) (hp : s.problem.SymmetricHessians)
    (hs : s.factorize = (s', .noError)) : s'.HasDirection := by
  obtain ⟨f, hf⟩ := h.assembled.saddlePoint hp
  have hsome := s.factorize_snd.mp (congrArg Prod.snd hs)
  have hcurrent : s'.SystemIsCurrent := by
    have hfactor := h.factorize
    rwa [hs] at hfactor
  obtain ⟨primal, dual, hsolve, rfl⟩ := factorize_eq_noError hs
  obtain ⟨hprimal, hdual, hst⟩ := hf.stationary_of_solve? hsolve
  exact ⟨hcurrent, hf.hessian_transpose, hf.isSome_solve?_iff.mp hsome, hf.independent, hprimal,
    hdual, hst⟩

theorem Fits.hasDirection (hf : s.Fits) (hp : s.problem.SymmetricHessians) {relinearize : Bool}
    (hs : relinearize = false → s.SystemIsCurrent)
    (h : s.computeDirection relinearize = (s', .ok .noError)) : s'.HasDirection := by
  obtain ⟨s₁, hcurrent, hprob, -, hfactor⟩ := hf.system_computeDirection hs h
  exact hcurrent.hasDirection (hprob ▸ hp) hfactor

theorem SystemIsCurrent.violation_eq_zero (h : s.SystemIsCurrent) (hf : s.Fits)
    (hg : s.problem.Gapless s.candidate.xs s.candidate.us) : s.system.violation s.layout = 0 := by
  obtain ⟨ks, hl, xr, ur, hs⟩ := h
  have hfits : s.problem.Fits ks s.candidate.xs s.candidate.us :=
    ⟨hl.running.length_eq, hf.states, hf.controls⟩
  rw [hs]
  exact hg.violation_eq_zero hl hfits

end Solver

namespace Run

variable {r r' : Run K} {fuel iter : ℕ}

/-- A direction found in an iteration solves the system of the trajectory that it starts from. -/
theorem hasDirection_factorize (hf : r.solver.Fits) (hp : r.solver.problem.SymmetricHessians)
    (h : factorize fuel true r = .next r') : r'.solver.HasDirection := by
  obtain ⟨s₁, halong, hprob, hcand, hfactor⟩ := @factorize_eq_next _ _ r r' fuel true hf nofun h
  have hcurrent : s₁.SystemIsCurrent := Solver.LinearizedAlong.systemIsCurrent (hcand ▸ halong)
  exact hcurrent.hasDirection (hprob ▸ hp) hfactor

end Run
end Shooting
