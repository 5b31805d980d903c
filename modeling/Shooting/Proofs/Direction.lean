import Shooting.Proofs.Integrator
import Shooting.Proofs.History

/-! # The computed direction

Over exact scalars a direction is computed exactly if the damped Hessian is positive definite. It
then satisfies the optimality conditions of the linearized problem, knot by knot, and no other
direction does.
-/

namespace Shooting

open Matrix

section Success

variable {α : Type} [Scalar α] {s s' : Solver α}

def Direction.ofSolution (l : Layout) (primal dual : Vec α) : Direction α where
  primal
  dual
  primalDual := primal ++ dual
  dxs := Layout.split l.ndxs (primal.take l.ndx)
  dus := Layout.split l.nus (primal.drop l.ndx)
  lambdas := Layout.split l.ndxs dual

theorem Solver.linearize_eq_ok {c : α} (h : s.linearize = (s', .ok c)) :
    ∃ knots, s.problem.linearize s.knots s.candidate.xs s.candidate.us = (knots, .ok c) ∧
      s' = { s with
        knots
        cost := c
        system := (System.assemble s.layout knots (s.problem.gaps knots s.candidate.xs)).damp
          s.layout.ndx s.xreg s.ureg } := by
  unfold linearize at h
  rcases hl : s.problem.linearize s.knots s.candidate.xs s.candidate.us with ⟨knots, f | c'⟩
  · rw [hl] at h
    cases h
  · rw [hl] at h
    cases h
    exact ⟨knots, rfl, rfl⟩

theorem Solver.solveSystem_eq_noError (h : s.solveSystem = (s', .noError)) :
    ∃ primal dual,
      RangeSpace.solve? s.system.matrix s.system.residual s.layout.nprimal = some (primal, dual) ∧
        s' = { s with
          direction := { s.direction with primal, dual, primalDual := primal ++ dual } } := by
  unfold solveSystem at h
  rcases hr : RangeSpace.solve? s.system.matrix s.system.residual s.layout.nprimal with _ | ⟨pr, du⟩
  · rw [hr] at h
    cases h
  · rw [hr] at h
    cases h
    exact ⟨pr, du, rfl, rfl⟩

theorem Solver.factorize_eq (s : Solver α) : s.factorize =
    match RangeSpace.solve? s.system.matrix s.system.residual s.layout.nprimal with
    | none => (s, .choleskyFailed)
    | some (primal, dual) => ({ s with direction := .ofSolution s.layout primal dual }, .noError) := by
  unfold factorize solveSystem
  cases RangeSpace.solve? s.system.matrix s.system.residual s.layout.nprimal <;> rfl

theorem Solver.factorize_eq_noError (h : s.factorize = (s', .noError)) :
    ∃ primal dual,
      RangeSpace.solve? s.system.matrix s.system.residual s.layout.nprimal = some (primal, dual) ∧
        s' = { s with direction := .ofSolution s.layout primal dual } := by
  rw [factorize_eq] at h
  rcases hr : RangeSpace.solve? s.system.matrix s.system.residual s.layout.nprimal with _ | ⟨pr, du⟩
  · rw [hr] at h
    cases h
  · rw [hr] at h
    cases h
    exact ⟨pr, du, rfl, rfl⟩

theorem Solver.factorize_of_ne (h : s.factorize.2 ≠ .noError) :
    s.factorize = (s, .choleskyFailed) := by
  rw [factorize_eq] at h ⊢
  cases hr : RangeSpace.solve? s.system.matrix s.system.residual s.layout.nprimal with
  | none => rfl
  | some r =>
    rw [hr] at h
    exact absurd rfl h

/-- A direction is looked for in the last linearization or in a new one, which has then succeeded. -/
theorem Solver.computeDirection_eq_ok {relinearize : Bool} {code : ErrorCode}
    (h : s.computeDirection relinearize = (s', .ok code)) :
    (relinearize = false ∧ s.redamp.factorize = (s', code)) ∨
      (relinearize = true ∧
        ∃ s₁ c, s.linearize = (s₁, .ok c) ∧ s₁.factorize = (s', code)) := by
  unfold computeDirection at h
  cases relinearize with
  | false =>
    cases h
    exact .inl ⟨rfl, rfl⟩
  | true =>
    rw [if_pos rfl] at h
    split at h
    · cases h
    · rename_i s₁ c hl
      cases h
      exact .inr ⟨rfl, s₁, c, hl, rfl⟩

theorem Solver.computeDirection_eq_noError (h : s.computeDirection true = (s', .ok .noError)) :
    ∃ s₁ c primal dual, s.linearize = (s₁, .ok c) ∧
      RangeSpace.solve? s₁.system.matrix s₁.system.residual s.layout.nprimal =
        some (primal, dual) ∧
      s' = { s₁ with direction := .ofSolution s.layout primal dual } := by
  obtain ⟨⟨⟩, -⟩ | ⟨-, s₁, c, hl, hf⟩ := computeDirection_eq_ok h
  have hlay : s₁.layout = s.layout := by
    obtain ⟨knots, -, rfl⟩ := linearize_eq_ok hl
    rfl
  obtain ⟨pr, du, hpd, rfl⟩ := factorize_eq_noError hf
  exact ⟨s₁, c, pr, du, hl, hlay ▸ hpd, hlay ▸ rfl⟩

theorem Solver.computeDirection_of_linearize {c : α} (h : s.linearize = (s', .ok c))
    (he : s'.solveSystem.2 = .noError) : ∃ t, s.computeDirection true = (t, .ok .noError) := by
  have hpair : s'.solveSystem = (s'.solveSystem.1, .noError) := Prod.ext rfl he
  unfold computeDirection factorize
  rw [if_pos rfl, h]
  dsimp only
  rw [hpair]
  exact ⟨_, rfl⟩

end Success

variable {K : Type} [ExactScalar K] {p : Problem K}

omit [ExactScalar K] in
theorem Mat.length_grid {l : Layout} {f : Slot → Slot → K} :
    (Mat.grid l.slots l.slots f).length = l.nprimal + l.ndx ∧
      ∀ row ∈ Mat.grid l.slots l.slots f, l.nprimal ≤ row.length := by
  have hlen := l.length_slots
  constructor
  · simp [Mat.grid, hlen]
  · intro row hr
    obtain ⟨σ, -, rfl⟩ := List.mem_map.mp hr
    simp [hlen]

namespace System

variable {l : Layout} {s : System K} {f : Slot → Slot → K}
  (hm : s.matrix = Mat.grid l.slots l.slots f)

include hm

theorem isSome_solve?_iff_lower (hi : IndependentRows (s.constraint l)) :
    (RangeSpace.solve? s.matrix s.residual l.nprimal).isSome ↔
      PositiveDefinite (Mat.lower l.nprimal s.matrix) := by
  obtain ⟨hlen, hrow⟩ : s.matrix.length = l.nprimal + l.ndx ∧
      ∀ row ∈ s.matrix, l.nprimal ≤ row.length := hm ▸ Mat.length_grid
  rw [RangeSpace.isSome_solve?_iff hlen hrow, RangeSpace.toMatrix_constraintRows]
  exact and_iff_left hi

theorem stationary_lower_of_solve? (hr : s.residual.length = l.nprimal + l.ndx)
    {primal dual : Vec K}
    (hs : RangeSpace.solve? s.matrix s.residual l.nprimal = some (primal, dual)) :
    primal.length = l.nprimal ∧ dual.length = l.ndx ∧
      Stationary (Mat.lower l.nprimal s.matrix) (s.constraint l) (s.gradient l) (s.violation l)
        (Vec.toFun _ primal) (Vec.toFun _ dual) := by
  obtain ⟨hlen, hrow⟩ : s.matrix.length = l.nprimal + l.ndx ∧
      ∀ row ∈ s.matrix, l.nprimal ≤ row.length := hm ▸ Mat.length_grid
  have := RangeSpace.stationary_of_solve? hlen hrow hr hs
  rwa [RangeSpace.toMatrix_constraintRows] at this

end System

/-- A system over the slots of a layout, with a symmetric Hessian block and independent
constraints. -/
structure System.SaddlePoint (l : Layout) (s : System K) (f : Slot → Slot → K) : Prop where
  symm : ∀ σ ∈ l.increments, ∀ τ ∈ l.increments, f σ τ = f τ σ
  matrix : s.matrix = Mat.grid l.slots l.slots f
  residual : s.residual.length = l.nprimal + l.ndx
  independent : IndependentRows (s.constraint l)

namespace System.SaddlePoint

variable {l : Layout} {s : System K} {f : Slot → Slot → K} (h : s.SaddlePoint l f)

include h

theorem length_matrix : s.matrix.length = l.nprimal + l.ndx ∧
    ∀ row ∈ s.matrix, l.nprimal ≤ row.length := by
  rw [h.matrix]
  exact Mat.length_grid

theorem isSome_solve?_iff : (RangeSpace.solve? s.matrix s.residual l.nprimal).isSome ↔
    PositiveDefinite (s.hessian l) := by
  rw [System.isSome_solve?_iff_lower h.matrix h.independent, System.lower_eq_hessian h.matrix h.symm]

/-- If the first factorization succeeds, so does the second. -/
theorem isSome_factor?_gram {L : Mat K}
    (hL : Cholesky.factor? (s.matrix.take l.nprimal) = some L) :
    (Cholesky.factor? (RangeSpace.gram (RangeSpace.constraintRows s.matrix l.nprimal)
      ((RangeSpace.constraintRows s.matrix l.nprimal).map (Cholesky.solve L)))).isSome := by
  obtain ⟨hlen, hrow⟩ := h.length_matrix
  rw [RangeSpace.isSome_factor?_gram_iff hlen hrow hL, RangeSpace.toMatrix_constraintRows]
  exact h.independent

theorem stationary_of_solve? {primal dual : Vec K}
    (hs : RangeSpace.solve? s.matrix s.residual l.nprimal = some (primal, dual)) :
    primal.length = l.nprimal ∧ dual.length = l.ndx ∧
      Stationary (s.hessian l) (s.constraint l) (s.gradient l) (s.violation l)
        (Vec.toFun _ primal) (Vec.toFun _ dual) := by
  rw [← System.lower_eq_hessian h.matrix h.symm]
  exact System.stationary_lower_of_solve? h.matrix h.residual hs

theorem hessian_transpose : (s.hessian l)ᵀ = s.hessian l := by
  rw [← System.lower_eq_hessian h.matrix h.symm, Mat.lower_transpose]

end System.SaddlePoint

theorem System.saddlePoint_damp_assemble {l : Layout} {ks : Knots K} {gaps : List (Vec K)}
    (h : ∀ t, (slopesAt ks t).Symmetric (l.ndxs.getD t 0) (l.nus.getD t 0)) (xr ur : Weight K) :
    ((assemble l ks gaps).damp l.ndx xr ur).SaddlePoint l
      (dampedEntry ks xr.addend ur.addend) where
  symm _ hσ _ hτ := dampedEntry_symm h _ _ hσ hτ
  matrix := matrix_damp_assemble xr ur
  residual := by
    rw [residual_damp_assemble]
    simp
  independent := independentRows_constraint (matrix_damp_assemble xr ur)

theorem Problem.Assembled.saddlePoint {s : System K} (h : p.Assembled s)
    (hp : p.SymmetricHessians) : ∃ f, s.SaddlePoint p.layout f := by
  obtain ⟨xs, us, ks, xr, ur, hks, rfl⟩ := h
  exact ⟨_, System.saddlePoint_damp_assemble (System.symmetric_slopesAt hp hks) xr ur⟩

theorem Solver.assembled_of_linearize {s s' : Solver K} {c : K} (hf : s.Fits)
    (h : s.linearize = (s', .ok c)) : s.problem.Assembled s'.system := by
  obtain ⟨knots, hl, rfl⟩ := linearize_eq_ok h
  exact ⟨_, _, _, _, _, (hf.linearize_ok hl).1, rfl⟩

/-- The solution of a system is the exact one, and there is one if the Hessian is positive definite:
of the two factorizations only the first can fail. -/
structure Solver.SolvesExactly (p : Problem K) (s : Solver K) : Prop where
  noError_iff : s.solveSystem.2 = .noError ↔ PositiveDefinite (s.system.hessian p.layout)
  second_factor : ∀ L, Cholesky.factor? (s.system.matrix.take p.layout.nprimal) = some L →
    (Cholesky.factor? (RangeSpace.gram (RangeSpace.constraintRows s.system.matrix p.layout.nprimal)
      ((RangeSpace.constraintRows s.system.matrix p.layout.nprimal).map (Cholesky.solve L)))).isSome
  independent : IndependentRows (s.system.constraint p.layout)
  minimizer : s.solveSystem.2 = .noError →
    s.solveSystem.1.direction.primal.length = p.layout.nprimal ∧
    UniqueMinimizer (s.system.hessian p.layout) (s.system.constraint p.layout)
      (s.system.gradient p.layout) (s.system.violation p.layout)
      (Vec.toFun _ s.solveSystem.1.direction.primal)
  multiplier : s.solveSystem.2 = .noError →
    s.solveSystem.1.direction.dual.length = p.layout.ndx ∧
    ∀ l, s.system.hessian p.layout *ᵥ Vec.toFun _ s.solveSystem.1.direction.primal +
        (s.system.constraint p.layout)ᵀ *ᵥ l = -s.system.gradient p.layout ↔
      l = Vec.toFun _ s.solveSystem.1.direction.dual

theorem Solver.solveSystem_snd (s : Solver K) : s.solveSystem.2 = .noError ↔
    (RangeSpace.solve? s.system.matrix s.system.residual s.layout.nprimal).isSome := by
  unfold solveSystem
  cases RangeSpace.solve? s.system.matrix s.system.residual s.layout.nprimal <;> simp

theorem Solver.factorize_snd (s : Solver K) : s.factorize.2 = .noError ↔
    (RangeSpace.solve? s.system.matrix s.system.residual s.layout.nprimal).isSome := by
  rw [factorize_eq]
  cases RangeSpace.solve? s.system.matrix s.system.residual s.layout.nprimal <;> simp

theorem Solver.solvesExactly {s : Solver K} (hs : s.problem = p) (hp : p.SymmetricHessians)
    (h : p.Assembled s.system) : s.SolvesExactly p := by
  subst hs
  obtain ⟨f, hf⟩ := h.saddlePoint hp
  have hiff : s.solveSystem.2 = .noError ↔ PositiveDefinite (s.system.hessian s.problem.layout) :=
    s.solveSystem_snd.trans hf.isSome_solve?_iff
  have hpair (he : s.solveSystem.2 = .noError) : s.solveSystem = (s.solveSystem.1, .noError) :=
    Prod.ext rfl he
  refine ⟨hiff, fun L hL => hf.isSome_factor?_gram hL, hf.independent, ?_, ?_⟩
  · intro he
    obtain ⟨primal, dual, hpd, hs'⟩ := solveSystem_eq_noError (hpair he)
    obtain ⟨hlen, -, hst⟩ := hf.stationary_of_solve? hpd
    rw [hs']
    exact ⟨hlen, hst.uniqueMinimizer hf.hessian_transpose (hiff.mp he)⟩
  · intro he
    obtain ⟨primal, dual, hpd, hs'⟩ := solveSystem_eq_noError (hpair he)
    obtain ⟨-, hlen, hst⟩ := hf.stationary_of_solve? hpd
    rw [hs']
    exact ⟨hlen, fun l => hst.gradient_iff hf.independent⟩

theorem linearize_integrator : ∃ s c,
    ((Solver.create (Problem.integrator [(1 : ℝ)] 1) .lenient).after
      [.increase, .setWeights none (some 0)]).linearize = (s, .ok c) ∧
    s.xreg.addend = 0 ∧ s.ureg.addend = 0 := ⟨_, _, rfl, rfl, rfl⟩

theorem Problem.positiveDefinite_integrator {s s' : Solver K} {x0 : Vec K} {T : ℕ} {c : K}
    (hf : s.Fits) (hs : s.problem = integrator x0 T) (h : s.linearize = (s', .ok c))
    (hx : s'.xreg.addend = 0) (hu : s'.ureg.addend = 0) :
    PositiveDefinite (s'.system.hessian (integrator x0 T).layout) := by
  obtain ⟨knots, hl, rfl⟩ := Solver.linearize_eq_ok h
  have hks := hs ▸ (hf.linearize_ok hl).1
  have hone := hessian_integrator hks (s.problem.gaps knots s.candidate.xs)
    (congrArg Problem.layout hs)
  rw [← System.hessian_damp_zero _ _ _ hx hu] at hone
  dsimp only
  rw [← hs]
  exact hone ▸ Mat.positiveDefinite_one _

/-- Once a linearization has succeeded, whatever happens to the solver before and after. -/
theorem solvesExactly_after_linearize (hp : p.SymmetricHessians) (o : Options K)
    (before later : List (Operation K)) {s : Solver K} {c : K}
    (h : ((Solver.create p o).after before).linearize = (s, .ok c)) :
    (s.after later).SolvesExactly p := by
  have hf := Solver.fits_after (p := p) (o := o) before
  have hprob := Solver.problem_after (p := p) (o := o) before
  have hs := Solver.assembled_of_linearize hf h
  have hlin := ((Solver.create p o).after before).preserved_linearize
  rw [h] at hlin
  have hlater := Solver.preserved_after s later
  have ha := hlater.assembled (hlin.fits hf) (by rwa [hlin.problem])
  have hprob' : (s.after later).problem = p := hlater.problem.trans (hlin.problem.trans hprob)
  exact Solver.solvesExactly hprob' hp (hprob' ▸ ha)

theorem solvesExactly_integrator : ∃ s c,
    ((Solver.create (Problem.integrator [(1 : ℝ)] 1) .lenient).after
      [.increase, .setWeights none (some 0)]).linearize = (s, .ok c) ∧
    s.solveSystem.2 = .noError ∧
    (s.after [.solveSystem, .measureStop]).SolvesExactly (Problem.integrator [1] 1) := by
  obtain ⟨s, c, h, hx, hu⟩ := linearize_integrator
  have hp := @Problem.symmetricHessians_integrator ℝ _ [1] 1
  have hpos := Problem.positiveDefinite_integrator (Solver.fits_after _) (Solver.problem_after _) h
    hx hu
  refine ⟨s, c, h, ?_, ?_⟩
  · exact (solvesExactly_after_linearize hp _ _ [] h).noError_iff.mpr hpos
  · exact solvesExactly_after_linearize hp _ _ _ h

/-- A direction computed from a new linearization satisfies the optimality conditions of the problem
linearized at the candidate. -/
theorem knotConditions_of_computeDirection (hp : p.SymmetricHessians) (o : Options K)
    (ops : List (Operation K)) {s : Solver K}
    (h : ((Solver.create p o).after ops).computeDirection true = (s, .ok .noError)) :
    s.candidate = ((Solver.create p o).after ops).candidate ∧
      s.xreg = ((Solver.create p o).after ops).xreg ∧
      s.ureg = ((Solver.create p o).after ops).ureg ∧
      p.LinearizedAt s.candidate.xs s.candidate.us s.knots ∧
      s.direction.dxs.map List.length = p.layout.ndxs ∧
      s.direction.dus.map List.length = p.layout.nus ∧
      s.direction.lambdas.map List.length = p.layout.ndxs ∧
      KnotConditions p s.candidate.xs s.knots s.xreg.addend s.ureg.addend s.direction.dxs
        s.direction.dus s.direction.lambdas := by
  have hf := Solver.fits_after (p := p) (o := o) ops
  have hprob := Solver.problem_after (p := p) (o := o) ops
  generalize (Solver.create p o).after ops = s₀ at h hf hprob
  subst hprob
  obtain ⟨s₁, c, primal, dual, hlin, hsolve, rfl⟩ := Solver.computeDirection_eq_noError h
  have ha := Solver.assembled_of_linearize hf hlin
  obtain ⟨knots, hknots, rfl⟩ := Solver.linearize_eq_ok hlin
  obtain ⟨f, hsaddle⟩ := ha.saddlePoint hp
  obtain ⟨hprimal, hdual, hst⟩ := hsaddle.stationary_of_solve? hsolve
  have hks := (hf.linearize_ok hknots).1
  have hfits : s₀.problem.Fits knots s₀.candidate.xs s₀.candidate.us :=
    ⟨hks.running.length_eq, hf.states, hf.controls⟩
  have hslots := (System.stationary_iff (System.matrix_damp_assemble s₀.xreg s₀.ureg)
    (System.residual_damp_assemble s₀.xreg s₀.ureg)
    (z := Slot.value (Layout.split _ (primal.take _)) (Layout.split _ (primal.drop _))
      (Layout.split _ dual))).mp (by
        rwa [Layout.map_value_increments hprimal, Layout.map_value_multipliers hdual])
  refine ⟨rfl, rfl, rfl, hks, ?_, ?_, ?_, SlotConditions.knotConditions hfits hslots⟩
  · exact Layout.lengths_split (Layout.length_take_ndx hprimal)
  · exact Layout.lengths_split (Layout.length_drop_ndx hprimal)
  · exact Layout.lengths_split hdual

theorem computeDirection_integrator : ∃ s,
    ((Solver.create (Problem.integrator [(1 : ℝ)] 1) .lenient).after
      [.increase, .setWeights none (some 0)]).computeDirection true = (s, .ok .noError) := by
  obtain ⟨s₁, c, h, hx, hu⟩ := linearize_integrator
  have hp := @Problem.symmetricHessians_integrator ℝ _ [1] 1
  have hf := @Solver.fits_after ℝ _ (Problem.integrator [1] 1) .lenient
    [.increase, .setWeights none (some 0)]
  have hprob : s₁.problem = Problem.integrator [1] 1 := by
    obtain ⟨knots, -, rfl⟩ := Solver.linearize_eq_ok h
    rfl
  have hpos := Problem.positiveDefinite_integrator hf (Solver.problem_after _) h hx hu
  have ha := Solver.assembled_of_linearize hf h
  have hsolve := (Solver.solvesExactly hprob hp ha).noError_iff.mpr hpos
  exact Solver.computeDirection_of_linearize h hsolve

theorem knotConditions_integrator : ∃ s,
    ((Solver.create (Problem.integrator [(1 : ℝ)] 1) .lenient).after
      [.increase, .setWeights none (some 0)]).computeDirection true = (s, .ok .noError) ∧
    KnotConditions (Problem.integrator [1] 1) s.candidate.xs s.knots s.xreg.addend s.ureg.addend
      s.direction.dxs s.direction.dus s.direction.lambdas := by
  have hp := @Problem.symmetricHessians_integrator ℝ _ [1] 1
  obtain ⟨s, hs⟩ := computeDirection_integrator
  exact ⟨s, hs, (knotConditions_of_computeDirection hp _ _ hs).2.2.2.2.2.2.2⟩

end Shooting
