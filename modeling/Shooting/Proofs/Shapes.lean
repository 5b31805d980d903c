import Shooting.Proofs.Blocks
import Shooting.Proofs.Trail

/-! # The shape of a solver

Every vector and matrix that a solver holds has a size that the problem fixes. Operations rewrite
them in part or as a whole, some only on success, some before a fault, and none of them leaves
anything of another size behind, also on the way through a solve. A direction that has been computed
is the solution of the system, cut into knots.
-/

namespace Shooting

variable {α : Type} [Scalar α]

omit [Scalar α] in
theorem Mat.length_row_setDiagonal {M : Mat α} {n : ℕ} (h : ∀ row ∈ M, row.length = n) (d : Vec α) :
    ∀ row ∈ setDiagonal M d, row.length = n := by
  intro row hrow
  obtain ⟨i, hi, rfl⟩ := List.mem_mapIdx.mp hrow
  have hlen := h M[i] (List.getElem_mem hi)
  split
  · rw [List.length_set, hlen]
  · exact hlen

namespace System

structure Sized (l : Layout) (s : System α) : Prop where
  matrix : s.matrix.length = l.size
  rows : ∀ row ∈ s.matrix, row.length = l.size
  residual : s.residual.length = l.size

theorem sized_zero (l : Layout) : (zero l : System α).Sized l where
  matrix := Mat.length_ofFn _ _ _
  rows := by
    intro row hrow
    obtain ⟨i, -, rfl⟩ := List.mem_map.mp hrow
    simp
  residual := Vec.length_zeros _

theorem sized_assemble (l : Layout) (ks : Knots α) (gaps : List (Vec α)) :
    (assemble l ks gaps).Sized l where
  matrix := by rw [assemble, List.length_map, Layout.length_slots_eq]
  rows := by
    intro row hrow
    obtain ⟨σ, -, rfl⟩ := List.mem_map.mp hrow
    rw [List.length_map, Layout.length_slots_eq]
  residual := by rw [assemble, List.length_map, Layout.length_slots_eq]

theorem Sized.damp {l : Layout} {s : System α} (h : s.Sized l) (n : ℕ) (xreg ureg : Weight α) :
    (s.damp n xreg ureg).Sized l :=
  ⟨(Mat.length_setDiagonal _ _).trans h.matrix, Mat.length_row_setDiagonal h.rows _, h.residual⟩

end System

namespace Direction

structure Sized (l : Layout) (d : Direction α) : Prop where
  dxs : d.dxs.map List.length = l.ndxs
  dus : d.dus.map List.length = l.nus
  lambdas : d.lambdas.map List.length = l.ndxs
  primal : d.primal.length = l.nprimal
  dual : d.dual.length = l.ndx
  primalDual : d.primalDual.length = l.size
  joined : d.primalDual = d.primal ++ d.dual

/-- The pieces make up the solution. -/
structure Whole (d : Direction α) : Prop where
  increments : d.dxs.flatten ++ d.dus.flatten = d.primal
  multipliers : d.lambdas.flatten = d.dual

variable {l : Layout} {primal dual : Vec α}

omit [Scalar α] in
theorem length_joined (hp : primal.length = l.nprimal) (hd : dual.length = l.ndx) :
    (primal ++ dual).length = l.size := by
  rw [List.length_append, hp, hd, Layout.size_eq]

omit [Scalar α] in
theorem sized_ofSolution (hp : primal.length = l.nprimal) (hd : dual.length = l.ndx) :
    (ofSolution l primal dual).Sized l where
  dxs := Layout.lengths_split (Layout.length_take_ndx hp)
  dus := Layout.lengths_split (Layout.length_drop_ndx hp)
  lambdas := Layout.lengths_split hd
  primal := hp
  dual := hd
  primalDual := length_joined hp hd
  joined := rfl

omit [Scalar α] in
theorem whole_ofSolution (hp : primal.length = l.nprimal) (hd : dual.length = l.ndx) :
    (ofSolution l primal dual).Whole where
  increments := by
    change (Layout.split _ _).flatten ++ (Layout.split _ _).flatten = primal
    rw [Layout.flatten_split (Layout.length_take_ndx hp),
      Layout.flatten_split (Layout.length_drop_ndx hp), List.take_append_drop]
  multipliers := Layout.flatten_split hd

end Direction

namespace Solver

structure Sized (p : Problem α) (s : Solver α) : Prop where
  problem : s.problem = p
  candidate : p.Shaped s.candidate.xs s.candidate.us
  attempt : p.Shaped s.attempt.xs s.attempt.us
  system : s.system.Sized (.ofProblem p)
  direction : s.direction.Sized (.ofProblem p)

variable {p : Problem α} {s s' t : Solver α}

theorem Sized.solution (h : s.Sized p) {primal dual : Vec α}
    (hsolve : RangeSpace.solve? s.system.matrix s.system.residual s.layout.nprimal =
      some (primal, dual)) :
    primal.length = (Layout.ofProblem p).nprimal ∧ dual.length = (Layout.ofProblem p).ndx := by
  rw [layout, h.problem] at hsolve
  have hmatrix := h.system.matrix
  rw [Layout.size_eq] at hmatrix
  constructor
  · exact RangeSpace.length_of_solve? hsolve (by omega)
  · rw [RangeSpace.length_dual_of_solve? hsolve]
    omega

theorem Sized.linearize (h : s.Sized p) : s.linearize.1.Sized p := by
  have hlayout : s.layout = .ofProblem p := congrArg Layout.ofProblem h.problem
  unfold Solver.linearize
  split
  · exact ⟨h.problem, h.candidate, h.attempt, h.system, h.direction⟩
  · refine ⟨h.problem, h.candidate, h.attempt, ?_, h.direction⟩
    rw [hlayout]
    exact (System.sized_assemble _ _ _).damp _ _ _

theorem Sized.redamp (h : s.Sized p) : s.redamp.Sized p :=
  ⟨h.problem, h.candidate, h.attempt, h.system.damp _ _ _, h.direction⟩

theorem Sized.factorize (h : s.Sized p) : s.factorize.1.Sized p := by
  have hlayout : s.layout = .ofProblem p := congrArg Layout.ofProblem h.problem
  rw [factorize_eq]
  cases hsolve : RangeSpace.solve? s.system.matrix s.system.residual s.layout.nprimal with
  | none => exact h
  | some r =>
    obtain ⟨hp, hd⟩ := h.solution hsolve
    refine ⟨h.problem, h.candidate, h.attempt, h.system, ?_⟩
    rw [hlayout]
    exact Direction.sized_ofSolution hp hd

theorem Sized.whole_factorize (h : s.Sized p) (hs : s.factorize = (s', .noError)) :
    s'.direction.Whole := by
  obtain ⟨primal, dual, hsolve, rfl⟩ := factorize_eq_noError hs
  obtain ⟨hp, hd⟩ := h.solution hsolve
  rw [← h.problem] at hp hd
  exact Direction.whole_ofSolution hp hd

theorem Sized.computeDirection (h : s.Sized p) (relinearize : Bool) :
    (s.computeDirection relinearize).1.Sized p := by
  have hl := h.linearize
  unfold Solver.computeDirection
  split
  · split <;> rename_i hs <;> rw [hs] at hl
    · exact hl
    · exact hl.factorize
  · exact h.redamp.factorize

/-- A direction that has been computed is the solution, cut into knots. -/
theorem Sized.whole_computeDirection (h : s.Sized p) {relinearize : Bool}
    (hs : s.computeDirection relinearize = (s', .ok .noError)) : s'.direction.Whole := by
  have hl := h.linearize
  unfold Solver.computeDirection at hs
  split at hs
  · split at hs <;> rename_i hlin <;> rw [hlin] at hl
    · cases hs
    · obtain ⟨rfl, hcode⟩ := Prod.mk.inj hs
      exact hl.whole_factorize (Prod.ext rfl (Except.ok.inj hcode))
  · obtain ⟨rfl, hcode⟩ := Prod.mk.inj hs
    exact h.redamp.whole_factorize (Prod.ext rfl (Except.ok.inj hcode))

/-- A direction found on its own replaces the solution, and leaves the pieces as they were. -/
theorem Sized.solveSystem (h : s.Sized p) : s.solveSystem.1.Sized p := by
  unfold Solver.solveSystem
  split
  · exact h
  · rename_i primal dual hsolve
    obtain ⟨hp, hd⟩ := h.solution hsolve
    exact ⟨h.problem, h.candidate, h.attempt, h.system,
      { h.direction with
        primal := hp
        dual := hd
        primalDual := Direction.length_joined hp hd
        joined := rfl }⟩

theorem Sized.tryStep (h : s.Sized p) (a : α) : (s.tryStep a).1.Sized p := by
  have htrial : p.Shaped (s.trialAt a).xs (s.trialAt a).us := by
    rw [trialAt, h.problem]
    exact Problem.shaped_trial a h.candidate h.direction.dxs h.direction.dus
  obtain ⟨knots, cost, heq⟩ := s.tryStep_fst a
  rw [heq]
  exact ⟨h.problem, h.candidate, htrial, h.system, h.direction⟩

theorem Sized.promote (h : s.Sized p) : s.promote.1.Sized p := by
  have hattempt : s.problem.Shaped s.attempt.xs s.attempt.us := h.problem.symm ▸ h.attempt
  rw [promote_shaped hattempt]
  exact ⟨h.problem, h.attempt, h.attempt, h.system, h.direction⟩

theorem Sized.moves (h : s.Sized p) (hst : s.Moves t) : t.Sized p := by
  cases hst with
  | directs relinearize => exact h.computeDirection relinearize
  | tries a => exact h.tryStep a
  | promotes => exact h.promote
  | _ => exact ⟨h.problem, h.candidate, h.attempt, h.system, h.direction⟩

section History

variable {xs us : List (Tensor α)} {fuel : ℕ} {maxiter : ℤ} {feasible : Bool} {reginit : Weight α}

theorem Sized.begun (h : s.Sized p) {c : Trajectory α} (hc : p.Shaped c.xs c.us) :
    (s.begun c feasible reginit).Sized p :=
  ⟨h.problem, hc, h.attempt, h.system, h.direction⟩

theorem Sized.solveStates (h : s.Sized p) (hx : ∀ a ∈ xs, a.Valid) (hu : ∀ a ∈ us, a.Valid) :
    ∀ t ∈ s.solveStates fuel xs us maxiter feasible reginit, t.Sized p := by
  refine forall_solveStates (fun _ _ hab ha => ha.moves hab) fun c hc => h.begun ?_
  rw [h.problem] at hc
  exact Problem.shaped_trajectory hc hx hu

theorem Sized.setCandidate (h : s.Sized p) (hx : ∀ a ∈ xs, a.Valid) (hu : ∀ a ∈ us, a.Valid)
    (feasible : Bool) : (s.setCandidate xs us feasible).1.Sized p := by
  unfold Solver.setCandidate
  split
  · exact h
  · rename_i c hc
    rw [h.problem] at hc
    exact ⟨h.problem, Problem.shaped_trajectory hc hx hu, h.attempt, h.system, h.direction⟩

theorem Sized.solve (h : s.Sized p) (hx : ∀ a ∈ xs, a.Valid) (hu : ∀ a ∈ us, a.Valid) :
    (s.solve fuel xs us maxiter feasible reginit).1.solver.Sized p := by
  cases hc : s.problem.trajectory xs us with
  | error f =>
    rw [solve_refused hc]
    exact ⟨h.problem, h.candidate, h.attempt, h.system, h.direction⟩
  | ok c => exact h.solveStates hx hu _ (solver_mem_solveStates hc)

end History

end Solver

/-- The arrays that an operation is given have as many entries as their shapes have places. -/
def Operation.Valid : Operation α → Prop
  | .setCandidate xs us _ => (∀ a ∈ xs, a.Valid) ∧ ∀ a ∈ us, a.Valid
  | .solve _ xs us _ _ _ => (∀ a ∈ xs, a.Valid) ∧ ∀ a ∈ us, a.Valid
  | _ => True

namespace Solver

variable {p : Problem α} {s : Solver α}

theorem Sized.perform (h : s.Sized p) {op : Operation α} (hop : op.Valid) :
    (s.perform op).Sized p := by
  cases op with
  | setCandidate xs us feasible => exact h.setCandidate hop.1 hop.2 feasible
  | linearize => exact h.linearize
  | computeDirection relinearize => exact h.computeDirection relinearize
  | solveSystem => exact h.solveSystem
  | tryStep a => exact h.tryStep a
  | solve => exact h.solve hop.1 hop.2
  | _ => exact ⟨h.problem, h.candidate, h.attempt, h.system, h.direction⟩

theorem Sized.after (h : s.Sized p) {ops : List (Operation α)} (hops : ∀ op ∈ ops, op.Valid) :
    (s.after ops).Sized p := by
  induction ops generalizing s with
  | nil => exact h
  | cons op ops ih =>
    obtain ⟨hop, hops⟩ := List.forall_mem_cons.mp hops
    exact ih (h.perform hop) hops

end Solver

theorem Problem.WellFormed.shaped_default {p : Problem α} (h : p.WellFormed) :
    p.Shaped p.defaultStates p.defaultControls := by
  constructor
  · obtain ⟨m, ms, hms⟩ := List.exists_cons_of_length_pos h.horizon
    have hx0 : p.x0.length = m.state.nx := h.initial m (by rw [hms]; rfl)
    simp [defaultStates, models, hms, hx0, Function.comp_def]
  · simp [defaultControls, Function.comp_def]

namespace Direction

theorem sized_zeros (l : Layout) :
    Sized l
      { primal := Vec.zeros l.nprimal
        dual := Vec.zeros l.ndx
        primalDual := Vec.zeros l.size
        dxs := l.ndxs.map Vec.zeros
        dus := l.nus.map Vec.zeros
        lambdas := l.ndxs.map Vec.zeros : Direction α } := by
  have hlengths (dims : List ℕ) :
      (dims.map (Vec.zeros : ℕ → Vec α)).map List.length = dims := by
    simp [Function.comp_def]
  refine ⟨hlengths _, hlengths _, hlengths _, Vec.length_zeros _, Vec.length_zeros _,
    Vec.length_zeros _, ?_⟩
  dsimp only
  rw [Layout.size_eq]
  exact List.replicate_add _ _ _

end Direction

namespace Solver

variable {p : Problem α}

theorem sized_create (hp : p.WellFormed) (o : Options α) : (create p o).Sized p where
  problem := rfl
  candidate := hp.shaped_default
  attempt := hp.shaped_default
  system := System.sized_zero _
  direction := Direction.sized_zeros _

/-- Whatever a solver goes through, what it holds keeps its size, also between the operations of a
solve, and a direction that is computed at any time is the solution, cut into knots. -/
theorem sized_after {x0 : Tensor α} (hx0 : x0.Valid) {running : List (Model α)}
    {terminal : Model α} (hbuild : Problem.build x0 running terminal = .ok p) (o : Options α)
    (ops : List (Operation α)) (hops : ∀ op ∈ ops, op.Valid) :
    let s := (create p o).after ops
    s.Sized p ∧
      (∀ relinearize s', s.computeDirection relinearize = (s', .ok .noError) →
        s'.direction.Whole) ∧
      ∀ (fuel : ℕ) (xs us : List (Tensor α)) (maxiter : ℤ) (feasible : Bool) (reginit : Weight α),
        (∀ a ∈ xs, a.Valid) → (∀ a ∈ us, a.Valid) →
        ∀ t ∈ s.solveStates fuel xs us maxiter feasible reginit,
          t.Sized p ∧ ∀ relinearize t', t.computeDirection relinearize = (t', .ok .noError) →
            t'.direction.Whole := by
  intro s
  have hs : s.Sized p := (sized_create (Problem.wellFormed_of_build hx0 hbuild) o).after hops
  refine ⟨hs, fun _ _ => hs.whole_computeDirection, ?_⟩
  intro fuel xs us maxiter feasible reginit hx hu t ht
  have hsized : t.Sized p := hs.solveStates hx hu t ht
  exact ⟨hsized, fun _ _ => hsized.whole_computeDirection⟩

theorem sized_after_integrator :
    let p : Problem ℝ := .integrator [1, 2] 2
    let xs : List (Vec ℝ) := [[1, 2], [3, 4], [5, 6]]
    let us : List (Vec ℝ) := [[0, 1], [1, 0]]
    let past := [.setCandidate (xs.map .ofVec) [] false, .solveSystem, .tryStep 1]
    let s := (create p .lenient).after (past ++ [.setCallbacks [.recorder]])
    s.Sized p ∧
      ∃ t ∈ s.solveStates 1 (xs.map .ofVec) (us.map .ofVec) 5 false none, ∃ t',
        t.computeDirection true = (t', .ok .noError) ∧ t.Sized p ∧ t'.direction.Whole := by
  intro p xs us past s
  have hbuild : Problem.build (.ofVec [1, 2]) [.integrator 2, .integrator 2] (.resting 2) =
      .ok p := rfl
  have hvalid (vs : List (Vec ℝ)) : ∀ a ∈ vs.map Tensor.ofVec, a.Valid := Tensor.valid_of_mem_map vs
  have hshaped : p.Shaped xs us := ⟨rfl, rfl⟩
  have hproblem : s.problem = p := problem_after _
  have hs : s = { (create p .lenient).after past with callbacks := [.recorder] } := by
    simp only [s, after, List.foldl_append]
    rfl
  obtain ⟨hsized, -, hstates⟩ := sized_after (Tensor.valid_ofVec _) hbuild .lenient
    (past ++ [.setCallbacks [.recorder]]) (by simp [past, Operation.Valid, Tensor.valid_ofVec])
  have hbegun : s.begun { xs, us } false none ∈
      s.solveStates 1 (xs.map .ofVec) (us.map .ofVec) 5 false none := by
    obtain ⟨rest, heq, -⟩ :=
      trail_moves (hproblem ▸ Problem.trajectory_ofVec hshaped) 1 5 false none
    rw [heq]
    exact List.mem_cons_self
  have hready : (s.begun { xs, us } false none).Ready := by
    rw [hs]
    exact ready_begun Options.fault?_lenient rfl past (by decide) hshaped false
  have hwell : p.WellFormed := Problem.wellFormed_of_build (Tensor.valid_ofVec _) hbuild
  obtain ⟨t', hdirection⟩ : ∃ t', (s.begun { xs, us } false none).computeDirection true =
      (t', .ok .noError) := by
    -- the solver is held fixed from here on, or its past would be run through again
    clear_value s
    obtain ⟨t', hdirection, -⟩ := hready.searchStep_infeasible
      (hproblem ▸ Problem.linearQuadratic_integrator) (hproblem ▸ hwell)
      (hproblem ▸ Problem.strictlyConvex_integrator) rfl
    exact ⟨t', hdirection⟩
  obtain ⟨ht, hwhole⟩ := hstates 1 _ _ 5 false none (hvalid xs) (hvalid us) _ hbegun
  exact ⟨hsized, _, hbegun, t', hdirection, ht, hwhole true t' hdirection⟩

end Solver
end Shooting
