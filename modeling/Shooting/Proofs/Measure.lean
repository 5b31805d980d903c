import Shooting.Proofs.LastLinearization
import Shooting.Proofs.Residual

/-! # What is measured

The measure of convergence is put together from the derivatives in the records, one knot after the
other. It is the squared residual of the system that the last direction was solved for, however many
trials and searches have come in between, wherever the candidate stands by then, and whatever the
dimensions of the knots are.
-/

namespace Shooting

open Matrix

section Uses

variable {α : Type} [Scalar α]

def Operation.keepsDirection : Operation α → Bool
  | .linearize | .computeDirection _ | .solveSystem | .solve .. => false
  | _ => true

/-- What a direction is there for: operations on the solver that holds it, and searches along it for
any decrease that one may want to see. -/
inductive Use (α : Type)
  | perform (op : Operation α)
  | search (d : α × α) (feasible : Bool)

def Use.keepsDirection : Use α → Bool
  | .perform op => op.keepsDirection
  | .search .. => true

namespace Solver

def use (s : Solver α) : Use α → Solver α
  | .perform op => s.perform op
  | .search d feasible => s.searchAlong d feasible

def used (s : Solver α) (uses : List (Use α)) : Solver α := uses.foldl use s

theorem keepsDirection_perform (s : Solver α) {op : Operation α}
    (hop : op.keepsDirection = true) : s.KeepsDirection (s.perform op) := by
  cases op with
  | setCandidate xs us feasible => exact s.keepsDirection_setCandidate xs us feasible
  | tryStep a => exact s.keepsDirection_tryStep a
  | rollout us => exact ⟨rfl, rfl, rfl, s.problem.sameSlopes_rollout s.knots us⟩
  | setWeights xreg ureg => exact ⟨rfl, rfl, rfl, .refl _⟩
  | setCallbacks callbacks => exact ⟨rfl, rfl, rfl, .refl _⟩
  | increase => exact ⟨rfl, rfl, rfl, .refl _⟩
  | decrease => exact ⟨rfl, rfl, rfl, .refl _⟩
  | predict => exact ⟨rfl, rfl, rfl, .refl _⟩
  | measureStop => exact ⟨rfl, rfl, rfl, .refl _⟩
  | linearize => cases hop
  | computeDirection relinearize => cases hop
  | solveSystem => cases hop
  | solve fuel xs us maxiter feasible reginit => cases hop

theorem keepsDirection_use (s : Solver α) {use : Use α} (h : use.keepsDirection = true) :
    s.KeepsDirection (s.use use) := by
  cases use with
  | perform op => exact s.keepsDirection_perform h
  | search d feasible => exact s.keepsDirection_searchAlong d feasible

theorem keepsDirection_used (s : Solver α) {uses : List (Use α)}
    (h : uses.all Use.keepsDirection = true) : s.KeepsDirection (s.used uses) := by
  induction uses generalizing s with
  | nil => exact .refl s
  | cons use uses ih =>
    rw [List.all_cons, Bool.and_eq_true] at h
    exact (s.keepsDirection_use h.1).trans (ih _ h.2)

end Solver
end Uses

/-- The derivatives of the dynamics have an entry for every coordinate that they are taken in. -/
def Model.ShapedJacobians {α : Type} (m : Model α) : Prop :=
  ∀ x u s, m.deriv x u = .ok s →
    (∀ row ∈ s.fx, row.length = m.state.ndx) ∧ ∀ row ∈ s.fu, row.length = m.nu

def Problem.ShapedJacobians {α : Type} (p : Problem α) : Prop :=
  ∀ m ∈ p.running, m.ShapedJacobians

namespace Mat

variable {α : Type} {m n k : ℕ} {M : Mat α}

structure Sized (m n : ℕ) (M : Mat α) : Prop where
  rows : M.length = m
  columns : ∀ row ∈ M, row.length = n

theorem length_of_mem_ofFn {f : ℕ → ℕ → α} {row : List α} (h : row ∈ ofFn m n f) :
    row.length = n := by
  obtain ⟨i, -, rfl⟩ := List.mem_map.mp h
  simp

theorem sized_ofFn (m n : ℕ) (f : ℕ → ℕ → α) : (ofFn m n f).Sized m n :=
  ⟨length_ofFn m n f, fun _ => length_of_mem_ofFn⟩

theorem Sized.take (h : M.Sized m (n + k)) : Sized m n (M.map (·.take n)) where
  rows := by rw [List.length_map, h.rows]
  columns row hrow := by
    obtain ⟨row, hmem, rfl⟩ := List.mem_map.mp hrow
    simp [h.columns row hmem]

theorem Sized.drop (h : M.Sized m (n + k)) : Sized m k (M.map (·.drop n)) where
  rows := by rw [List.length_map, h.rows]
  columns row hrow := by
    obtain ⟨row, hmem, rfl⟩ := List.mem_map.mp hrow
    simp [h.columns row hmem]

end Mat

theorem Model.shapedJacobians_of_ofExprs {α : Type} [Scalar α] {state : Manifold} {cost : Expr α}
    {dynamics : Option (Dynamics α)} {nu : ℤ} {next : Option Manifold} {guard : Option (Guard α)}
    {m : Model α} (h : ofExprs state cost dynamics nu next guard = .ok m) :
    m.ShapedJacobians := by
  unfold ofExprs at h
  split_ifs at h with hneg hmissing
  cases h
  rintro x u s hs
  cases hs
  cases dynamics with
  | some dynamics =>
    have hsized := Mat.sized_ofFn (α := α) (next.getD state).ndx (state.ndx + nu.toNat)
    exact ⟨(hsized _).take.columns, (hsized _).drop.columns⟩
  | none =>
    have hnu : nu.toNat = 0 := by simpa using hmissing
    have hsized := Mat.sized_ofFn (α := α) state.ndx (state.ndx + 0)
    dsimp only
    rw [hnu]
    exact ⟨(hsized _).take.columns, (hsized _).drop.columns⟩

variable {K : Type} [ExactScalar K] {p : Problem K} {xs us : List (Vec K)}

theorem Problem.shapedJacobians_integrator (x0 : Vec K) (T : ℕ) :
    (integrator x0 T).ShapedJacobians := by
  intro m hm x u s hs
  obtain rfl := List.eq_of_mem_replicate hm
  cases hs
  exact ⟨fun _ => Mat.length_of_mem_ofFn, fun _ => Mat.length_of_mem_ofFn⟩

omit [ExactScalar K] in
theorem Problem.ShapedJacobians.rows {ks : Knots K} (hp : p.ShapedJacobians)
    (hl : p.LinearizedAt xs us ks) : ks.Rows p.layout := by
  have hlen : ks.running.length = p.horizon := hl.running.length_eq
  have hslopes {t : ℕ} {k : Knot K} (hk : ks.running[t]? = some k) :
      (∀ row ∈ k.slopes.fx, row.length = p.layout.ndxAt t) ∧
        ∀ row ∈ k.slopes.fu, row.length = p.layout.nuAt t := by
    have ht : t < p.running.length := (List.getElem?_eq_some_iff.mp hk).1.trans_eq hlen
    have hm := List.getElem?_eq_getElem ht
    obtain ⟨k', x, u, hk', -, -, -, hd⟩ := hl.running.get hm
    obtain rfl : k' = k := Option.some.inj (hk'.symm.trans hk)
    rw [ndxAt_running hm, Layout.nuAt, Layout.getD_nus hm]
    exact hp _ (List.mem_of_getElem? hm) x u _ hd
  constructor
  · exact hlen.trans (Layout.length_nus p).symm
  · exact fun t k hk => (hslopes hk).1
  · exact fun t k hk => (hslopes hk).2

namespace Solver

variable {s : Solver K}

/-- With the records and the system of one linearization, what is measured is the residual of the
system at no increment and the last multipliers. -/
theorem LinearizedAlong.stop_eq (h : s.LinearizedAlong xs us) (hrows : s.knots.Rows s.layout)
    (hlen : s.direction.lambdas.map List.length = s.layout.ndxs) :
    let r := s.system.gradient s.layout +
      (s.system.constraint s.layout)ᵀ *ᵥ Vec.toFun _ s.direction.lambdas.flatten
    s.measureStop.stop =
      r ⬝ᵥ r + s.system.violation s.layout ⬝ᵥ s.system.violation s.layout := by
  obtain ⟨ks, hl, hslopes, xr, ur, hs⟩ := h
  have hmatrix : s.system.matrix = Mat.grid s.layout.slots s.layout.slots
      (System.dampedEntry ks xr.addend ur.addend) := by
    rw [hs]
    exact System.matrix_damp_assemble xr ur
  have hresidual : s.system.residual.length = s.layout.nprimal + s.layout.ndx := by
    rw [hs, System.residual_damp_assemble]
    simp
  refine stop_measureStop hmatrix ?_ hresidual hrows hlen
  rintro τ hτ σ -
  rw [System.dampedEntry_multiplier hτ, System.matrixEntry_congr (System.slopesAt_congr hslopes)]

theorem LinearizedAlong.stop_ofSolution (h : s.LinearizedAlong xs us)
    (hj : s.problem.ShapedJacobians) {primal dual : Vec K} (hdual : dual.length = s.layout.ndx)
    (hd : s.direction = .ofSolution s.layout primal dual) :
    let r := s.system.gradient s.layout +
      (s.system.constraint s.layout)ᵀ *ᵥ Vec.toFun _ s.direction.dual
    s.measureStop.stop =
      r ⬝ᵥ r + s.system.violation s.layout ⬝ᵥ s.system.violation s.layout := by
  have hlambdas : s.direction.lambdas.map List.length = s.layout.ndxs := by
    rw [hd]
    exact Layout.lengths_split hdual
  have hflat : s.direction.lambdas.flatten = s.direction.dual := by
    rw [hd]
    exact Layout.flatten_split hdual
  obtain ⟨ks, hl, hslopes, -⟩ := id h
  have hrows : s.knots.Rows s.layout := (hj.rows hl).congr hslopes.running
  rw [← hflat]
  exact h.stop_eq hrows hlambdas

end Solver

/-- Of the gradient the costate terms leave what the Hessian block makes of the increments. -/
theorem Stationary.gradient_add_costates {n m : ℕ} {H : Matrix (Fin n) (Fin n) K}
    {A : Matrix (Fin m) (Fin n) K} {g q : Fin n → K} {c l : Fin m → K}
    (h : Stationary H A g c q l) : g + Aᵀ *ᵥ l = -(H *ᵥ q) :=
  calc g + Aᵀ *ᵥ l = g + (H *ᵥ q + Aᵀ *ᵥ l) - H *ᵥ q := by abel
    _ = -(H *ᵥ q) := by rw [h.gradient, add_neg_cancel, zero_sub]

namespace Solver

/-- As long as nothing but its direction is used, a solver measures the residual of the system that
the direction was solved for, which is what the damped Hessian makes of the increments. -/
theorem stop_measureStop_used (hp : p.SymmetricHessians) (hj : p.ShapedJacobians) (o : Options K)
    (past : List (Operation K)) {relinearize : Bool}
    (hs : relinearize = false → ∃ xs us, ((create p o).after past).LinearizedAlong xs us)
    {s : Solver K}
    (h : ((create p o).after past).computeDirection relinearize = (s, .ok .noError))
    {uses : List (Use K)} (huses : uses.all Use.keepsDirection = true) :
    let t := s.used uses
    let H := t.system.hessian p.layout
    let A := t.system.constraint p.layout
    let g := t.system.gradient p.layout
    let c := t.system.violation p.layout
    let primal := Vec.toFun p.layout.nprimal t.direction.primal
    let dual := Vec.toFun p.layout.ndx t.direction.dual
    t.system = s.system ∧ t.direction = s.direction ∧
      t.measureStop.stop = (g + Aᵀ *ᵥ dual) ⬝ᵥ (g + Aᵀ *ᵥ dual) + c ⬝ᵥ c ∧
      t.measureStop.stop = (H *ᵥ primal) ⬝ᵥ (H *ᵥ primal) + c ⬝ᵥ c := by
  intro t H A g c primal dual
  have hf := fits_after (p := p) (o := o) past
  have hprob := problem_after (p := p) (o := o) past
  generalize (create p o).after past = s₀ at hs h hf hprob
  obtain ⟨xs, us, hold, hnew⟩ : ∃ xs us, (relinearize = false → s₀.LinearizedAlong xs us) ∧
      (relinearize = true → s₀.candidate.xs = xs ∧ s₀.candidate.us = us) := by
    cases relinearize with
    | true => exact ⟨_, _, nofun, fun _ => ⟨rfl, rfl⟩⟩
    | false =>
      obtain ⟨xs, us, halong⟩ := hs rfl
      exact ⟨xs, us, fun _ => halong, nofun⟩
  obtain ⟨s₁, halong, hprob₁, -, hfactor⟩ := hf.factorize_of_computeDirection hold hnew h
  obtain rfl : s₁.problem = p := hprob₁.trans hprob
  obtain ⟨f, hsaddle⟩ := halong.assembled.saddlePoint hp
  obtain ⟨primal', dual', hsolve, hs'⟩ := factorize_eq_noError hfactor
  obtain ⟨hprimal, hdual, hst⟩ := hsaddle.stationary_of_solve? hsolve
  -- All that is measured later on is what the solver holds now.
  have hkept : s.KeepsDirection t := s.keepsDirection_used huses
  have hsystem : t.system = s₁.system := by rw [hkept.system, hs']
  have hproblem : t.problem = s₁.problem := by rw [hkept.problem, hs']
  have hlayout : t.layout = s₁.problem.layout := congrArg Layout.ofProblem hproblem
  have hdirection : t.direction = .ofSolution t.layout primal' dual' := by
    rw [hkept.direction, hs', hlayout]
    rfl
  have hmeasured : t.LinearizedAlong xs us := by
    have halong' := halong.factorize
    rw [hfactor] at halong'
    exact halong'.keeps hkept
  have hstop : t.measureStop.stop = (g + Aᵀ *ᵥ dual) ⬝ᵥ (g + Aᵀ *ᵥ dual) + c ⬝ᵥ c := by
    rw [← hlayout] at hdual
    have hstop := hmeasured.stop_ofSolution (hproblem ▸ hj) hdual hdirection
    dsimp only at hstop
    rwa [hlayout] at hstop
  have hresidual : g + Aᵀ *ᵥ dual = -(H *ᵥ primal) := by
    have hres := hst.gradient_add_costates
    dsimp only [g, A, H, primal, dual]
    rw [hsystem, hdirection]
    exact hres
  refine ⟨hkept.system, hkept.direction, hstop, ?_⟩
  rw [hstop, hresidual, neg_dotProduct_neg]

theorem stop_measureStop_used_integrator :
    let p : Problem ℝ := .integrator [1] 1
    let uses : List (Use ℝ) := [.perform .predict, .search (1, -1) true, .perform (.tryStep 2),
      .perform (.setCandidate [.ofVec [3], .ofVec [4]] [.ofVec [5]] true), .search (0, 0) false]
    p.SymmetricHessians ∧ p.ShapedJacobians ∧ ∃ s,
      ((create p .lenient).after [.increase, .setWeights none (some 0)]).computeDirection true =
        (s, .ok .noError) ∧
      let t := s.used uses
      let c := t.system.violation p.layout
      let r := t.system.gradient p.layout +
        (t.system.constraint p.layout)ᵀ *ᵥ Vec.toFun p.layout.ndx t.direction.dual
      let Hp := t.system.hessian p.layout *ᵥ Vec.toFun p.layout.nprimal t.direction.primal
      t.measureStop.stop = r ⬝ᵥ r + c ⬝ᵥ c ∧ t.measureStop.stop = Hp ⬝ᵥ Hp + c ⬝ᵥ c := by
  intro p uses
  have hp : p.SymmetricHessians := Problem.symmetricHessians_integrator
  have hj : p.ShapedJacobians := Problem.shapedJacobians_integrator _ _
  have huses : uses.all Use.keepsDirection = true := rfl
  obtain ⟨s, hs⟩ := computeDirection_integrator
  have hstop := @stop_measureStop_used ℝ _ p hp hj .lenient _ true nofun s hs uses huses
  exact ⟨hp, hj, s, hs, hstop.2.2⟩

end Solver
end Shooting
