import Shooting.Solver.Solve
import Shooting.Proofs.Evaluation
import Shooting.Proofs.Trajectory

/-! # What a solver goes through

A solver is driven by operations in any order, some of which raise faults. None of them touches the
problem, the options or the settings of the search, or loses track of a knot, and once the system has
been assembled it stays one that was assembled, under weights of one time or another.
-/

namespace Shooting

variable {α : Type} [Scalar α]

namespace System

omit [Scalar α] in
theorem setDiagonal_setDiagonal (M : Mat α) {d d' : Vec α} (h : d.length = d'.length) :
    Mat.setDiagonal (Mat.setDiagonal M d) d' = Mat.setDiagonal M d' := by
  apply List.ext_getElem (by simp)
  intro i hi hi'
  simp only [Mat.setDiagonal, List.getElem_mapIdx]
  rcases Nat.lt_or_ge i d'.length with hd | hd
  · simp [hd, h, List.set_set]
  · simp [hd, h]

theorem damp_damp (n : ℕ) (s : System α) (xr ur xr' ur' : Weight α) :
    (s.damp n xr ur).damp n xr' ur' = s.damp n xr' ur' := by
  simp only [damp]
  rw [setDiagonal_setDiagonal _ (by simp [dampedDiagonal])]

end System

/-- The system of the problem linearized at some trajectory, under some weights. -/
def Problem.Assembled (p : Problem α) (s : System α) : Prop :=
  ∃ xs us ks xr ur, p.LinearizedAt xs us ks ∧
    s = (System.assemble (.ofProblem p) ks (p.gaps ks xs)).damp (Layout.ofProblem p).ndx xr ur

/-- What becomes of a system: it is kept, takes other weights, or makes way for one that has been
assembled. -/
inductive Problem.Rewrites (p : Problem α) (A : System α) : System α → Prop
  | kept : Rewrites p A A
  | damped (xr ur) : Rewrites p A (A.damp (Layout.ofProblem p).ndx xr ur)
  | assembled {B} (h : p.Assembled B) : Rewrites p A B

theorem Problem.Assembled.damp {p : Problem α} {A : System α} (h : p.Assembled A)
    (xr ur : Weight α) : p.Assembled (A.damp (Layout.ofProblem p).ndx xr ur) := by
  obtain ⟨xs, us, ks, _, _, hks, rfl⟩ := h
  exact ⟨xs, us, ks, xr, ur, hks, System.damp_damp _ _ _ _ _ _⟩

theorem Problem.Rewrites.trans {p : Problem α} {A B C : System α} (h : p.Rewrites A B)
    (h' : p.Rewrites B C) : p.Rewrites A C := by
  cases h' with
  | kept => exact h
  | assembled hC => exact .assembled hC
  | damped xr ur =>
    cases h with
    | kept => exact .damped xr ur
    | assembled hB => exact .assembled (hB.damp xr ur)
    | damped xr' ur' =>
      rw [System.damp_damp]
      exact .damped xr ur

theorem Problem.Rewrites.of_assembled {p : Problem α} {A B : System α} (h : p.Rewrites A B)
    (hA : p.Assembled A) : p.Assembled B := by
  cases h with
  | kept => exact hA
  | damped xr ur => exact hA.damp xr ur
  | assembled hB => exact hB

def Search.SameSettings (s s' : Search α) : Prop :=
  ∃ steplength dV dVexp iterations failures code,
    s' = { s with steplength, dV, dVexp, iterations, failures, code }

omit [Scalar α] in
theorem Search.SameSettings.refl (s : Search α) : s.SameSettings s := ⟨_, _, _, _, _, _, rfl⟩

omit [Scalar α] in
theorem Search.SameSettings.symm {s s' : Search α} (h : s.SameSettings s') : s'.SameSettings s := by
  obtain ⟨_, _, _, _, _, _, rfl⟩ := h
  exact ⟨s.steplength, s.dV, s.dVexp, s.iterations, s.failures, s.code, rfl⟩

omit [Scalar α] in
theorem Search.SameSettings.trans {s s' s'' : Search α} (h : s.SameSettings s')
    (h' : s'.SameSettings s'') : s.SameSettings s'' := by
  obtain ⟨_, _, _, _, _, _, rfl⟩ := h
  obtain ⟨_, _, _, _, _, _, rfl⟩ := h'
  exact ⟨_, _, _, _, _, _, rfl⟩

omit [Scalar α] in
theorem Search.SameSettings.alphas {s s' : Search α} (h : s.SameSettings s') :
    s'.alphas = s.alphas := by
  obtain ⟨_, _, _, _, _, _, rfl⟩ := h
  rfl

omit [Scalar α] in
theorem Search.SameSettings.thresholds {s s' : Search α} (h : s.SameSettings s') :
    s'.gradThreshold = s.gradThreshold ∧ s'.acceptRatio = s.acceptRatio := by
  obtain ⟨_, _, _, _, _, _, rfl⟩ := h
  exact ⟨rfl, rfl⟩

namespace Solver

def Fits (s : Solver α) : Prop := s.problem.Fits s.knots s.candidate.xs s.candidate.us

/-- What an operation leaves as it was. -/
structure Preserved (s s' : Solver α) : Prop where
  problem : s'.problem = s.problem
  options : s'.options = s.options
  search : s.search.SameSettings s'.search
  fits : s.Fits → s'.Fits
  system : s.Fits → s.problem.Rewrites s.system s'.system

variable {s s' s'' : Solver α}

theorem Preserved.refl (s : Solver α) : s.Preserved s :=
  ⟨rfl, rfl, .refl _, id, fun _ => .kept⟩

theorem Preserved.trans (h : s.Preserved s') (h' : s'.Preserved s'') : s.Preserved s'' where
  problem := h'.problem.trans h.problem
  options := h'.options.trans h.options
  search := h.search.trans h'.search
  fits hf := h'.fits (h.fits hf)
  system hf := (h.system hf).trans (h.problem ▸ h'.system (h.fits hf))

theorem Preserved.assembled (h : s.Preserved s') (hf : s.Fits) (ha : s.problem.Assembled s.system) :
    s'.problem.Assembled s'.system := by
  rw [h.problem]
  exact (h.system hf).of_assembled ha

theorem Preserved.of_eq (hp : s'.problem = s.problem) (ho : s'.options = s.options)
    (hs : s'.search = s.search) (hc : s'.candidate = s.candidate) (hA : s'.system = s.system)
    (hk : s'.knots.running.length = s.knots.running.length) : s.Preserved s' where
  problem := hp
  options := ho
  search := hs ▸ .refl _
  fits := by
    rintro ⟨hlen, hx, hu⟩
    rw [Fits, hp, hc]
    exact ⟨hk.trans hlen, hx, hu⟩
  system _ := hA ▸ .kept

theorem preserved_setCandidate (s : Solver α) (xs us : List (Tensor α)) (feasible : Bool) :
    s.Preserved (s.setCandidate xs us feasible).1 := by
  unfold setCandidate
  split
  · exact .refl s
  · rename_i c hc
    obtain ⟨hx, hu⟩ := Problem.length_trajectory hc
    exact ⟨rfl, rfl, .refl _, fun hf => ⟨hf.knots, hx, hu⟩, fun _ => .kept⟩

theorem preserved_linearize (s : Solver α) : s.Preserved s.linearize.1 := by
  have hlen := Problem.length_linearize s.problem s.knots s.candidate.xs s.candidate.us
  unfold linearize
  split <;> rename_i hl <;> rw [hl] at hlen
  · exact .of_eq rfl rfl rfl rfl rfl hlen
  · refine ⟨rfl, rfl, .refl _, fun hf => ⟨hlen.trans hf.knots, hf.states, hf.controls⟩, ?_⟩
    exact fun hf => .assembled ⟨_, _, _, _, _, (hf.linearize_ok hl).1, rfl⟩

theorem preserved_redamp (s : Solver α) : s.Preserved s.redamp :=
  ⟨rfl, rfl, .refl _, id, fun _ => .damped _ _⟩

theorem preserved_solveSystem (s : Solver α) : s.Preserved s.solveSystem.1 := by
  unfold solveSystem
  split
  · exact .refl s
  · exact .of_eq rfl rfl rfl rfl rfl rfl

theorem preserved_factorize (s : Solver α) : s.Preserved s.factorize.1 := by
  have h := s.preserved_solveSystem
  unfold factorize
  split <;> rename_i hs <;> rw [hs] at h
  · exact h.trans (.of_eq rfl rfl rfl rfl rfl rfl)
  · exact h

theorem preserved_computeDirection (s : Solver α) (relinearize : Bool) :
    s.Preserved (s.computeDirection relinearize).1 := by
  have h := s.preserved_linearize
  unfold computeDirection
  split
  · split <;> rename_i hl <;> rw [hl] at h
    · exact h
    · exact h.trans (preserved_factorize _)
  · exact s.preserved_redamp.trans (preserved_factorize _)

theorem preserved_tryStep (s : Solver α) (alpha : α) : s.Preserved (s.tryStep alpha).1 := by
  unfold tryStep
  dsimp only
  split <;> rename_i he <;> exact .of_eq rfl rfl rfl rfl rfl (Problem.length_of_evaluate he)

theorem preserved_promote (s : Solver α) : s.Preserved s.promote.1 := by
  have h := preserved_setCandidate { s with wasFeasible := s.candidate.feasible }
    (s.attempt.xs.map .ofVec) (s.attempt.us.map .ofVec) true
  have h₀ : s.Preserved { s with wasFeasible := s.candidate.feasible } :=
    .of_eq rfl rfl rfl rfl rfl rfl
  unfold promote
  split <;> rename_i hc <;> rw [hc] at h
  · exact h₀.trans h
  · exact (h₀.trans h).trans (.of_eq rfl rfl rfl rfl rfl rfl)

theorem Preserved.promote {s s' s'' : Solver α} {result : Except Fault Unit} (h : s.Preserved s')
    (hp : s'.promote = (s'', result)) : s.Preserved s'' := by
  have hkept := s'.preserved_promote
  rw [hp] at hkept
  exact h.trans hkept

end Solver

namespace Search

variable {σ : Type} {trial : σ → α → σ × Except Fault (Trial α)} {d : α × α} {feasible : Bool}

theorem walk_induction {P : σ → Prop} (htrial : ∀ w a, P w → P (trial w a).1) (alphas : List α)
    {w : σ} (hw : P w) (s : Search α) : P (walk trial d feasible alphas w s).state := by
  induction alphas generalizing w s with
  | nil => exact hw
  | cons a rest ih =>
    have ha := htrial w a hw
    unfold walk
    dsimp only
    split <;> rename_i ht <;> rw [ht] at ha
    · exact ha
    · exact ih ha _
    · split
      · exact ha
      · exact ih ha _

theorem walk_settings (alphas : List α) (w : σ) (s : Search α) :
    s.SameSettings (walk trial d feasible alphas w s).search := by
  induction alphas generalizing w s with
  | nil => exact ⟨_, _, _, _, _, _, rfl⟩
  | cons a rest ih =>
    unfold walk
    dsimp only
    split
    · exact ⟨_, _, _, _, _, _, rfl⟩
    · exact .trans ⟨_, _, _, _, _, _, rfl⟩ (ih _ _)
    · split
      · exact ⟨_, _, _, _, _, _, rfl⟩
      · exact .trans ⟨_, _, _, _, _, _, rfl⟩ (ih _ _)

end Search

theorem Solver.preserved_searchStep (s : Solver α) : s.Preserved s.searchStep.state := by
  have hstate : s.Preserved (s.search.run tryStep s.d s.candidate.feasible s).state :=
    Search.walk_induction (P := s.Preserved) (fun w a h => h.trans (w.preserved_tryStep a)) _
      (.refl s) _
  have hsearch : s.search.SameSettings (s.search.run tryStep s.d s.candidate.feasible s).search :=
    .trans ⟨_, _, _, _, _, _, rfl⟩ (Search.walk_settings _ _ _)
  exact { hstate with search := hsearch }

/-- What a phase leaves as it was, whether it hands the run on or ends it. -/
def Flow.Preserved (s : Solver α) : Flow α → Prop
  | .next r => s.Preserved r.solver
  | .done r _ => s.Preserved r.solver

theorem Flow.Preserved.after {s s' : Solver α} {flow : Flow α} (h : flow.Preserved s')
    (hs : s.Preserved s') : flow.Preserved s := by
  cases flow with
  | done r e => exact hs.trans h
  | next r => exact hs.trans h

theorem Flow.Preserved.andThen {s : Solver α} {flow : Flow α} {phase : Run α → Flow α}
    (h : flow.Preserved s) (hphase : ∀ r, (phase r).Preserved r.solver) :
    (flow.andThen phase).Preserved s := by
  cases flow with
  | done r e => exact h
  | next r => exact (hphase r).after h

namespace Run

theorem preserved_factorize (fuel : ℕ) (relinearize : Bool) (r : Run α) :
    (factorize fuel relinearize r).Preserved r.solver := by
  induction fuel generalizing relinearize r with
  | zero => exact .refl _
  | succ fuel ih =>
    have hd := r.solver.preserved_computeDirection relinearize
    unfold factorize
    split
    · rename_i hc
      rw [hc] at hd
      exact hd
    · rename_i hc
      rw [hc] at hd
      exact hd
    · rename_i solver code _ hc
      rw [hc] at hd
      split
      · exact hd.trans (.of_eq rfl rfl rfl rfl rfl rfl)
      · have hup : r.solver.Preserved solver.increase := hd.trans (.of_eq rfl rfl rfl rfl rfl rfl)
        exact (ih false _).after hup

theorem preserved_step (r : Run α) : r.step.Preserved r.solver := by
  have hp : r.solver.Preserved r.solver.predict := .of_eq rfl rfl rfl rfl rfl rfl
  have hs := hp.trans r.solver.predict.preserved_searchStep
  unfold step
  dsimp only
  split
  · exact hs
  · rename_i steplength _
    set s := r.solver.predict.searchStep.state
    have hs' : r.solver.Preserved
        { s with steplength, dV := s.search.dV, dVexp := s.search.dVexp } :=
      hs.trans (.of_eq rfl rfl rfl rfl rfl rfl)
    split
    · split <;> rename_i hc <;> exact hs'.promote hc
    · exact hs'

theorem preserved_adapt (r : Run α) : r.adapt.Preserved r.solver := by
  unfold adapt
  dsimp only
  split <;> split <;> (try split) <;> exact .of_eq rfl rfl rfl rfl rfl rfl

theorem preserved_assess (r : Run α) : r.assess.Preserved r.solver := by
  unfold assess
  dsimp only
  split
  · exact .of_eq rfl rfl rfl rfl rfl rfl
  · split <;> exact .of_eq rfl rfl rfl rfl rfl rfl

theorem preserved_iterate (fuel iter : ℕ) (r : Run α) :
    (r.iterate fuel iter).Preserved r.solver := by
  have hfactor := (preserved_factorize fuel true
    { r with solver :=
      { r.solver with iter, stats := { r.solver.stats with iterations := iter + 1 } } }).after
        (s := r.solver) (.of_eq rfl rfl rfl rfl rfl rfl)
  exact ((hfactor.andThen preserved_step).andThen preserved_adapt).andThen preserved_assess

theorem preserved_loop (fuel left iter : ℕ) (r : Run α) :
    r.solver.Preserved (r.loop fuel left iter).1.solver := by
  induction left generalizing iter r with
  | zero => exact .of_eq rfl rfl rfl rfl rfl rfl
  | succ left ih =>
    have h := preserved_iterate fuel iter r
    unfold loop
    split <;> rename_i hi <;> rw [hi] at h
    · exact h.trans (ih _ _)
    · exact h

theorem preserved_start (r : Run α) : r.solver.Preserved r.start.1.solver := by
  unfold start
  dsimp only [report]
  split
  · split <;> rename_i he <;> exact .of_eq rfl rfl rfl rfl rfl (Problem.length_of_evaluate he)
  · exact .refl _

theorem preserved_of_start {r r' : Run α} {fault : Option Fault} (h : r.start = (r', fault)) :
    r.solver.Preserved r'.solver := by
  have hkept := r.preserved_start
  rw [h] at hkept
  exact hkept

end Run

def Solver.begun (s : Solver α) (c : Trajectory α) (feasible : Bool) (reginit : Weight α) :
    Solver α :=
  { s with
    stats := s.stats.reset
    candidate := { c with feasible }
    wasFeasible := false
    xreg := some (reginit.getD 0)
    ureg := some (reginit.getD 0) }

theorem Solver.solve_eq {s : Solver α} {xs us : List (Tensor α)} {c : Trajectory α}
    (h : s.problem.trajectory xs us = .ok c) (fuel : ℕ) (maxiter : Int) (feasible : Bool)
    (reginit : Weight α) :
    s.solve fuel xs us maxiter feasible reginit =
      match Run.start { solver := s.begun c feasible reginit, events := [] } with
      | (r, some f) => (r, .raised f)
      | (r, none) => r.loop fuel maxiter.toNat 0 := by
  unfold Solver.solve Solver.setCandidate
  dsimp only
  rw [h]
  rfl

/-- A solve whose trajectory is refused changes nothing but the statistics. -/
theorem Solver.solve_refused {s : Solver α} {xs us : List (Tensor α)} {f : Fault}
    (h : s.problem.trajectory xs us = .error f) (fuel : ℕ) (maxiter : Int) (feasible : Bool)
    (reginit : Weight α) :
    s.solve fuel xs us maxiter feasible reginit =
      ({ solver := { s with stats := s.stats.reset }, events := [] }, .raised f) := by
  unfold Solver.solve Solver.setCandidate
  dsimp only
  rw [h]

/-- A solve that returns has accepted the trajectory given to it and has gone through its loop. -/
theorem Solver.loop_of_returned {s : Solver α} {fuel : ℕ} {xs us : List (Tensor α)} {maxiter : Int}
    {feasible : Bool} {reginit : Weight α} {b : Bool}
    (h : (s.solve fuel xs us maxiter feasible reginit).2 = .returned b) :
    ∃ c r, s.problem.trajectory xs us = .ok c ∧
      Run.start { solver := s.begun c feasible reginit, events := [] } = (r, none) ∧
      s.solve fuel xs us maxiter feasible reginit = r.loop fuel maxiter.toNat 0 := by
  cases hc : s.problem.trajectory xs us with
  | error f =>
    rw [solve_refused hc] at h
    cases h
  | ok c =>
    rw [solve_eq hc] at h ⊢
    rcases hs : Run.start { solver := s.begun c feasible reginit, events := [] } with ⟨r, _ | f⟩
    · exact ⟨c, r, rfl, hs, rfl⟩
    · rw [hs] at h
      cases h

theorem Solver.preserved_solve (s : Solver α) (fuel : ℕ) (xs us : List (Tensor α)) (maxiter : Int)
    (feasible : Bool) (reginit : Weight α) :
    s.Preserved (s.solve fuel xs us maxiter feasible reginit).1.solver := by
  have h : s.Preserved { s with stats := s.stats.reset } := .of_eq rfl rfl rfl rfl rfl rfl
  have hc := h.trans (preserved_setCandidate _ xs us feasible)
  unfold solve
  split <;> rename_i hs <;> rw [hs] at hc
  · exact hc
  · rename_i s'
    let w : Weight α := some (reginit.getD 0)
    have hset : s'.Preserved { s' with wasFeasible := false, xreg := w, ureg := w } :=
      .of_eq rfl rfl rfl rfl rfl rfl
    have hw := hc.trans hset
    dsimp only
    split <;> rename_i hstart
    · exact hw.trans (Run.preserved_of_start hstart)
    · exact (hw.trans (Run.preserved_of_start hstart)).trans (Run.preserved_loop _ _ _ _)

/-- What can be done with a solver. -/
inductive Operation (α : Type)
  | setCandidate (xs us : List (Tensor α)) (feasible : Bool)
  | setWeights (xreg ureg : Weight α)
  | setCallbacks (callbacks : List Callback)
  | increase
  | decrease
  | linearize
  | computeDirection (relinearize : Bool)
  | solveSystem
  | predict
  | measureStop
  | tryStep (alpha : α)
  | rollout (us : List (Vec α))
  | solve (fuel : ℕ) (xs us : List (Tensor α)) (maxiter : Int) (feasible : Bool)
    (reginit : Weight α)

namespace Solver

def perform (s : Solver α) : Operation α → Solver α
  | .setCandidate xs us feasible => (s.setCandidate xs us feasible).1
  | .setWeights xreg ureg => { s with xreg, ureg }
  | .setCallbacks callbacks => { s with callbacks }
  | .increase => s.increase
  | .decrease => s.decrease
  | .linearize => s.linearize.1
  | .computeDirection relinearize => (s.computeDirection relinearize).1
  | .solveSystem => s.solveSystem.1
  | .predict => s.predict
  | .measureStop => s.measureStop
  | .tryStep alpha => (s.tryStep alpha).1
  | .rollout us => { s with knots := (s.problem.rollout s.knots us).1 }
  | .solve fuel xs us maxiter feasible reginit =>
    (s.solve fuel xs us maxiter feasible reginit).1.solver

def after (s : Solver α) (ops : List (Operation α)) : Solver α := ops.foldl perform s

theorem preserved_perform (s : Solver α) (op : Operation α) : s.Preserved (s.perform op) := by
  cases op with
  | setCandidate xs us feasible => exact s.preserved_setCandidate xs us feasible
  | setWeights xreg ureg => exact .of_eq rfl rfl rfl rfl rfl rfl
  | setCallbacks callbacks => exact .of_eq rfl rfl rfl rfl rfl rfl
  | increase => exact .of_eq rfl rfl rfl rfl rfl rfl
  | decrease => exact .of_eq rfl rfl rfl rfl rfl rfl
  | linearize => exact s.preserved_linearize
  | computeDirection relinearize => exact s.preserved_computeDirection relinearize
  | solveSystem => exact s.preserved_solveSystem
  | predict => exact .of_eq rfl rfl rfl rfl rfl rfl
  | measureStop => exact .of_eq rfl rfl rfl rfl rfl rfl
  | tryStep alpha => exact s.preserved_tryStep alpha
  | rollout us =>
    have hlen := Problem.length_rollout s.problem s.knots us
    exact .of_eq rfl rfl rfl rfl rfl hlen
  | solve fuel xs us maxiter feasible reginit =>
    exact s.preserved_solve fuel xs us maxiter feasible reginit

theorem preserved_after (s : Solver α) (ops : List (Operation α)) : s.Preserved (s.after ops) := by
  induction ops generalizing s with
  | nil => exact .refl s
  | cons op ops ih => exact (s.preserved_perform op).trans (ih _)

theorem fits_create (p : Problem α) (o : Options α) : (create p o).Fits :=
  ⟨by simp [create, Problem.fresh, Problem.horizon], by simp [create], by simp [create]⟩

variable {p : Problem α} {o : Options α} (ops : List (Operation α))

theorem fits_after : ((create p o).after ops).Fits :=
  (preserved_after _ ops).fits (fits_create p o)

theorem problem_after : ((create p o).after ops).problem = p := (preserved_after _ ops).problem

theorem options_after : ((create p o).after ops).options = o := (preserved_after _ ops).options

theorem search_after : (create p o).search.SameSettings ((create p o).after ops).search :=
  (preserved_after _ ops).search

end Solver
end Shooting
