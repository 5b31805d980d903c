import Mathlib.Data.Matrix.Mul
import Shooting.Proofs.Costs
import Shooting.Proofs.Gaps
import Shooting.Proofs.Manifold
import Shooting.Proofs.Refusal
import Shooting.Proofs.Relinearization
import Shooting.Proofs.WarmStart

/-! # Rollouts

A rollout goes through the knots once and keeps the states that the models lead to. A linearization
along it goes through them again, and compares each state with the one that its model leads to: in
exact arithmetic there is no difference. A direction from there does not move the constraints.
-/

namespace Shooting

open Matrix

section Trajectories

variable {α : Type}

/-- Where the model returns, it leads to a state of the following manifold's length. -/
def Model.Lands (m : Model α) : Prop :=
  ∀ x u c y, x.length = m.state.nx → u.length = m.nu → m.eval x u = .ok (c, y) →
    y.length = m.next.nx

namespace Problem

inductive Rolls : List (Model α) → List (Vec α) → Vec α → List (Vec α) → Prop
  | nil (x : Vec α) : Rolls [] [] x [x]
  | cons {m ms u us x c y xs} : m.eval x u = .ok (c, y) → Rolls ms us y xs →
      Rolls (m :: ms) (u :: us) x (x :: xs)

variable {p : Problem α} {ms : List (Model α)} {us xs : List (Vec α)} {x : Vec α} {t : ℕ}

theorem Rolls.head (h : Rolls ms us x xs) : xs[0]? = some x := by
  cases h <;> rfl

theorem Rolls.length (h : Rolls ms us x xs) : xs.length = ms.length + 1 := by
  induction h with
  | nil => rfl
  | cons _ _ ih => exact congrArg (· + 1) ih

theorem Rolls.step (h : Rolls ms us x xs) {m : Model α} {z u : Vec α} (hm : ms[t]? = some m)
    (hx : xs[t]? = some z) (hu : us[t]? = some u) :
    ∃ c y, m.eval z u = .ok (c, y) ∧ xs[t + 1]? = some y := by
  induction h generalizing t with
  | nil => cases hm
  | @cons m' _ _ _ _ c y _ he hrest ih =>
    cases t with
    | zero =>
      cases hm
      cases hx
      cases hu
      exact ⟨c, y, he, hrest.head⟩
    | succ t => exact ih hm hx hu

variable {ks : Knots α}

theorem rolls_of_rolloutFrom {ks : List (Knot α)} (hk : ks.length = ms.length)
    (hu : us.length = ms.length) (h : (rolloutFrom ms ks us x).2 = .ok xs) : Rolls ms us x xs := by
  induction ms generalizing ks us x xs with
  | nil =>
    obtain rfl := List.eq_nil_of_length_eq_zero hu
    cases h
    exact .nil x
  | cons m ms ih =>
    obtain ⟨k, ks, rfl⟩ := List.exists_cons_of_length_eq_add_one hk
    obtain ⟨u, us, rfl⟩ := List.exists_cons_of_length_eq_add_one hu
    rw [rolloutFrom, Model.evaluate] at h
    cases he : m.eval x u with
    | error f =>
      rw [he] at h
      cases h
    | ok r =>
      rw [he] at h
      obtain ⟨ys, hys, rfl⟩ := Tensor.map_cons_ok h
      exact .cons he (ih (Nat.succ.inj hk) (Nat.succ.inj hu) hys)

theorem follows_of_rollout (hk : ks.running.length = p.horizon) (hu : us.length = p.horizon)
    (h : (p.rollout ks us).2 = .ok xs) : xs.length = p.horizon + 1 ∧ p.Follows xs us := by
  rw [rollout, if_neg (not_not.mpr hu)] at h
  have hrolls := rolls_of_rolloutFrom hk hu h
  exact ⟨hrolls.length, hrolls.head, fun t m x u hm hx hu => hrolls.step hm hx hu⟩

theorem Follows.length_state (h : p.Follows xs us) (hp : p.WellFormed)
    (hx : xs.length = p.horizon + 1) (hu : us.map List.length = p.running.map (·.nu))
    (hlands : ∀ i < t, ∀ m, p.running[i]? = some m → m.Lands) {m : Model α}
    (hm : p.models[t]? = some m) : (xs.getD t []).length = m.state.nx := by
  have hulen : us.length = p.horizon := by simpa [horizon] using congrArg List.length hu
  induction t generalizing m with
  | zero =>
    have hrunning : p.running[0]? = some m := by
      rwa [models, List.getElem?_append_left hp.horizon] at hm
    rw [List.getD_eq_getElem?_getD, h.initial]
    exact hp.initial m hrunning
  | succ t ih =>
    have ht : t < p.horizon := by
      have hlt := (List.getElem?_eq_some_iff.mp hm).1
      rw [length_models] at hlt
      omega
    have hm' : p.running[t]? = some p.running[t] := List.getElem?_eq_getElem ht
    have hxt := List.getElem?_eq_getElem (l := xs) (i := t) (by omega)
    have hut := List.getElem?_eq_getElem (l := us) (i := t) (by omega)
    have hxlen := ih (fun i hi => hlands i (Nat.lt_succ_of_lt hi)) (models_running hm')
    have hulen : us[t].length = p.running[t].nu := by
      have hlen := congrArg (·[t]?) hu
      simpa [hut, hm'] using hlen
    obtain ⟨c, y, heval, hy⟩ := h.dynamics t _ _ _ hm' hxt hut
    rw [List.getD_eq_getElem?_getD, hxt] at hxlen
    rw [List.getD_eq_getElem?_getD, hy]
    have hland := hlands t (Nat.lt_succ_self t) _ hm' _ _ _ _ hxlen hulen heval
    exact hland.trans (hp.chain t _ _ (models_running hm') hm).2

theorem Follows.shaped (h : p.Follows xs us) (hp : p.WellFormed)
    (hlands : ∀ m ∈ p.running, m.Lands) (hx : xs.length = p.horizon + 1)
    (hu : us.map List.length = p.running.map (·.nu)) : p.Shaped xs us :=
  ⟨map_length_eq (by simp [hx]) fun _ _ hm =>
    h.length_state hp hx hu (fun _ _ m hm => hlands m (List.mem_of_getElem? hm)) hm, hu⟩

end Problem

end Trajectories

/-- A point differs by nothing from itself, also if it is not on the circle. -/
theorem Manifold.eq_zero_of_mem_diff (m : Manifold) (x : Vec ℝ) : ∀ a ∈ m.diff x x, a = 0 := by
  have hsub (v : Vec ℝ) : ∀ a ∈ Vec.sub v v, a = 0 := by
    intro a ha
    rw [Vec.sub_self] at ha
    exact List.eq_of_mem_replicate ha
  cases m with
  | euclidean n => exact hsub x
  | rotation nv =>
    have hangle : Scalar.atan2 (x.coord 0 * x.coord 1 - x.coord 1 * x.coord 0)
        (x.coord 0 * x.coord 0 + x.coord 1 * x.coord 1) = 0 := by
      rw [mul_comm (x.coord 1), sub_self]
      exact Complex.arg_ofReal_of_nonneg
        (add_nonneg (mul_self_nonneg (x.coord 0)) (mul_self_nonneg (x.coord 1)))
    intro a ha
    rcases List.mem_cons.mp ha with rfl | hrest
    · exact hangle
    · exact hsub _ a hrest

theorem Problem.Follows.gapless {p : Problem ℝ} {xs us : List (Vec ℝ)} (h : p.Follows xs us)
    (hs : p.Shaped xs us) : p.Gapless xs us := by
  constructor
  · intro m _
    rw [List.getD_eq_getElem?_getD, h.initial]
    exact m.state.eq_zero_of_mem_diff p.x0
  · intro t m hm
    have ht : t < p.horizon := (List.getElem?_eq_some_iff.mp hm).1
    have hxt := List.getElem?_eq_getElem (l := xs) (i := t) (by rw [hs.length_states]; omega)
    have hut := List.getElem?_eq_getElem (l := us) (i := t) (by rw [hs.length_controls]; omega)
    obtain ⟨c, y, heval, hy⟩ := h.dynamics t m _ _ hm hxt hut
    refine ⟨c, y, ?_, ?_⟩
    · rwa [List.getD_eq_getElem?_getD, List.getD_eq_getElem?_getD, hxt, hut]
    · rw [List.getD_eq_getElem?_getD, hy]
      exact m.next.eq_zero_of_mem_diff y

namespace Problem

variable {α : Type} [Scalar α] {p : Problem α} {ks : Knots α} {xs us : List (Vec α)}

theorem getElem?_of_dropLast {β : Type} {l : List β} {t : ℕ} {b : β}
    (h : l.dropLast[t]? = some b) : l[t]? = some b := by
  rw [List.getElem?_dropLast] at h
  split at h
  · exact h
  · cases h

theorem Fits.linearize_returns_iff (h : p.Fits ks xs us) :
    (∃ c, (p.linearize ks xs us).2 = .ok c) ↔
      (∃ c, (p.evaluate ks xs us).2 = .ok c) ∧
        (∀ (t : ℕ) (m : Model α), p.running[t]? = some m →
          ∃ slopes, m.deriv (xs.getD t []) (us.getD t []) = .ok slopes) ∧
        ∃ slopes, p.terminal.deriv (xs.getLastD []) [] = .ok slopes := by
  constructor
  · rintro ⟨c, hc⟩
    obtain ⟨hl, he⟩ := h.linearize_ok (Prod.ext rfl hc)
    refine ⟨⟨c, he⟩, fun t m hm => ?_, _, hl.terminal.2⟩
    obtain ⟨k, -, hk⟩ := hl.running.getD h.states hm
    exact ⟨_, hk.2⟩
  · rintro ⟨⟨c, he⟩, hrunning, slopes, hterminal⟩
    have hpass : (linearizeRunning p.running (p.evaluate ks xs us).1.running xs.dropLast us).2 =
        .ok () := by
      refine linearizeRunning_total (.of_forall h.evaluate.aligned fun t m k x u hm _ hx hu => ?_)
      have hslopes := hrunning t m hm
      rwa [List.getD_eq_getElem?_getD, List.getD_eq_getElem?_getD, getElem?_of_dropLast hx, hu]
        at hslopes
    refine ⟨c, ?_⟩
    rw [linearize_snd, he]
    change (linearizeRunning _ _ _ _).2.bind _ = _
    rw [hpass, hterminal]
    rfl

theorem Follows.evaluate_returns_iff (h : p.Follows xs us) (hf : p.Fits ks xs us) :
    (∃ c, (p.evaluate ks xs us).2 = .ok c) ↔
      ∃ r, p.terminal.eval (xs.getLastD []) [] = .ok r := by
  obtain ⟨total, htotal⟩ := evaluateRunning_total (.of_forall hf.aligned
    fun t m k x u hm _ hx hu =>
      have ⟨c, y, heval, _⟩ := h.dynamics t m x u hm (getElem?_of_dropLast hx) hu
      ⟨(c, y), heval⟩) 0
  rw [hf.evaluate_snd, htotal]
  change (∃ c, (p.terminal.eval (xs.getLastD []) []).map _ = .ok c) ↔ _
  cases p.terminal.eval (xs.getLastD []) [] with
  | error f => exact ⟨nofun, nofun⟩
  | ok r => exact ⟨fun _ => ⟨r, rfl⟩, fun _ => ⟨_, rfl⟩⟩

end Problem

namespace Solver

section Directions

variable {K : Type} [ExactScalar K] {s s' t : Solver K} {p : Problem K} {c : K}

theorem SystemIsCurrent.length_residual (h : s.SystemIsCurrent) :
    s.system.residual.length = s.layout.nprimal + s.layout.ndx := by
  obtain ⟨ks, -, xr, ur, hsystem⟩ := h
  rw [hsystem, System.residual_damp_assemble]
  simp

/-- Without gaps a direction meets the constraints as they are. The Hessians need not be symmetric
for that. -/
theorem SystemIsCurrent.constraint_mulVec (h : s.SystemIsCurrent) (hf : s.Fits)
    (hg : s.problem.Gapless s.candidate.xs s.candidate.us) (hs : s.factorize = (s', .noError)) :
    s'.direction.primal.length = s'.layout.nprimal ∧
      s'.system.constraint s'.layout *ᵥ Vec.toFun _ s'.direction.primal = 0 := by
  have hviolation := h.violation_eq_zero hf hg
  have hresidual := h.length_residual
  obtain ⟨ks, -, xr, ur, hsystem⟩ := h
  obtain ⟨primal, dual, hsolve, rfl⟩ := factorize_eq_noError hs
  have hmatrix : s.system.matrix =
      Mat.grid s.layout.slots s.layout.slots (System.dampedEntry ks xr.addend ur.addend) := by
    rw [hsystem]
    exact System.matrix_damp_assemble xr ur
  obtain ⟨hlen, -, hst⟩ := System.stationary_lower_of_solve? hmatrix hresidual hsolve
  refine ⟨hlen, ?_⟩
  have hmet := hst.constraint
  rw [hviolation, neg_zero] at hmet
  exact hmet

theorem SystemIsCurrent.drop_residual (h : s.SystemIsCurrent) (hf : s.Fits)
    (hg : s.problem.Gapless s.candidate.xs s.candidate.us) :
    s.system.residual.drop s.layout.nprimal = Vec.zeros s.layout.ndx := by
  have hlen : (s.system.residual.drop s.layout.nprimal).length = s.layout.ndx := by
    rw [List.length_drop, h.length_residual, Nat.add_sub_cancel_left]
  refine (Vec.toFun_eq_iff hlen (Vec.length_zeros _)).mp ?_
  rw [Vec.toFun_zeros]
  exact h.violation_eq_zero hf hg

theorem SystemIsCurrent.after (h : s.SystemIsCurrent) (hf : s.Fits) {ops : List (Operation K)}
    (hops : ops.all Operation.keepsTrajectory = true) :
    (s.after ops).SystemIsCurrent ∧ (s.after ops).problem = s.problem ∧
      (s.after ops).candidate = s.candidate := by
  obtain ⟨ks, hl, xr, ur, hsystem⟩ := h
  obtain ⟨c, hc⟩ := Problem.Fits.linearize_of_linearizedAt hf hl
  have hA := Problem.Fits.systemAt hf hc
  have hstands : s.StandsAt s.problem s.candidate
      (System.assemble s.layout ks (s.problem.gaps ks s.candidate.xs)) :=
    ⟨rfl, rfl, hf, xr, ur, hsystem⟩
  obtain ⟨hproblem, hcandidate, -, xr', ur', hsystem'⟩ := hstands.after hA hops
  have hlayout : (s.after ops).layout = s.layout := congrArg Layout.ofProblem hproblem
  refine ⟨⟨ks, ?_, xr', ur', ?_⟩, hproblem, hcandidate⟩
  · rw [hproblem, hcandidate]
    exact hl
  · rw [hsystem', hcandidate, hproblem, hlayout]
    rfl

theorem SystemIsCurrent.constraint_computeDirection (h : s.SystemIsCurrent) (hf : s.Fits)
    (hg : s.problem.Gapless s.candidate.xs s.candidate.us) {relinearize : Bool}
    (hs : s.computeDirection relinearize = (s', .ok .noError)) :
    s'.direction.primal.length = s'.layout.nprimal ∧
      s'.system.constraint s'.layout *ᵥ Vec.toFun _ s'.direction.primal = 0 := by
  obtain ⟨s₁, h₁, hproblem, hcandidate, hfactor⟩ := Fits.system_computeDirection hf (fun _ => h) hs
  -- the direction is all that the factorization changes
  have hfst : s' = { s₁ with direction := s'.direction } := by
    have hsolved := s₁.factorize_fst
    rwa [hfactor] at hsolved
  have hf₁ : s₁.Fits := by
    have hkept := s.preserved_computeDirection relinearize
    rw [hs] at hkept
    have hf' : s'.Fits := hkept.fits hf
    rwa [hfst] at hf'
  refine h₁.constraint_mulVec hf₁ ?_ hfactor
  rwa [hproblem, hcandidate]

end Directions

/-- A linearization along a rollout: nothing is violated, the cost is the sum of those of all knots,
and as long as the trajectory stays a direction that is found does not move the constraints. -/
structure Closes (t : Solver ℝ) (xs us : List (Vec ℝ)) (cost : ℝ) : Prop where
  violation : t.system.residual.drop t.layout.nprimal = Vec.zeros t.layout.ndx
  total : ∃ costs, Problem.CostsAlong t.problem.models xs us costs ∧ cost = costs.sum
  direction : ∀ later : List (Operation ℝ), later.all Operation.keepsTrajectory = true →
    ∀ relinearize w, (t.after later).computeDirection relinearize = (w, .ok .noError) →
      w.direction.primal.length = w.layout.nprimal ∧
        w.system.constraint w.layout *ᵥ Vec.toFun _ w.direction.primal = 0

/-- What becomes of a rollout that a solver is handed as its candidate. -/
structure TakesRollout (s : Solver ℝ) (xs us : List (Vec ℝ)) (feasible : Bool) : Prop where
  follows : s.problem.Follows xs us
  accepted : s.setCandidate (xs.map .ofVec) (us.map .ofVec) feasible =
    ({ s with candidate := { xs, us, feasible } }, .ok ())
  returns : (∃ t c, (s.setCandidate (xs.map .ofVec) (us.map .ofVec) feasible).1.linearize =
      (t, .ok c)) ↔
    (∃ r, s.problem.terminal.eval (xs.getLastD []) [] = .ok r) ∧
      (∀ (t : ℕ) (m : Model ℝ), s.problem.running[t]? = some m →
        ∃ slopes, m.deriv (xs.getD t []) (us.getD t []) = .ok slopes) ∧
      ∃ slopes, s.problem.terminal.deriv (xs.getLastD []) [] = .ok slopes
  closes : ∀ t c, (s.setCandidate (xs.map .ofVec) (us.map .ofVec) feasible).1.linearize =
    (t, .ok c) → t.Closes xs us c

variable {s t : Solver ℝ} {xs us : List (Vec ℝ)} {c : ℝ}

theorem linearize_returns_iff (s : Solver ℝ) : (∃ t c, s.linearize = (t, .ok c)) ↔
    ∃ c, (s.problem.linearize s.knots s.candidate.xs s.candidate.us).2 = .ok c := by
  unfold Solver.linearize
  rcases s.problem.linearize s.knots s.candidate.xs s.candidate.us with ⟨knots, f | c⟩
  · constructor <;> rintro ⟨_, _⟩ <;> simp_all
  · exact ⟨fun _ => ⟨c, rfl⟩, fun _ => ⟨_, c, rfl⟩⟩

theorem closes_linearize (hf : s.Fits) (hg : s.problem.Gapless s.candidate.xs s.candidate.us)
    (h : s.linearize = (t, .ok c)) : t.Closes s.candidate.xs s.candidate.us c := by
  have hcurrent : t.SystemIsCurrent := Fits.systemIsCurrent hf h
  have hft : t.Fits := by
    have hkept := s.preserved_linearize
    rw [h] at hkept
    exact hkept.fits hf
  obtain ⟨knots, hl, ht⟩ := linearize_eq_ok h
  have hproblem : t.problem = s.problem := by rw [ht]
  have hcandidate : t.candidate = s.candidate := by rw [ht]
  have hgt : t.problem.Gapless t.candidate.xs t.candidate.us := by
    rwa [hproblem, hcandidate]
  constructor
  case violation => exact hcurrent.drop_residual hft hgt
  case total =>
    obtain ⟨costs, hcosts, rfl⟩ :=
      (Problem.Fits.evaluate_ok_iff hf).mp (Problem.Fits.linearize_ok hf hl).2
    exact ⟨costs, hproblem ▸ hcosts, List.sum_eq_foldl.symm⟩
  case direction =>
    intro later hlater relinearize w hw
    obtain ⟨hlatercurrent, hp, hc⟩ := hcurrent.after hft hlater
    refine hlatercurrent.constraint_computeDirection ((t.preserved_after later).fits hft) ?_ hw
    rwa [hp, hc]

/-- A rollout is taken over as it stands, and has no gaps, whatever the solver has gone through and
whichever records the rollout has gone through. -/
theorem takesRollout_after {x0 : Tensor ℝ} (hx0 : x0.Valid) {running : List (Model ℝ)}
    {terminal : Model ℝ} {p : Problem ℝ} (hbuild : Problem.build x0 running terminal = .ok p)
    (hlands : ∀ m ∈ p.running, m.Lands) (o : Options ℝ) (past : List (Operation ℝ)) {ks : Knots ℝ}
    (hks : ks.running.length = p.horizon) (hus : us.map List.length = p.running.map (·.nu))
    (hroll : (p.rollout ks us).2 = .ok xs) (feasible : Bool) :
    ((create p o).after past).TakesRollout xs us feasible := by
  have hlen : us.length = p.horizon := by simpa [Problem.horizon] using congrArg List.length hus
  obtain ⟨hxs, hfollows⟩ := Problem.follows_of_rollout hks hlen hroll
  have hshaped := hfollows.shaped (Problem.wellFormed_of_build hx0 hbuild) hlands hxs hus
  have hproblem := problem_after (p := p) (o := o) past
  have hfits := fits_after (p := p) (o := o) past
  generalize (create p o).after past = s at *
  subst hproblem
  have haccepted : s.setCandidate (xs.map .ofVec) (us.map .ofVec) feasible =
      ({ s with candidate := { xs, us, feasible } }, .ok ()) :=
    setCandidate_ok (Problem.trajectory_ofVec hshaped)
  have hfs : s.problem.Fits s.knots xs us :=
    ⟨hfits.knots, hshaped.length_states, hshaped.length_controls⟩
  have hstands : ({ s with candidate := { xs, us, feasible } } : Solver ℝ).Fits := hfs
  constructor
  case follows => exact hfollows
  case accepted => exact haccepted
  case returns =>
    rw [haccepted, linearize_returns_iff, ← hfollows.evaluate_returns_iff hfs]
    exact hfs.linearize_returns_iff
  case closes =>
    intro t c h
    rw [haccepted] at h
    exact closes_linearize hstands (hfollows.gapless hshaped) h

end Solver

theorem Model.lands_turn : (turn : Model ℝ).Lands := by
  intro x u c y hx hu h
  obtain ⟨-, rfl⟩ := Prod.mk.inj (Except.ok.inj h)
  exact Manifold.length_integrate hx hu

theorem Solver.takesRollout_after_turn :
    let p : Problem ℝ := { x0 := [1, 0], running := [.turn, .turn], terminal := .height }
    let turned : Vec ℝ := (Manifold.rotation 0).integrate [1, 0] [1]
    let xs : List (Vec ℝ) := [[1, 0], turned, (Manifold.rotation 0).integrate turned [2]]
    let us : List (Vec ℝ) := [[1], [2]]
    let s := (create p .lenient).after [.setCandidate [] [] true, .tryStep 1]
    (p.rollout p.fresh us).2 = .ok xs ∧ s.TakesRollout xs us true ∧
      ∃ t c, (s.setCandidate (xs.map .ofVec) (us.map .ofVec) true).1.linearize = (t, .ok c) ∧
        t.Closes xs us c := by
  intro p turned xs us s
  have hbuild : Problem.build (.ofVec [1, 0]) [.turn, .turn] .height = .ok p := rfl
  have hlands : ∀ m ∈ p.running, m.Lands := by
    intro m hm
    rcases List.mem_pair.mp hm with rfl | rfl <;> exact Model.lands_turn
  have hknots : p.fresh.running.length = p.horizon := rfl
  have hroll : (p.rollout p.fresh us).2 = .ok xs := rfl
  have htakes := takesRollout_after (Tensor.valid_ofVec _) hbuild hlands .lenient
    [.setCandidate [] [] true, .tryStep 1] hknots rfl hroll true
  have hproblem : s.problem = p := problem_after _
  have hreturns : ∃ t c, (s.setCandidate (xs.map .ofVec) (us.map .ofVec) true).1.linearize =
      (t, .ok c) := by
    rw [htakes.returns, hproblem]
    refine ⟨⟨_, rfl⟩, fun t m hm => ?_, _, rfl⟩
    rcases List.mem_pair.mp (List.mem_of_getElem? hm) with rfl | rfl <;> exact ⟨_, rfl⟩
  obtain ⟨t, c, h⟩ := hreturns
  exact ⟨hroll, htakes, t, c, h, htakes.closes t c h⟩

end Shooting
