import Shooting.Proofs.Descent
import Shooting.Proofs.Outcome

/-! # What the flag of feasibility says

A candidate is held to be feasible as soon as one step has been accepted, however short it was. But
along affine dynamics a step of length `a` leaves the share `1 - a` of every gap. So the candidate
has no gaps only if there were none at first, or if a full step has been accepted since.
-/

namespace Shooting

open Matrix

variable {K : Type} [ExactScalar K]

namespace Problem

/-- The tangent vectors by which the first state differs from the fixed one, and every other from
where the model before it leads. -/
structure GapsAlong (p : Problem K) (xs us : List (Vec K)) (g : ∀ t, Fin (p.layout.ndxAt t) → K) :
    Prop where
  initial : ∀ m : Model K, p.running[0]? = some m →
    Vec.toFun _ (m.state.diff p.x0 (xs.getD 0 [])) = g 0
  dynamics : ∀ (t : ℕ) (m : Model K), p.running[t]? = some m → ∃ c y,
    m.eval (xs.getD t []) (us.getD t []) = .ok (c, y) ∧
      Vec.toFun _ (m.next.diff y (xs.getD (t + 1) [])) = g (t + 1)

variable {p : Problem K} {xs us xs' us' dxs dus : List (Vec K)} {ks : Knots K}
  {g : ∀ t, Fin (p.layout.ndxAt t) → K} {a : K} {t : ℕ}

theorem LinearizedAt.gapsAlong (hl : p.LinearizedAt xs us ks) (hf : p.Fits ks xs us) :
    p.GapsAlong xs us (p.layout.stateAt (p.gaps ks xs)) := by
  constructor
  · intro m hm
    rw [← hf.gaps_zero hm]
    rfl
  · intro t m hm
    obtain ⟨k, hk, he, -⟩ := hl.get hf.states hm
    refine ⟨k.cost, k.xnext, he, ?_⟩
    rw [← hf.gaps_succ hm hk]
    rfl

theorem GapsAlong.unique {g' : ∀ t, Fin (p.layout.ndxAt t) → K} (h : p.GapsAlong xs us g)
    (h' : p.GapsAlong xs us g') (hpos : 0 < p.horizon) (ht : t < p.horizon + 1) : g t = g' t := by
  cases t with
  | zero =>
    have hm := List.getElem?_eq_getElem (l := p.running) hpos
    exact (h.initial _ hm).symm.trans (h'.initial _ hm)
  | succ t =>
    have hm := List.getElem?_eq_getElem (l := p.running) (Nat.lt_of_succ_lt_succ ht)
    obtain ⟨c, y, he, hy⟩ := h.dynamics t _ hm
    obtain ⟨c', y', he', hy'⟩ := h'.dynamics t _ hm
    obtain ⟨-, rfl⟩ := Prod.mk.inj (Except.ok.inj (he.symm.trans he'))
    exact hy.symm.trans hy'

section Affine

variable (hp : p.Affine) (hw : p.WellFormed) (hs : p.Shaped xs us)

include hp hw hs

theorem Affine.toFun_diff_initial {m : Model K} (hm : p.running[0]? = some m) :
    Vec.toFun (p.layout.ndxAt 0) (m.state.diff p.x0 (xs.getD 0 [])) =
      p.layout.stateAt xs 0 - Vec.toFun _ p.x0 := by
  obtain ⟨hdiff, hlen⟩ := hp.diff_initial hw hm (xs.getD 0 [])
  rw [hdiff, Vec.toFun_sub ((hp.length_state hs (Nat.succ_pos _)).trans hlen.symm)]
  rfl

theorem Affine.toFun_diff_next {m : Model K} (hm : p.running[t]? = some m) {c : K} {y : Vec K}
    (he : m.eval (xs.getD t []) (us.getD t []) = .ok (c, y))
    {f : AffineDynamics K (p.layout.ndxAt t) (p.layout.nuAt t) (p.layout.ndxAt (t + 1))}
    (hf : m.Affine f) :
    Vec.toFun (p.layout.ndxAt (t + 1)) (m.next.diff y (xs.getD (t + 1) [])) =
      p.layout.stateAt xs (t + 1) - f.next (p.layout.stateAt xs t) (p.layout.controlAt us t) := by
  have ht : t < p.horizon := (List.getElem?_eq_some_iff.mp hm).1
  obtain ⟨hdiff, hlen, hy⟩ := hp.diff_next hw hs hm he (xs.getD (t + 1) [])
  rw [hdiff, Vec.toFun_sub ((hp.length_state hs (Nat.succ_lt_succ ht)).trans hlen.symm), hy f hf]
  rfl

theorem GapsAlong.gapless_iff (hg : p.GapsAlong xs us g) :
    p.Gapless xs us ↔ ∀ t < p.horizon + 1, g t = 0 := by
  have hinitial {m : Model K} (hm : p.running[0]? = some m) :
      (m.state.diff p.x0 (xs.getD 0 [])).length = p.layout.ndxAt 0 := by
    obtain ⟨hdiff, hlen⟩ := hp.diff_initial hw hm (xs.getD 0 [])
    rw [hdiff, Vec.length_sub, hp.length_state hs (Nat.succ_pos _), hlen, min_self]
  have hdynamics {t : ℕ} {m : Model K} (hm : p.running[t]? = some m) {c : K} {y : Vec K}
      (he : m.eval (xs.getD t []) (us.getD t []) = .ok (c, y)) :
      (m.next.diff y (xs.getD (t + 1) [])).length = p.layout.ndxAt (t + 1) := by
    have ht : t < p.horizon := (List.getElem?_eq_some_iff.mp hm).1
    obtain ⟨hdiff, hlen, -⟩ := hp.diff_next hw hs hm he (xs.getD (t + 1) [])
    rw [hdiff, Vec.length_sub, hp.length_state hs (Nat.succ_lt_succ ht), hlen, min_self]
  constructor
  · rintro h (_ | t) ht
    · have hm := List.getElem?_eq_getElem hw.horizon
      rw [← hg.initial _ hm]
      exact (Vec.toFun_eq_zero_iff (hinitial hm)).mpr (h.initial _ hm)
    · have hm := List.getElem?_eq_getElem (l := p.running) (Nat.lt_of_succ_lt_succ ht)
      obtain ⟨c, y, he, hy⟩ := hg.dynamics t _ hm
      obtain ⟨c', y', he', hzero⟩ := h.dynamics t _ hm
      obtain ⟨-, rfl⟩ := Prod.mk.inj (Except.ok.inj (he.symm.trans he'))
      rw [← hy]
      exact (Vec.toFun_eq_zero_iff (hdynamics hm he)).mpr hzero
  · intro h
    constructor
    · intro m hm
      apply (Vec.toFun_eq_zero_iff (hinitial hm)).mp
      rw [hg.initial m hm, h 0 (Nat.succ_pos _)]
    · intro t m hm
      obtain ⟨c, y, he, hy⟩ := hg.dynamics t m hm
      refine ⟨c, y, he, (Vec.toFun_eq_zero_iff (hdynamics hm he)).mp ?_⟩
      rw [hy, h (t + 1) (Nat.succ_lt_succ (List.getElem?_eq_some_iff.mp hm).1)]

end Affine

/-- Increments that make up for gaps, as far as the recorded derivatives go. -/
structure Closes (p : Problem K) (ks : Knots K) (g : ∀ t, Fin (p.layout.ndxAt t) → K)
    (dxs dus : List (Vec K)) : Prop where
  initial : p.layout.stateAt dxs 0 = -g 0
  dynamics : ∀ t < p.horizon,
    p.layout.stateAt dxs (t + 1) - ks.fx p.layout t *ᵥ p.layout.stateAt dxs t -
        ks.fu p.layout t *ᵥ p.layout.controlAt dus t =
      -g (t + 1)

structure MovedBy (p : Problem K) (a : K) (d : Direction K) (c c' : Trajectory K) : Prop where
  shaped : p.Shaped c.xs c.us
  moved : p.Shaped c'.xs c'.us
  dxs : d.dxs.map List.length = p.layout.ndxs
  dus : d.dus.map List.length = p.layout.nus
  states : ∀ t m, p.models[t]? = some m →
    c'.xs.getD t [] = m.state.integrate (c.xs.getD t []) (Vec.scale a (d.dxs.getD t []))
  controls : ∀ t < p.horizon,
    c'.us.getD t [] = Vec.add (c.us.getD t []) (Vec.scale a (d.dus.getD t []))

/-- The gaps of a trajectory as far as the models return along it. -/
structure GapsWhere (p : Problem K) (xs us : List (Vec K)) (g : ∀ t, Fin (p.layout.ndxAt t) → K) :
    Prop where
  initial : ∀ m : Model K, p.running[0]? = some m →
    Vec.toFun _ (m.state.diff p.x0 (xs.getD 0 [])) = g 0
  dynamics : ∀ (t : ℕ) (m : Model K) (c : K) (y : Vec K), p.running[t]? = some m →
    m.eval (xs.getD t []) (us.getD t []) = .ok (c, y) →
      Vec.toFun _ (m.next.diff y (xs.getD (t + 1) [])) = g (t + 1)

theorem GapsWhere.gapsAlong (h : p.GapsWhere xs us g)
    (he : ∀ (t : ℕ) (m : Model K), p.running[t]? = some m →
      ∃ r, m.eval (xs.getD t []) (us.getD t []) = .ok r) : p.GapsAlong xs us g where
  initial := h.initial
  dynamics t m hm := by
    obtain ⟨⟨c, y⟩, hr⟩ := he t m hm
    exact ⟨c, y, hr, h.dynamics t m c y hm hr⟩

section Moved

variable {d : Direction K} {c c' : Trajectory K} (h : p.MovedBy a d c c') (hp : p.Affine) {k : ℕ}

include h

theorem MovedBy.controlAt (hk : k < p.horizon) :
    p.layout.controlAt c'.us k = p.layout.controlAt c.us k + a • p.layout.controlAt d.dus k := by
  have hm := List.getElem?_eq_getElem (l := p.running) hk
  have hlen : (c.us.getD k []).length = (Vec.scale a (d.dus.getD k [])).length := by
    rw [Vec.length_scale, h.shaped.length_control hm, length_getD h.dus, Layout.getD_nus hm]
  rw [Layout.controlAt, h.controls k hk, Vec.toFun_add hlen, Vec.toFun_scale]
  rfl

include hp

theorem MovedBy.stateAt (hk : k < p.horizon + 1) :
    p.layout.stateAt c'.xs k = p.layout.stateAt c.xs k + a • p.layout.stateAt d.dxs k := by
  have hm := List.getElem?_eq_getElem (l := p.models) (i := k) (by simpa using hk)
  have hlen : (c.xs.getD k []).length = (Vec.scale a (d.dxs.getD k [])).length := by
    rw [Vec.length_scale, hp.length_state h.shaped hk, length_getD h.dxs]
    rfl
  rw [Layout.stateAt, h.states k _ hm, hp.state_eq hm, Manifold.integrate, Vec.toFun_add hlen,
    Vec.toFun_scale]
  rfl

variable (hw : p.WellFormed) (hg : p.GapsAlong c.xs c.us g) (hc : p.Closes ks g d.dxs d.dus)

include hw hg hc

theorem MovedBy.initial_gap :
    p.layout.stateAt c'.xs 0 - Vec.toFun _ p.x0 = (1 - a) • g 0 := by
  have hgap := hg.initial _ (List.getElem?_eq_getElem hw.horizon)
  rw [hp.toFun_diff_initial hw h.shaped (List.getElem?_eq_getElem hw.horizon)] at hgap
  rw [h.stateAt hp (Nat.succ_pos _), hc.initial, smul_neg, ← sub_eq_add_neg, sub_right_comm, hgap,
    sub_smul, one_smul]

variable (hl : p.LinearizedAt c.xs c.us ks)

include hl

/-- It leaves the same share of every other gap, also where the model raises a fault at the end of
the step. -/
theorem MovedBy.dynamics_gap {m : Model K} (hm : p.running[k]? = some m)
    {f : AffineDynamics K (p.layout.ndxAt k) (p.layout.nuAt k) (p.layout.ndxAt (k + 1))}
    (hf : m.Affine f) :
    p.layout.stateAt c'.xs (k + 1) -
        f.next (p.layout.stateAt c'.xs k) (p.layout.controlAt c'.us k) =
      (1 - a) • g (k + 1) := by
  have hk : k < p.horizon := (List.getElem?_eq_some_iff.mp hm).1
  obtain ⟨cost, y, he, hgap⟩ := hg.dynamics k m hm
  have haffine := hp.affineAt_running hm hf h.shaped hl
  have hclosed := hc.dynamics k hk
  rw [haffine.fx_eq, haffine.fu_eq] at hclosed
  rw [hp.toFun_diff_next hw h.shaped hm he hf] at hgap
  rw [h.stateAt hp (Nat.succ_lt_succ hk), h.stateAt hp (Nat.lt_succ_of_lt hk), h.controlAt hk,
    AffineDynamics.next_add]
  let dxs := p.layout.stateAt d.dxs
  let dus := p.layout.controlAt d.dus
  calc _ = p.layout.stateAt c.xs (k + 1) -
          f.next (p.layout.stateAt c.xs k) (p.layout.controlAt c.us k) +
        a • (dxs (k + 1) - f.A *ᵥ dxs k - f.B *ᵥ dus k) := by
        simp only [mulVec_smul, smul_sub]
        abel
    _ = (1 - a) • g (k + 1) := by
        rw [hgap, hclosed, smul_neg, ← sub_eq_add_neg, sub_smul, one_smul]

theorem MovedBy.gapsWhere : p.GapsWhere c'.xs c'.us fun k => (1 - a) • g k where
  initial m hm := by
    rw [hp.toFun_diff_initial hw h.moved hm]
    exact h.initial_gap hp hw hg hc
  dynamics k m cost y hm he := by
    obtain ⟨f, hf⟩ := hp.modelAt hw hm
    rw [hp.toFun_diff_next hw h.moved hm he hf]
    exact h.dynamics_gap hp hw hg hc hl hm hf

end Moved

end Problem

namespace Solver

variable {s s' t : Solver K} {xs us : List (Vec K)} {a : K}

theorem LinearizedAlong.exists_gapsAlong {p : Problem K} (h : s.LinearizedAlong xs us)
    (hp : s.problem = p) (hx : xs.length = p.horizon + 1) (hu : us.length = p.horizon) :
    ∃ g, p.GapsAlong xs us g := by
  subst hp
  obtain ⟨ks, hl, -⟩ := h
  exact ⟨_, hl.gapsAlong ⟨hl.running.length_eq, hx, hu⟩⟩

/-- A direction that has been found closes the gaps along the last linearization, whether the second
derivatives are symmetric or not. -/
theorem LinearizedAlong.closes (h : s.LinearizedAlong xs us) (hs : s.factorize = (s', .noError))
    (hx : xs.length = s'.problem.horizon + 1) (hu : us.length = s'.problem.horizon)
    (hpos : 0 < s'.problem.horizon) {g : ∀ t, Fin (s'.problem.layout.ndxAt t) → K}
    (hg : s'.problem.GapsAlong xs us g) :
    ∃ ks, s'.problem.LinearizedAt xs us ks ∧
      s'.problem.Closes ks g s'.direction.dxs s'.direction.dus := by
  obtain ⟨ks, hl, -, xr, ur, hA⟩ := h
  obtain ⟨primal, dual, hsolve, rfl⟩ := factorize_eq_noError hs
  have hmatrix : s.system.matrix = Mat.grid s.layout.slots s.layout.slots
      (System.dampedEntry ks xr.addend ur.addend) := by
    rw [hA]
    exact System.matrix_damp_assemble xr ur
  have hresidual : s.system.residual =
      s.layout.increments.map (System.residualEntry ks (s.problem.gaps ks xs)) ++
        s.layout.multipliers.map (System.residualEntry ks (s.problem.gaps ks xs)) := by
    rw [hA]
    exact System.residual_damp_assemble xr ur
  have hlen : s.system.residual.length = s.layout.nprimal + s.layout.ndx := by
    rw [hresidual]
    simp
  obtain ⟨hprimal, hdual, hst⟩ := System.stationary_lower_of_solve? hmatrix hlen hsolve
  let d : Direction K := .ofSolution s.layout primal dual
  have hd : s.layout.increments.map (Slot.value d.dxs d.dus d.lambdas) = primal :=
    Layout.map_value_increments hprimal _
  have hrows := (System.constraint_mulVec_iff hmatrix hresidual
    (z := Slot.value d.dxs d.dus d.lambdas)).mp (by
      rw [hd]
      exact hst.constraint)
  have hgaps := hl.gapsAlong ⟨hl.running.length_eq, hx, hu⟩
  have hndxs : s.problem.layout.ndxs.length = s.problem.horizon + 1 := Layout.length_ndxs _
  refine ⟨ks, hl, ?_, ?_⟩
  · rw [hg.unique hgaps hpos (Nat.succ_pos _)]
    exact initial_row hrows (hndxs ▸ Nat.succ_pos _)
  · intro t ht
    rw [hg.unique hgaps hpos (Nat.succ_lt_succ ht)]
    exact dynamics_row hrows (hndxs ▸ Nat.succ_lt_succ ht)

theorem Steps.movedBy (h : s.Steps a t) (hd : s.Directed) (hacc : t.search.accepted = true) :
    s.problem.MovedBy a s.direction s.candidate.toTrajectory t.candidate.toTrajectory :=
  ⟨hd.shaped, h.shaped, hd.dxs, hd.dus, h.states hacc, h.controls hacc⟩

def acceptedSteps {α : Type} (points : List (Solver α)) : List α :=
  (points.filter fun s => s.search.accepted).map (·.steplength)

end Solver

namespace Run

variable {r r₁ : Run K} {s t : Solver K} {a : K} {p : Problem K} {fuel iter : ℕ}

theorem Searched.gapsAlong (h : r.Searched s a t) (hr : r.solver.problem = p) (hp : p.Affine)
    (hw : p.WellFormed) (hacc : t.search.accepted = true)
    {g : ∀ t, Fin (p.layout.ndxAt t) → K}
    (hg : p.GapsAlong r.solver.candidate.xs r.solver.candidate.us g) :
    p.GapsAlong t.candidate.xs t.candidate.us fun k => (1 - a) • g k := by
  obtain rfl : s.problem = p := h.problem.trans hr
  obtain ⟨s₁, halong, -, hfactor⟩ := h.found
  rw [← h.candidate] at halong hg
  have hfits := h.directed.fits
  obtain ⟨ks, hl, hc⟩ := halong.closes hfactor hfits.states hfits.controls hw.horizon hg
  refine ((h.steps.movedBy h.directed hacc).gapsWhere hp hw hg hc hl).gapsAlong fun k m hm => ?_
  have hcosted := h.costed
  rw [← h.keeps.problem] at hm
  exact hcosted.fits.eval_ok hcosted.cost hm

end Run

/-- What becomes of a candidate by steps of the given lengths that are accepted one after the
other. -/
structure Candidate.Reaches (first : Candidate K) (p : Problem K) (steps : List K)
    (c : Candidate K) : Prop where
  flag : c.feasible = true ↔ first.feasible = true ∨ steps ≠ []
  stays : steps = [] → c.toTrajectory = first.toTrajectory
  evaluated : steps ≠ [] → ∃ g, p.GapsAlong first.xs first.us g
  gaps : p.Affine → p.WellFormed → ∀ g, p.GapsAlong first.xs first.us g →
    p.GapsAlong c.xs c.us fun t => (steps.map (1 - ·)).prod • g t

namespace Candidate.Reaches

variable {p : Problem K} {first c c' : Candidate K} {as bs : List K}

theorem refl (p : Problem K) (c : Candidate K) : c.Reaches p [] c := by
  constructor
  case flag => simp
  case stays => exact fun _ => rfl
  case evaluated => exact fun h => absurd rfl h
  case gaps =>
    intro _ _ g hg
    simpa using hg

theorem trans (h : first.Reaches p as c) (h' : c.Reaches p bs c') :
    first.Reaches p (as ++ bs) c' := by
  constructor
  case flag =>
    rw [h'.flag, h.flag, or_assoc, ne_eq (as ++ bs), List.append_eq_nil_iff, not_and_or]
  case stays =>
    intro hnil
    obtain ⟨has, hbs⟩ := List.append_eq_nil_iff.mp hnil
    exact (h'.stays hbs).trans (h.stays has)
  case evaluated =>
    intro hne
    cases as with
    | nil =>
      obtain ⟨g, hg⟩ := h'.evaluated hne
      rw [h.stays rfl] at hg
      exact ⟨g, hg⟩
    | cons a as => exact h.evaluated (List.cons_ne_nil a as)
  case gaps =>
    intro hp hw g hg
    have hgaps := h'.gaps hp hw _ (h.gaps hp hw g hg)
    simpa only [List.map_append, List.prod_append, smul_smul, mul_comm] using hgaps

section

variable (h : first.Reaches p as c)

include h

theorem truthful (hfirst : first.feasible = true → p.Gapless first.xs first.us) (has : as = [])
    (hc : c.feasible = true) : p.Gapless c.xs c.us := by
  rw [h.stays has]
  exact hfirst ((h.flag.mp hc).resolve_right (not_not.mpr has))

variable (hp : p.Affine) (hw : p.WellFormed) (hs : p.Shaped first.xs first.us)
  (hs' : p.Shaped c.xs c.us)

include hp hw hs hs'

theorem gapless_iff : p.Gapless c.xs c.us ↔ p.Gapless first.xs first.us ∨ 1 ∈ as := by
  rcases eq_or_ne as [] with rfl | hne
  · rw [h.stays rfl]
    simp
  · obtain ⟨g, hg⟩ := h.evaluated hne
    have hfull : (as.map (1 - ·)).prod = 0 ↔ 1 ∈ as := by
      simp [List.prod_eq_zero_iff, sub_eq_zero]
    rw [(h.gaps hp hw g hg).gapless_iff hp hw hs', hg.gapless_iff hp hw hs, ← hfull]
    constructor
    · intro hzero
      rcases eq_or_ne (as.map (1 - ·)).prod 0 with hprod | hprod
      · exact .inr hprod
      · exact .inl fun t ht => (smul_eq_zero.mp (hzero t ht)).resolve_left hprod
    · rintro (hzero | hprod) t ht
      · rw [hzero t ht, smul_zero]
      · rw [hprod, zero_smul]

theorem truthful_iff (hfirst : first.feasible = true → p.Gapless first.xs first.us) :
    (c.feasible = true → p.Gapless c.xs c.us) ↔
      as = [] ∨ p.Gapless first.xs first.us ∨ 1 ∈ as := by
  rw [h.gapless_iff hp hw hs hs', h.flag]
  constructor
  · intro himp
    rcases eq_or_ne as [] with has | has
    · exact .inl has
    · exact .inr (himp (.inr has))
  · rintro (rfl | hor) hflag
    · exact .inl (hfirst (hflag.resolve_right (not_not.mpr rfl)))
    · exact hor

end

end Candidate.Reaches

namespace Solver

variable {α : Type} [Scalar α] {s : Solver α} {points : List (Solver α)}

omit [Scalar α] in
theorem acceptedSteps_append (points points' : List (Solver α)) :
    acceptedSteps (points ++ points') = acceptedSteps points ++ acceptedSteps points' := by
  simp [acceptedSteps]

omit [Scalar α] in
theorem acceptedSteps_singleton (s : Solver α) : acceptedSteps [s] =
    if s.search.accepted then [s.steplength] else [] := by
  unfold acceptedSteps
  rw [List.filter_singleton]
  cases s.search.accepted <;> rfl

end Solver

namespace Run

variable {r r₀ r₁ : Run K} {fuel iter : ℕ}

theorem reaches_of_step (hr : r.Holds Solver.Sound)
    (h : (factorize fuel true { r with solver := r.solver.numbered iter }).andThen step =
      .next r₁) :
    r.solver.candidate.Reaches r.solver.problem (Solver.acceptedSteps [r₁.solver])
        r₁.solver.candidate ∧
      ∀ a ∈ Solver.acceptedSteps [r₁.solver], a ∈ r.solver.search.alphas := by
  obtain ⟨s, a, hsearched⟩ := searched_of_step hr h
  have hflag : r₁.solver.candidate.feasible =
      (r.solver.candidate.feasible || r₁.solver.search.accepted) := (marked_of_step h).feasible
  rw [Solver.acceptedSteps_singleton]
  cases hacc : r₁.solver.search.accepted with
  | false =>
    have hstay := (hsearched.steps.rejected hacc).1.trans hsearched.candidate
    rw [if_neg Bool.false_ne_true, hstay]
    exact ⟨.refl _ _, fun a ha => absurd ha List.not_mem_nil⟩
  | true =>
    rw [if_pos rfl, hsearched.steps.steplength]
    constructor
    · constructor
      case flag => simp [hflag, hacc]
      case stays => exact fun hnil => absurd hnil (List.cons_ne_nil a [])
      case evaluated =>
        rintro -
        obtain ⟨s₁, halong, hprob, -⟩ := hsearched.found
        exact halong.exists_gapsAlong hprob hr.solver.fits.states hr.solver.fits.controls
      case gaps =>
        intro hp hw g hg
        simpa using hsearched.gapsAlong rfl hp hw hacc hg
    · intro b hb
      obtain rfl := List.mem_singleton.mp hb
      exact hsearched.mem hacc

theorem reaches_of_unassessed (hr : r.Holds Solver.Sound)
    (h : r.unassessed fuel iter = .next r₁) :
    r.solver.candidate.Reaches r.solver.problem (Solver.acceptedSteps [r₁.solver.measureStop])
        r₁.solver.candidate ∧
      ∀ a ∈ Solver.acceptedSteps [r₁.solver.measureStop], a ∈ r.solver.search.alphas := by
  obtain ⟨r₂, hr₂, hadapt⟩ := Flow.andThen_eq_next h
  have hreaches := reaches_of_step hr hr₂
  obtain ⟨xreg, ureg, hs⟩ := solver_adapt hadapt
  rw [Solver.acceptedSteps_singleton] at hreaches ⊢
  rw [hs]
  exact hreaches

end Run

namespace Solver

/-- What the flag of a candidate says, if steps of the given lengths have been accepted on the way
to it from the candidate that a solve began with. -/
structure Flags (p : Problem K) (o : Options K) (first : Candidate K) (steps : List K)
    (c : Candidate K) : Prop where
  scheduled : ∀ a ∈ steps, a ∈ o.alphas
  reached : first.Reaches p steps c
  truthful : (first.feasible = true → p.Gapless first.xs first.us) → steps = [] →
    c.feasible = true → p.Gapless c.xs c.us
  gapless_iff : p.Affine → p.WellFormed →
    (p.Gapless c.xs c.us ↔ p.Gapless first.xs first.us ∨ 1 ∈ steps)
  truthful_iff : p.Affine → p.WellFormed →
    (first.feasible = true → p.Gapless first.xs first.us) →
      ((c.feasible = true → p.Gapless c.xs c.us) ↔
        steps = [] ∨ p.Gapless first.xs first.us ∨ 1 ∈ steps)

variable {s : Solver K} {fuel iter : ℕ} {xs us : List (Tensor K)} {maxiter : ℤ} {feasible : Bool}
  {reginit : Weight K} {r : Run K}

theorem Iterates.reaches (h : s.Iterates fuel xs us maxiter feasible reginit iter r) (hf : s.Fits)
    (hx : ∀ a ∈ xs, a.Valid) (hu : ∀ a ∈ us, a.Valid) {c : Trajectory K}
    (hc : s.problem.trajectory xs us = .ok c) :
    let steps := acceptedSteps ((s.checkpoints fuel xs us maxiter feasible reginit).take iter)
    Candidate.Reaches { c with feasible } s.problem steps r.solver.candidate ∧
      ∀ a ∈ steps, a ∈ s.search.alphas := by
  refine h.invariant (P := fun points r =>
    Candidate.Reaches { c with feasible } s.problem (acceptedSteps points) r.solver.candidate ∧
      ∀ a ∈ acceptedSteps points, a ∈ s.search.alphas) ?_ ?_
  · intro c' r₀ hc' hstart
    obtain rfl := Except.ok.inj (hc.symm.trans hc')
    have hkept := Run.kept_start { solver := s.begun c feasible reginit, events := [] }
    rw [hstart] at hkept
    have hcandidate : r₀.solver.candidate = { c with feasible } := hkept.candidate
    rw [hcandidate]
    exact ⟨.refl _ _, fun a ha => absurd ha List.not_mem_nil⟩
  · rintro points r r₁ r' hr ⟨hreaches, hmem⟩ hr₁ hr'
    obtain ⟨c', hkept⟩ := hr.preserved
    have hproblem : r.solver.problem = s.problem := hkept.problem
    have halphas : r.solver.search.alphas = s.search.alphas := hkept.search.alphas
    obtain ⟨hstep, hlast⟩ := Run.reaches_of_unassessed (hr.holds hf hx hu) hr₁
    rw [hproblem] at hstep
    rw [halphas] at hlast
    rw [acceptedSteps_append, hr']
    refine ⟨hreaches.trans hstep, fun a ha => ?_⟩
    exact (List.mem_append.mp ha).elim (hmem a) (hlast a)

/-- The candidate that an iteration starts from has been reached by the steps accepted before it,
whatever the solver has done before the solve. -/
theorem flags_after (p : Problem K) (o : Options K) (past : List (Operation K))
    (hx : ∀ a ∈ xs, a.Valid) (hu : ∀ a ∈ us, a.Valid)
    (h : ((create p o).after past).Iterates fuel xs us maxiter feasible reginit iter r) :
    ∃ c, p.trajectory xs us = .ok c ∧
      Flags p o { c with feasible }
        (acceptedSteps ((((create p o).after past).checkpoints fuel xs us maxiter feasible
          reginit).take iter)) r.solver.candidate := by
  have hf := fits_after (p := p) (o := o) past
  have hprob := problem_after (p := p) (o := o) past
  have hsearch := search_after (p := p) (o := o) past
  generalize (create p o).after past = s at h hf hprob hsearch ⊢
  subst hprob
  obtain ⟨c, r₀, hc, -⟩ := h.visits
  obtain ⟨hreaches, hmem⟩ := h.reaches hf hx hu hc
  obtain ⟨c', hkept⟩ := h.preserved
  have hproblem : r.solver.problem = s.problem := hkept.problem
  have hfirst : s.problem.Shaped c.xs c.us := Problem.shaped_trajectory hc hx hu
  have hlast : s.problem.Shaped r.solver.candidate.xs r.solver.candidate.us :=
    hproblem ▸ (h.holds hf hx hu).solver.shaped
  refine ⟨c, hc, ?_⟩
  constructor
  case scheduled =>
    rw [hsearch.alphas] at hmem
    exact hmem
  case reached => exact hreaches
  case truthful => exact hreaches.truthful
  case gapless_iff => exact fun hp hw => hreaches.gapless_iff hp hw hfirst hlast
  case truthful_iff => exact fun hp hw => hreaches.truthful_iff hp hw hfirst hlast

end Solver

theorem Search.exists_verdict {α : Type} [Scalar α] (s : Search α) (d : α × α) :
    ∃ code, s.verdict d false = some code := by
  unfold verdict
  split
  · exact ⟨_, rfl⟩
  · exact ⟨_, rfl⟩

def Options.halving : Options K :=
  { lenient with alphas := [Scalar.half, Scalar.half * Scalar.half] }

theorem Options.fault?_halving : (halving : Options K).fault? = none := by
  simp [fault?, halving, lenient, strictlyDecreasing, Bool.eq_false_iff]
  norm_num

namespace Solver

def astray (x : K) : Solver K :=
  (create (.integrator [1] 1) .halving).begun { xs := [[1], [x]], us := [[0]] } false none

/-- The first iteration accepts a half step and goes on. -/
theorem iterate_astray (x : K) (events : List (Event K)) : ∃ r',
    Run.iterate 1 0 { solver := astray x, events } = .next r' ∧
      r'.solver.search.accepted = true ∧ r'.solver.steplength = 1 / 2 := by
  let s : Solver K := (astray x).numbered 0
  have hshaped : s.problem.Shaped s.candidate.xs s.candidate.us := ⟨rfl, rfl⟩
  have hp : s.problem.LinearQuadratic := Problem.linearQuadratic_integrator
  have hw : s.problem.WellFormed := Problem.wellFormed_integrator
  have hrange := Options.fault?_eq_none_iff.mp (Options.fault?_halving (K := K))
  obtain ⟨ks, primal, dual, hsol, hd⟩ := exists_direction hp hw Problem.strictlyConvex_integrator
    ⟨rfl, rfl, rfl⟩ hshaped le_rfl le_rfl
  let t : Solver K := (s.directed ks primal dual).predict
  have hshaped' : s.problem.Shaped (t.trialAt Scalar.half).xs (t.trialAt Scalar.half).us :=
    Problem.shaped_trial _ hshaped
      (Layout.lengths_split (Layout.length_take_ndx hsol.length_primal))
      (Layout.lengths_split (Layout.length_drop_ndx hsol.length_primal))
  obtain ⟨ks', hl'⟩ := hp.exists_linearizedAt hw hshaped'
  have hfits : s.problem.Fits ks (t.trialAt Scalar.half).xs (t.trialAt Scalar.half).us :=
    ⟨hsol.linearized.running.length_eq, hshaped'.length_states, hshaped'.length_controls⟩
  obtain ⟨code, hcode⟩ := Search.exists_verdict
    { t.search with
      dV := t.cost - ks'.total
      dVexp := Search.expectedDecrease t.d Scalar.half } t.d
  obtain ⟨events', hiter⟩ := Run.iterate_first (r := { solver := astray x, events }) (s := t) hd rfl
    rfl (hfits.evaluate_total hl') rfl hcode hshaped' (hrange.last_ne rfl) List.not_mem_nil
  obtain ⟨xreg, ureg, hadapted⟩ := (t.moved Scalar.half ks'.total code).adapted_weights
  rw [hadapted] at hiter
  exact ⟨_, hiter.trans (if_neg Bool.false_ne_true), Search.accepted_of_verdict hcode,
    ExactScalar.half_eq⟩

theorem reaches_astray : ∃ r,
    (create (.integrator [1] 1) .halving : Solver K).Iterates 1 [.ofVec [1], .ofVec [3]]
      [.ofVec [0]] 2 false none 1 r ∧
    (astray 3).candidate.Reaches (.integrator [1] 1) [1 / 2] r.solver.candidate := by
  let s : Solver K := create (.integrator [1] 1) .halving
  let r : Run K := { solver := astray 3, events := [.started] }
  have hshaped : s.problem.Shaped [[1], [3]] [[0]] := ⟨rfl, rfl⟩
  have hfits : s.Fits := fits_create _ _
  have hholds : r.Holds Sound := by
    refine ⟨(hfits.holds_begun hshaped false none).solver, ?_⟩
    simp [Run.Recorded, r]
  obtain ⟨r', hiter, hacc, hlength⟩ := iterate_astray (3 : K) r.events
  obtain ⟨r₁, hr₁, -, hobs, -⟩ := Run.observes_of_next hiter
  obtain ⟨hreaches, -⟩ := Run.reaches_of_unassessed hholds hr₁
  have hsteps : acceptedSteps [r₁.solver.measureStop] = [1 / 2] := by
    rw [← hobs.solver]
    simp [acceptedSteps, hacc, hlength]
  rw [hsteps] at hreaches
  refine ⟨r', ⟨⟨_, r, Problem.trajectory_ofVec hshaped, rfl, .next .first hiter⟩, by decide⟩, ?_⟩
  rw [hobs.solver]
  exact hreaches

/-- After the half step the candidate is held to be feasible, and is not. -/
theorem feasible_astray :
    let s : Solver ℝ := create (.integrator [1] 1) .halving
    s.options.fault? = none ∧
    ∃ r, s.Iterates 1 [.ofVec [1], .ofVec [3]] [.ofVec [0]] 2 false none 1 r ∧
      r.solver.candidate.feasible = true ∧
      ¬ s.problem.Gapless r.solver.candidate.xs r.solver.candidate.us := by
  intro s
  obtain ⟨r, hiterates, hreaches⟩ := @reaches_astray ℝ _
  have hw : (Problem.integrator [(1 : ℝ)] 1).WellFormed := Problem.wellFormed_integrator
  have hholds := hiterates.holds (fits_create _ _) (Tensor.valid_of_mem_map [[1], [3]])
    (Tensor.valid_of_mem_map [[0]])
  obtain ⟨c, hkept⟩ := hiterates.preserved
  have hproblem : r.solver.problem = .integrator [1] 1 := hkept.problem
  have hgapless := hreaches.gapless_iff Problem.linearQuadratic_integrator.affine hw ⟨rfl, rfl⟩
    (hproblem ▸ hholds.solver.shaped)
  refine ⟨Options.fault?_halving, r, hiterates, ?_, ?_⟩
  · exact hreaches.flag.mpr (.inr (List.cons_ne_nil _ _))
  · refine fun h => (hgapless.mp h).elim (fun hfirst => ?_) (fun hfull => ?_)
    · obtain ⟨c, y, he, hzero⟩ := hfirst.dynamics 0 _ rfl
      cases he
      have hgap : (3 : ℝ) - (1 + 0) = 0 := hzero _ List.mem_cons_self
      norm_num at hgap
    · have hhalf : (1 : ℝ) = 1 / 2 := List.mem_singleton.mp hfull
      norm_num at hhalf

theorem flags_after_integrator :
    let s : Solver ℝ := (create (.integrator [1] 1) .halving).after []
    let xs : List (Tensor ℝ) := [[1], [3]].map .ofVec
    let us : List (Tensor ℝ) := [[0]].map .ofVec
    Problem.Affine (.integrator [1] 1 : Problem ℝ) ∧
    Problem.WellFormed (.integrator [1] 1 : Problem ℝ) ∧
    ∃ r, s.Iterates 1 xs us 2 false none 1 r ∧ r.solver.candidate.feasible = true ∧
      ∃ c, s.problem.trajectory xs us = .ok c ∧
        Flags (.integrator [1] 1) .halving { c with feasible := false }
          (acceptedSteps ((s.checkpoints 1 xs us 2 false none).take 1)) r.solver.candidate := by
  intro s xs us
  obtain ⟨r, hiterates, hreaches⟩ := @reaches_astray ℝ _
  refine ⟨Problem.linearQuadratic_integrator.affine, Problem.wellFormed_integrator, r, hiterates,
    ?_, ?_⟩
  · exact hreaches.flag.mpr (.inr (List.cons_ne_nil _ _))
  · exact flags_after (.integrator [1] 1) .halving [] (Tensor.valid_of_mem_map _)
      (Tensor.valid_of_mem_map _) hiterates

end Solver
end Shooting
