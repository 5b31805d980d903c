import Shooting.Proofs.LinearQuadratic

/-! # Linear-quadratic problems as quadratic programs

Stacked into one vector, the trajectories of a linear-quadratic problem are the points of a single
quadratic program: its Hessian and its constraint are those of any linearization, and its constraint
is met by the trajectories that follow the dynamics.
-/

namespace Shooting

open Matrix Finset

variable {K : Type} [ExactScalar K]

namespace Layout

variable {l : Layout} {t : ℕ}

def statePart (l : Layout) (d : Slot → K) (t : ℕ) : Fin (l.ndxAt t) → K := fun i => d (.state t i)

def controlPart (l : Layout) (d : Slot → K) (t : ℕ) : Fin (l.nuAt t) → K :=
  fun i => d (.control t i)

theorem sum_increments_knots (hl : l.ndxs.length = l.horizon + 1) (f : Slot → K) :
    (l.increments.map f).sum = ∑ t ∈ range (l.horizon + 1),
      (∑ i : Fin (l.ndxAt t), f (.state t i) + ∑ i : Fin (l.nuAt t), f (.control t i)) := by
  have hlast : ∑ i ∈ range (l.nus.getD l.horizon 0), f (.control l.horizon i) = 0 := by
    rw [List.getD_eq_default (n := l.horizon) l.nus _ le_rfl, range_zero, sum_empty]
  have hcontrols : ∑ t ∈ range l.nus.length, ∑ i ∈ range (l.nus.getD t 0), f (.control t i) =
      ∑ t ∈ range (l.horizon + 1), ∑ i ∈ range (l.nus.getD t 0), f (.control t i) := by
    rw [sum_range_succ, hlast, add_zero]
    rfl
  rw [sum_increments, hl, hcontrols, ← sum_add_distrib]
  simp only [sum_range]
  rfl

end Layout

namespace System

variable {l : Layout} {ks : Knots K} {t : ℕ}

theorem state_row (i : Fin (l.ndxAt t)) (d : Slot → K) :
    (l.increments.map fun τ => matrixEntry ks (.state t i) τ * d τ).sum =
      (ks.lxx l t *ᵥ l.statePart d t + ks.lxu l t *ᵥ l.controlPart d t) i := by
  rw [sum_state_row]
  simp only [sum_range]
  rfl

theorem control_row (i : Fin (l.nuAt t)) (d : Slot → K) :
    (l.increments.map fun τ => matrixEntry ks (.control t i) τ * d τ).sum =
      ((ks.lxu l t)ᵀ *ᵥ l.statePart d t + ks.luu l t *ᵥ l.controlPart d t) i := by
  rw [sum_control_row]
  simp only [sum_range]
  rfl

theorem costate_row (i : Fin (l.ndxAt (t + 1))) (d : Slot → K) :
    (l.increments.map fun τ => matrixEntry ks (.costate (t + 1) i) τ * d τ).sum =
      (l.statePart d (t + 1) -
        (ks.fx l t *ᵥ l.statePart d t + ks.fu l t *ᵥ l.controlPart d t)) i := by
  rw [sum_costate_succ_row i.isLt, sub_sub]
  simp only [sum_range]
  rfl

end System

def Knots.total (ks : Knots K) : K := ∑ t ∈ range (ks.running.length + 1), ks.costAt t

theorem Knots.total_eq (ks : Knots K) :
    ks.total = (ks.running.map (·.cost)).sum + ks.terminal.cost := by
  have hsum (l : List (Knot K)) :
      (l.map (·.cost)).sum = ∑ t ∈ range l.length, l[t]?.elim 0 (·.cost) := by
    induction l with
    | nil => rfl
    | cons k l ih =>
      rw [List.map_cons, List.sum_cons, ih, List.length_cons, sum_range_succ', add_comm]
      simp only [List.getElem?_cons_succ, List.getElem?_cons_zero, Option.elim_some]
  have hlen : (ks.running ++ [ks.terminal]).length = ks.running.length + 1 := by simp
  have := hsum (ks.running ++ [ks.terminal])
  rw [hlen] at this
  rw [total]
  simp only [costAt]
  rw [← this]
  simp

theorem Problem.evaluateRunning_sum {ms : List (Model K)} {ks ks' : List (Knot K)}
    {xs us : List (Vec K)} (h : AtKnots Model.Linearized ms ks' xs us) (ha : Aligned ms ks xs us)
    (c : K) : (evaluateRunning ms ks xs us c).2 = .ok (c + (ks'.map (·.cost)).sum) := by
  induction h generalizing ks c with
  | nil =>
    cases ha
    simp [evaluateRunning]
  | cons hr _ ih =>
    cases ha with
    | cons _ ha =>
      rw [evaluateRunning_cons, hr.1]
      simp only [ih ha, List.map_cons, List.sum_cons, add_assoc]

theorem Problem.Fits.evaluate_total {p : Problem K} {ks ks' : Knots K} {xs us : List (Vec K)}
    (h : p.Fits ks xs us) (hl : p.LinearizedAt xs us ks') :
    (p.evaluate ks xs us).2 = .ok ks'.total := by
  rw [h.evaluate_snd, evaluateRunning_sum hl.running h.aligned, zero_add, Knots.total_eq,
    hl.terminal.1]
  rfl

theorem Problem.Fits.linearize_total {p : Problem K} {ks ks' : Knots K} {xs us : List (Vec K)}
    (h : p.Fits ks xs us) (hl : p.LinearizedAt xs us ks') :
    p.linearize ks xs us = (ks', .ok ks'.total) := by
  obtain ⟨c, hc⟩ := h.linearize_of_linearizedAt hl
  have htotal := (h.linearize_ok hc).2
  rw [h.evaluate_total hl] at htotal
  rw [hc, Except.ok.inj htotal]

def Slot.difference (xs us xs' us' : List (Vec K)) (σ : Slot) : K :=
  Slot.value xs' us' [] σ - Slot.value xs us [] σ

namespace Problem

variable {p : Problem K} {xs us xs' us' : List (Vec K)} {ks ks' : Knots K} {t : ℕ}

theorem stateAt_difference (xs us xs' us' : List (Vec K)) (l : Layout) (t : ℕ) :
    l.stateAt xs' t = l.stateAt xs t + l.statePart (Slot.difference xs us xs' us') t := by
  ext i
  exact (add_sub_cancel _ _).symm

theorem controlAt_difference (xs us xs' us' : List (Vec K)) (l : Layout) (t : ℕ) :
    l.controlAt us' t = l.controlAt us t + l.controlPart (Slot.difference xs us xs' us') t := by
  ext i
  exact (add_sub_cancel _ _).symm

/-- A problem linearized along two trajectories of the right shape. -/
structure LinearizedTwice (p : Problem K) (xs us xs' us' : List (Vec K)) (ks ks' : Knots K) :
    Prop where
  shaped : p.Shaped xs us
  linearized : p.LinearizedAt xs us ks
  shaped' : p.Shaped xs' us'
  linearized' : p.LinearizedAt xs' us' ks'

variable (hp : p.LinearQuadratic) (hw : p.WellFormed)
  (h : p.LinearizedTwice xs us xs' us' ks ks')

include hp hw h

theorem LinearizedTwice.hessians (ht : t < p.horizon + 1) :
    (System.slopesAt ks' t).lxx = (System.slopesAt ks t).lxx ∧
      (System.slopesAt ks' t).lxu = (System.slopesAt ks t).lxu ∧
      (System.slopesAt ks' t).luu = (System.slopesAt ks t).luu := by
  obtain ⟨l, hl⟩ := hp.quadraticAt hw ht
  obtain ⟨-, _, _, hs⟩ := hl _ _ _ h.shaped h.linearized
  obtain ⟨-, _, _, hs'⟩ := hl _ _ _ h.shaped' h.linearized'
  rw [hs, hs']
  exact ⟨rfl, rfl, rfl⟩

theorem LinearizedTwice.jacobians (ht : t < p.horizon) :
    (System.slopesAt ks' t).fx = (System.slopesAt ks t).fx ∧
      (System.slopesAt ks' t).fu = (System.slopesAt ks t).fu := by
  obtain ⟨f, hf⟩ := hp.affine.affineAt hw ht
  obtain ⟨-, hx, hu⟩ := hf _ _ _ h.shaped h.linearized
  obtain ⟨-, hx', hu'⟩ := hf _ _ _ h.shaped' h.linearized'
  rw [hx, hu, hx', hu']
  exact ⟨rfl, rfl⟩

/-- Wherever a problem is linearized, the matrix of its system is the same in all rows. -/
theorem LinearizedTwice.matrixEntry_eq {σ τ : Slot} (hσ : σ ∈ p.layout.slots)
    (hτ : τ ∈ p.layout.increments) :
    System.matrixEntry ks' σ τ = System.matrixEntry ks σ τ := by
  have hndxs : p.layout.ndxs.length = p.horizon + 1 := Layout.length_ndxs p
  have hnus : p.layout.nus.length = p.horizon := Layout.length_nus p
  rw [Layout.slots_eq, List.mem_append] at hσ
  rcases Layout.mem_increments.mp hτ with ⟨s, j, hs, -, rfl⟩ | ⟨s, j, hs, -, rfl⟩
  · rcases hσ with hσ | hσ
    · rcases Layout.mem_increments.mp hσ with ⟨t, i, ht, -, rfl⟩ | ⟨t, i, ht, -, rfl⟩
      · obtain ⟨hxx, -, -⟩ := h.hessians hp hw (hndxs ▸ ht)
        rw [System.matrixEntry, System.matrixEntry, hxx]
      · obtain ⟨-, hxu, -⟩ := h.hessians hp hw (Nat.lt_succ_of_lt (hnus ▸ ht))
        rw [System.matrixEntry, System.matrixEntry, hxu]
    · obtain ⟨t, i, ht, -, rfl⟩ := Layout.mem_multipliers.mp hσ
      simp only [System.matrixEntry, System.matrixEntry.stateCoupling]
      split
      · rfl
      · split
        · obtain ⟨hx, -⟩ := h.jacobians hp hw (t := s) (by omega)
          rw [hx]
        · rfl
  · rcases hσ with hσ | hσ
    · rcases Layout.mem_increments.mp hσ with ⟨t, i, ht, -, rfl⟩ | ⟨t, i, ht, -, rfl⟩
      · obtain ⟨-, hxu, -⟩ := h.hessians hp hw (hndxs ▸ ht)
        rw [System.matrixEntry, System.matrixEntry, hxu]
      · obtain ⟨-, -, huu⟩ := h.hessians hp hw (Nat.lt_succ_of_lt (hnus ▸ ht))
        rw [System.matrixEntry, System.matrixEntry, huu]
    · obtain ⟨t, i, ht, -, rfl⟩ := Layout.mem_multipliers.mp hσ
      obtain ⟨-, hu⟩ := h.jacobians hp hw (hnus ▸ hs)
      rw [System.matrixEntry, System.matrixEntry, System.matrixEntry.controlCoupling,
        System.matrixEntry.controlCoupling, hu]

theorem LinearizedTwice.residualEntry_state {i : ℕ} (ht : t < p.horizon + 1)
    (hi : i < p.layout.ndxAt t) :
    System.residualEntry ks' (p.gaps ks' xs') (.state t i) =
      System.residualEntry ks (p.gaps ks xs) (.state t i) + (p.layout.increments.map fun τ =>
        System.matrixEntry ks (.state t i) τ * Slot.difference xs us xs' us' τ).sum := by
  obtain ⟨l, hl⟩ := hp.quadraticAt hw ht
  have hq := hl _ _ _ h.shaped h.linearized
  have hq' := hl _ _ _ h.shaped' h.linearized'
  have hx := hq'.lx_eq
  rw [stateAt_difference xs us xs' us', controlAt_difference xs us xs' us', l.slopeX_add,
    ← hq.lx_eq, ← hq.lxx_eq, ← hq.lxu_eq] at hx
  rw [System.state_row (⟨i, hi⟩ : Fin (p.layout.ndxAt t))]
  exact congrFun hx ⟨i, hi⟩

theorem LinearizedTwice.residualEntry_control {i : ℕ} (ht : t < p.horizon)
    (hi : i < p.layout.nuAt t) :
    System.residualEntry ks' (p.gaps ks' xs') (.control t i) =
      System.residualEntry ks (p.gaps ks xs) (.control t i) + (p.layout.increments.map fun τ =>
        System.matrixEntry ks (.control t i) τ * Slot.difference xs us xs' us' τ).sum := by
  obtain ⟨l, hl⟩ := hp.quadraticAt hw (Nat.lt_succ_of_lt ht)
  have hq := hl _ _ _ h.shaped h.linearized
  have hq' := hl _ _ _ h.shaped' h.linearized'
  have hu := hq'.lu_eq
  rw [stateAt_difference xs us xs' us', controlAt_difference xs us xs' us', l.slopeU_add,
    ← hq.lu_eq, ← hq.lxu_eq, ← hq.luu_eq] at hu
  rw [System.control_row (⟨i, hi⟩ : Fin (p.layout.nuAt t))]
  exact congrFun hu ⟨i, hi⟩

theorem LinearizedTwice.residualEntry_costate {i : ℕ} (ht : t < p.horizon + 1)
    (hi : i < p.layout.ndxAt t) :
    System.residualEntry ks' (p.gaps ks' xs') (.costate t i) =
      System.residualEntry ks (p.gaps ks xs) (.costate t i) + (p.layout.increments.map fun τ =>
        System.matrixEntry ks (.costate t i) τ * Slot.difference xs us xs' us' τ).sum := by
  cases t with
  | zero =>
    have hgap := hp.affine.stateAt_gaps_zero hw h.shaped h.linearized
    have hgap' := hp.affine.stateAt_gaps_zero hw h.shaped' h.linearized'
    rw [stateAt_difference xs us xs' us', add_sub_right_comm, ← hgap] at hgap'
    rw [System.sum_costate_zero_row hi]
    exact congrFun hgap' ⟨i, hi⟩
  | succ t =>
    obtain ⟨f, hf⟩ := hp.affine.affineAt hw (t := t) (by omega)
    have ha := hf _ _ _ h.shaped h.linearized
    have ha' := hf _ _ _ h.shaped' h.linearized'
    have hgap := hp.affine.stateAt_gaps_succ hw h.shaped h.linearized ha
    have hgap' := hp.affine.stateAt_gaps_succ hw h.shaped' h.linearized' ha'
    rw [stateAt_difference xs us xs' us', stateAt_difference xs us xs' us',
      controlAt_difference xs us xs' us', f.next_add, add_sub_add_comm, ← hgap, ← ha.fx_eq,
      ← ha.fu_eq] at hgap'
    rw [System.costate_row (⟨i, hi⟩ : Fin (p.layout.ndxAt (t + 1)))]
    exact congrFun hgap' ⟨i, hi⟩

/-- Between two trajectories the right-hand side changes by what the matrix makes of their
difference. -/
theorem LinearizedTwice.residualEntry_eq {σ : Slot} (hσ : σ ∈ p.layout.slots) :
    System.residualEntry ks' (p.gaps ks' xs') σ = System.residualEntry ks (p.gaps ks xs) σ +
      (p.layout.increments.map fun τ =>
        System.matrixEntry ks σ τ * Slot.difference xs us xs' us' τ).sum := by
  have hndxs : p.layout.ndxs.length = p.horizon + 1 := Layout.length_ndxs p
  have hnus : p.layout.nus.length = p.horizon := Layout.length_nus p
  rw [Layout.slots_eq, List.mem_append, Layout.mem_increments, Layout.mem_multipliers] at hσ
  rcases hσ with (⟨t, i, ht, hi, rfl⟩ | ⟨t, i, ht, hi, rfl⟩) | ⟨t, i, ht, hi, rfl⟩
  · exact h.residualEntry_state hp hw (hndxs ▸ ht) hi
  · exact h.residualEntry_control hp hw (hnus ▸ ht) hi
  · exact h.residualEntry_costate hp hw (hndxs ▸ ht) hi

end Problem

namespace Problem

variable {p : Problem K} {xs us xs' us' : List (Vec K)} {ks ks' : Knots K}

def point (p : Problem K) (xs us : List (Vec K)) : Fin p.layout.nprimal → K :=
  Vec.toFun _ (p.layout.increments.map (Slot.value xs us []))

/-- The system of a linearized problem without damping. -/
def program (p : Problem K) (ks : Knots K) (xs : List (Vec K)) : System K :=
  System.assemble p.layout ks (p.gaps ks xs)

theorem matrix_program (p : Problem K) (ks : Knots K) (xs : List (Vec K)) :
    (p.program ks xs).matrix = Mat.grid p.layout.slots p.layout.slots (System.matrixEntry ks) :=
  System.matrix_assemble p.layout ks (p.gaps ks xs)

theorem residual_program (p : Problem K) (ks : Knots K) (xs : List (Vec K)) :
    (p.program ks xs).residual =
      p.layout.increments.map (System.residualEntry ks (p.gaps ks xs)) ++
        p.layout.multipliers.map (System.residualEntry ks (p.gaps ks xs)) :=
  System.residual_assemble p.layout ks (p.gaps ks xs)

theorem point_sub (p : Problem K) (xs us xs' us' : List (Vec K)) :
    p.point xs' us' - p.point xs us =
      Vec.toFun _ (p.layout.increments.map (Slot.difference xs us xs' us')) := by
  rw [sub_eq_add_neg, point, point, Vec.neg_toFun_map, Vec.toFun_map_add]
  simp only [← sub_eq_add_neg]
  rfl

variable (hp : p.LinearQuadratic) (hw : p.WellFormed)
  (h : p.LinearizedTwice xs us xs' us' ks ks')

include hp hw h

theorem LinearizedTwice.constraint_eq :
    (p.program ks' xs').constraint p.layout = (p.program ks xs).constraint p.layout := by
  have hgrid : Mat.grid p.layout.multipliers p.layout.increments (System.matrixEntry ks') =
      Mat.grid p.layout.multipliers p.layout.increments (System.matrixEntry ks) :=
    List.map_congr_left fun σ hσ => List.map_congr_left fun τ hτ =>
      h.matrixEntry_eq hp hw (List.mem_append_right _ hσ) hτ
  rw [System.constraint_eq (matrix_program p ks' xs'),
    System.constraint_eq (matrix_program p ks xs), hgrid]

theorem LinearizedTwice.gradient_eq :
    (p.program ks' xs').gradient p.layout = (p.program ks xs).gradient p.layout +
      (p.program ks xs).hessian p.layout *ᵥ (p.point xs' us' - p.point xs us) := by
  rw [point_sub, System.gradient_eq (residual_program p ks' xs'),
    System.gradient_eq (residual_program p ks xs), System.hessian_eq (matrix_program p ks xs),
    Mat.grid_mulVec p.layout.length_increments, Vec.toFun_map_add,
    Vec.toFun_map_eq_iff p.layout.length_increments]
  intro σ hσ
  exact h.residualEntry_eq hp hw (List.mem_append_left _ hσ)

theorem LinearizedTwice.violation_eq :
    (p.program ks' xs').violation p.layout = (p.program ks xs).violation p.layout +
      (p.program ks xs).constraint p.layout *ᵥ (p.point xs' us' - p.point xs us) := by
  rw [point_sub, System.violation_eq (residual_program p ks' xs'),
    System.violation_eq (residual_program p ks xs), System.constraint_eq (matrix_program p ks xs),
    Mat.grid_mulVec p.layout.length_increments, Vec.toFun_map_add,
    Vec.toFun_map_eq_iff p.layout.length_multipliers]
  intro σ hσ
  exact h.residualEntry_eq hp hw (List.mem_append_right _ hσ)

theorem LinearizedTwice.costAt_eq {t : ℕ} (ht : t < p.horizon + 1) {d : Slot → K}
    (hd : d = Slot.difference xs us xs' us') :
    ks'.costAt t = ks.costAt t +
      (1 / 2 * (p.layout.statePart d t ⬝ᵥ (ks.lxx p.layout t *ᵥ p.layout.statePart d t +
          ks.lxu p.layout t *ᵥ p.layout.controlPart d t)) +
        ks.lx p.layout t ⬝ᵥ p.layout.statePart d t +
      (1 / 2 * (p.layout.controlPart d t ⬝ᵥ ((ks.lxu p.layout t)ᵀ *ᵥ p.layout.statePart d t +
          ks.luu p.layout t *ᵥ p.layout.controlPart d t)) +
        ks.lu p.layout t ⬝ᵥ p.layout.controlPart d t)) := by
  obtain ⟨l, hl⟩ := hp.quadraticAt hw ht
  have hq := hl _ _ _ h.shaped h.linearized
  have hq' := hl _ _ _ h.shaped' h.linearized'
  rw [hq'.cost, hq.cost, stateAt_difference xs us xs' us', controlAt_difference xs us xs' us',
    l.value_add, hq.lx_eq, hq.lu_eq, hq.lxx_eq, hq.lxu_eq, hq.luu_eq, hd]

/-- The total cost moves by the quadratic model. -/
theorem LinearizedTwice.total_eq :
    ks'.total = ks.total + quadratic ((p.program ks xs).hessian p.layout)
      ((p.program ks xs).gradient p.layout) (p.point xs' us' - p.point xs us) := by
  have hlen : ks.running.length = p.horizon := h.linearized.running.length_eq
  have hlen' : ks'.running.length = p.horizon := h.linearized'.running.length_eq
  have hT : p.layout.horizon = p.horizon := Layout.length_nus p
  have hl : p.layout.ndxs.length = p.layout.horizon + 1 := Layout.length_ndxs_eq p
  rw [point_sub, System.gradient_eq (residual_program p ks xs),
    System.hessian_eq (matrix_program p ks xs), quadratic,
    Mat.grid_mulVec p.layout.length_increments, Vec.dotProduct_map p.layout.length_increments,
    Vec.dotProduct_map p.layout.length_increments,
    Layout.sum_increments_knots hl, Layout.sum_increments_knots hl, hT, mul_sum, ← sum_add_distrib,
    Knots.total, Knots.total, hlen, hlen', ← sum_add_distrib]
  apply sum_congr rfl
  intro t ht
  rw [h.costAt_eq hp hw (mem_range.mp ht) rfl]
  simp only [System.state_row, System.control_row]
  generalize Slot.difference xs us xs' us' = d
  change _ = ks.costAt t + (1 / 2 * (p.layout.statePart d t ⬝ᵥ _ + p.layout.controlPart d t ⬝ᵥ _) +
    (ks.lx p.layout t ⬝ᵥ p.layout.statePart d t + ks.lu p.layout t ⬝ᵥ p.layout.controlPart d t))
  ring

end Problem

theorem Vec.lists_eq {xs ys : List (Vec K)} (hlen : xs.map List.length = ys.map List.length)
    (h : ∀ t < xs.length, ∀ i < (xs.getD t []).length,
      (xs.getD t []).getD i 0 = (ys.getD t []).getD i 0) : xs = ys := by
  have hl : xs.length = ys.length := by simpa using congrArg List.length hlen
  apply List.ext_getElem hl
  intro t ht ht'
  have hrow : xs[t].length = ys[t].length := by
    have := List.getElem_of_eq hlen (by simpa using ht)
    simpa using this
  apply List.ext_getElem hrow
  intro i hi hi'
  have hx : xs.getD t [] = xs[t] := List.getD_eq_getElem _ _ ht
  have hy : ys.getD t [] = ys[t] := List.getD_eq_getElem _ _ ht'
  have := h t ht i (by rwa [hx])
  rwa [hx, hy, List.getD_eq_getElem _ _ hi, List.getD_eq_getElem _ _ hi'] at this

namespace Problem.LinearQuadratic

variable {p : Problem K} {xs us xs' us' : List (Vec K)} {ks : Knots K}

theorem point_injective (hp : p.LinearQuadratic) (hs : p.Shaped xs us) (hs' : p.Shaped xs' us')
    (h : p.point xs us = p.point xs' us') : xs = xs' ∧ us = us' := by
  have hσ := (Vec.toFun_map_eq_iff p.layout.length_increments).mp h
  have hndxs : p.layout.ndxs.length = p.horizon + 1 := Layout.length_ndxs p
  have hnus : p.layout.nus.length = p.horizon := Layout.length_nus p
  constructor
  · apply Vec.lists_eq (hs.states.trans hs'.states.symm)
    intro t ht i hi
    rw [hs.length_states] at ht
    rw [hp.affine.length_state hs ht] at hi
    exact hσ (.state t i) (Layout.mem_increments.mpr (.inl ⟨t, i, hndxs ▸ ht, hi, rfl⟩))
  · apply Vec.lists_eq (hs.controls.trans hs'.controls.symm)
    intro t ht i hi
    rw [hs.length_controls] at ht
    have hM := List.getElem?_eq_getElem (l := p.running) ht
    rw [hs.length_control hM, ← Layout.getD_nus hM] at hi
    exact hσ (.control t i) (Layout.mem_increments.mpr (.inr ⟨t, i, hnus ▸ ht, hi, rfl⟩))

theorem violation_eq_zero_iff :
    (p.program ks xs).violation p.layout = 0 ↔
      ∀ t < p.horizon + 1, p.layout.stateAt (p.gaps ks xs) t = 0 := by
  have hndxs : p.layout.ndxs.length = p.horizon + 1 := Layout.length_ndxs p
  have hzero : (0 : Fin p.layout.ndx → K) =
      Vec.toFun _ (p.layout.multipliers.map fun _ => 0) := by
    ext i
    simp
  rw [System.violation_eq (residual_program p ks xs), hzero,
    Vec.toFun_map_eq_iff p.layout.length_multipliers]
  constructor
  · intro h t ht
    ext i
    exact h (.costate t i) (Layout.mem_multipliers.mpr ⟨t, i, hndxs ▸ ht, i.isLt, rfl⟩)
  · intro h σ hσ
    obtain ⟨t, i, ht, hi, rfl⟩ := Layout.mem_multipliers.mp hσ
    exact congrFun (h t (hndxs ▸ ht)) ⟨i, hi⟩

variable (hp : p.LinearQuadratic) (hw : p.WellFormed) (hs : p.Shaped xs us)
  (hl : p.LinearizedAt xs us ks)

include hp hw hs hl

theorem stateAt_gaps_zero_eq_zero_iff :
    p.layout.stateAt (p.gaps ks xs) 0 = 0 ↔ xs.getD 0 [] = p.x0 := by
  obtain ⟨-, hlen⟩ := hp.affine.gap_zero hw hs hl
  rw [hp.affine.stateAt_gaps_zero hw hs hl, sub_eq_zero]
  exact Vec.toFun_eq_iff (hp.affine.length_state hs (Nat.succ_pos _)) hlen

theorem stateAt_gaps_succ_eq_zero_iff {t : ℕ} {k : Knot K} (hk : ks.running[t]? = some k) :
    p.layout.stateAt (p.gaps ks xs) (t + 1) = 0 ↔ xs.getD (t + 1) [] = k.xnext := by
  obtain ⟨hgap, hlen⟩ := hp.affine.gap_succ hw hs hl hk
  have hrun : ks.running.length = p.horizon := hl.running.length_eq
  have ht : t < ks.running.length := (List.getElem?_eq_some_iff.mp hk).1
  have hx := hp.affine.length_state hs (t := t + 1) (by omega)
  rw [Layout.stateAt, hgap, Vec.toFun_sub (hx.trans hlen.symm), sub_eq_zero]
  exact Vec.toFun_eq_iff hx hlen

/-- The constraint is met by the trajectories that follow the dynamics. -/
theorem violation_eq_zero_iff_follows :
    (p.program ks xs).violation p.layout = 0 ↔ p.Follows xs us := by
  have hget {t : ℕ} (ht : t < p.horizon + 1) : xs[t]? = some (xs.getD t []) := by
    have hlt : t < xs.length := hs.length_states ▸ ht
    rw [List.getD_eq_getElem _ _ hlt, List.getElem?_eq_getElem hlt]
  rw [violation_eq_zero_iff]
  constructor
  · intro h
    have hstart := (hp.stateAt_gaps_zero_eq_zero_iff hw hs hl).mp (h 0 (Nat.succ_pos _))
    constructor
    · rw [hget (Nat.succ_pos _), hstart]
    · intro t M x u hM hx hu
      obtain ⟨k, hk, he, -⟩ := hl.get hs.length_states hM
      have ht : t < p.horizon := (List.getElem?_eq_some_iff.mp hM).1
      have hnext := (hp.stateAt_gaps_succ_eq_zero_iff hw hs hl hk).mp (h (t + 1) (by omega))
      rw [List.getD_eq_getElem?_getD, hx, List.getD_eq_getElem?_getD, hu] at he
      exact ⟨k.cost, k.xnext, he, by rw [hget (t := t + 1) (by omega), hnext]⟩
  · intro h t ht
    cases t with
    | zero =>
      rw [hp.stateAt_gaps_zero_eq_zero_iff hw hs hl, List.getD_eq_getElem?_getD, h.initial]
      rfl
    | succ t =>
      have hlt : t < p.horizon := by omega
      have hM := List.getElem?_eq_getElem (l := p.running) hlt
      obtain ⟨k, hk, he, -⟩ := hl.get hs.length_states hM
      have hu : us[t]? = some (us.getD t []) := by
        have hltu : t < us.length := hs.length_controls ▸ hlt
        rw [List.getD_eq_getElem _ _ hltu, List.getElem?_eq_getElem hltu]
      obtain ⟨c, y, he', hy⟩ := h.dynamics t _ _ _ hM (hget (by omega)) hu
      obtain ⟨-, rfl⟩ := Prod.mk.inj (Except.ok.inj (he.symm.trans he'))
      rw [hp.stateAt_gaps_succ_eq_zero_iff hw hs hl hk, List.getD_eq_getElem?_getD, hy]
      rfl

end Problem.LinearQuadratic

namespace Problem

variable {p : Problem K} {xs us xs' us' : List (Vec K)} {ks ks' : Knots K}

def StrictlyConvex (p : Problem K) : Prop := ∀ xs us ks, p.Shaped xs us →
  p.LinearizedAt xs us ks → PositiveDefinite ((p.program ks xs).hessian p.layout)

/-- The one trajectory of least total cost among those that follow the dynamics. -/
structure UniqueOptimum (p : Problem K) (xs us : List (Vec K)) : Prop where
  shaped : p.Shaped xs us
  follows : p.Follows xs us
  least : ∃ c, (p.evaluate p.fresh xs us).2 = .ok c ∧ ∀ ys vs, p.Shaped ys vs → p.Follows ys vs →
    (ys, vs) ≠ (xs, us) → ∃ c', (p.evaluate p.fresh ys vs).2 = .ok c' ∧ c < c'

/-- No increment is needed for the optimality conditions to hold at a trajectory. -/
def Stationary (p : Problem K) (ks : Knots K) (xs : List (Vec K)) (l : Fin p.layout.ndx → K) :
    Prop :=
  Shooting.Stationary ((p.program ks xs).hessian p.layout) ((p.program ks xs).constraint p.layout)
    ((p.program ks xs).gradient p.layout) ((p.program ks xs).violation p.layout) 0 l

theorem Shaped.fits_fresh (h : p.Shaped xs us) : p.Fits p.fresh xs us :=
  ⟨by simp [fresh, horizon], h.length_states, h.length_controls⟩

namespace LinearQuadratic

variable (hp : p.LinearQuadratic) (hw : p.WellFormed)

include hp hw

theorem exists_linearizedAt (hs : p.Shaped xs us) : ∃ ks, p.LinearizedAt xs us ks := by
  obtain ⟨ks, c, hks⟩ := hp.linearize_ok hw hs hs.fits_fresh
  exact ⟨ks, (hs.fits_fresh.linearize_ok hks).1⟩

theorem hessian_transpose (hs : p.Shaped xs us) (hl : p.LinearizedAt xs us ks) :
    ((p.program ks xs).hessian p.layout)ᵀ = (p.program ks xs).hessian p.layout := by
  rw [← System.lower_eq_hessian (matrix_program p ks xs), Mat.lower_transpose]
  intro σ hσ τ hτ
  exact System.matrixEntry_symm (hp.symmetric_slopesAt hw hs hl) hσ hτ

/-- A full step to a solution of the quadratic program leads to a stationary trajectory. -/
theorem stationary_step (h : p.LinearizedTwice xs us xs' us' ks ks')
    {q : Fin p.layout.nprimal → K} {l : Fin p.layout.ndx → K}
    (hst : Shooting.Stationary ((p.program ks xs).hessian p.layout)
      ((p.program ks xs).constraint p.layout) ((p.program ks xs).gradient p.layout)
      ((p.program ks xs).violation p.layout) q l)
    (hq : p.point xs' us' - p.point xs us = q) : p.Stationary ks' xs' l where
  gradient := by
    rw [h.gradient_eq hp hw, h.constraint_eq hp hw, hq, mulVec_zero, zero_add, neg_add,
      ← hst.gradient]
    abel
  constraint := by
    rw [h.violation_eq hp hw, hq, hst.constraint, add_neg_cancel, mulVec_zero, neg_zero]

/-- Of a strictly convex problem a stationary trajectory is the one optimum. -/
theorem uniqueOptimum (hc : p.StrictlyConvex) (hs : p.Shaped xs us) (hl : p.LinearizedAt xs us ks)
    {l : Fin p.layout.ndx → K} (hst : p.Stationary ks xs l) : p.UniqueOptimum xs us := by
  have hviol : (p.program ks xs).violation p.layout = 0 := by
    rw [← neg_eq_zero, ← hst.constraint, mulVec_zero]
  refine ⟨hs, (hp.violation_eq_zero_iff_follows hw hs hl).mp hviol, ks.total,
    hs.fits_fresh.evaluate_total hl, ?_⟩
  intro ys vs hs' hf hne
  obtain ⟨ks', hl'⟩ := hp.exists_linearizedAt hw hs'
  have h : p.LinearizedTwice xs us ys vs ks ks' := ⟨hs, hl, hs', hl'⟩
  have hmin := (hst.uniqueMinimizer (hp.hessian_transpose hw hs hl) (hc xs us ks hs hl)).lt
    (p.point ys vs - p.point xs us)
  have hfeasible : (p.program ks xs).constraint p.layout *ᵥ (p.point ys vs - p.point xs us) =
      -(p.program ks xs).violation p.layout := by
    have hzero := (hp.violation_eq_zero_iff_follows hw hs' hl').mpr hf
    rw [h.violation_eq hp hw] at hzero
    exact eq_neg_of_add_eq_zero_right hzero
  have hmoved : p.point ys vs - p.point xs us ≠ 0 := by
    intro hz
    obtain ⟨rfl, rfl⟩ := hp.point_injective hs' hs (sub_eq_zero.mp hz)
    exact hne rfl
  refine ⟨ks'.total, hs'.fits_fresh.evaluate_total hl', ?_⟩
  rw [h.total_eq hp hw]
  have hlt := hmin hfeasible hmoved
  rw [quadratic, mulVec_zero, dotProduct_zero, dotProduct_zero, mul_zero, add_zero] at hlt
  exact lt_add_of_pos_right _ hlt

end LinearQuadratic
end Problem
end Shooting
