import Shooting.Proofs.QuadraticProgram

/-! # Chains of integrators

A control moves the state by itself, and both are to be small. Such a problem is linear-quadratic,
and its stacked Hessian is the identity, whatever the dimension and the horizon.
-/

namespace Shooting

open Matrix

variable {K : Type} [ExactScalar K]

/-- The state moves by the control, at half the squared length of either. -/
def Model.integrator (n : ℕ) : Model K where
  state := .euclidean n
  next := .euclidean n
  nu := n
  hasDynamics := true
  eval x u := .ok (Scalar.half * (Vec.normSq x + Vec.normSq u), Vec.add x u)
  deriv x u := .ok
    { lx := x
      lu := u
      lxx := Mat.identity n
      lxu := Mat.zeros n n
      luu := Mat.identity n
      fx := Mat.identity n
      fu := Mat.identity n }

def Model.resting (n : ℕ) : Model K where
  state := .euclidean n
  next := .euclidean n
  nu := 0
  hasDynamics := false
  eval x _ := .ok (Scalar.half * Vec.normSq x, x)
  deriv x _ := .ok
    { lx := x
      lu := []
      lxx := Mat.identity n
      lxu := Mat.zeros n 0
      luu := []
      fx := Mat.identity n
      fu := Mat.zeros n 0 }

/-- A chain of integrators from a given state on. -/
def Problem.integrator (x0 : Vec K) (T : ℕ) : Problem K where
  x0
  running := List.replicate T (.integrator x0.length)
  terminal := .resting x0.length

/-- Full and half steps, under thresholds that are easily met. -/
def Options.lenient : Options K where
  regFactor := 1 + 1
  regMin := 0
  regMax := 1
  gradThreshold := 1
  stepThreshold := Scalar.half
  acceptRatio := Scalar.half
  stopThreshold := 1
  alphas := [1, Scalar.half]
  verbosity := .silent

theorem Options.fault?_lenient : (lenient : Options K).fault? = none := by
  simp [fault?, lenient, strictlyDecreasing, Bool.eq_false_iff]
  norm_num

variable {x0 : Vec K} {T : ℕ}

theorem Mat.entry_identity {n i j : ℕ} (hi : i < n) (hj : j < n) :
    (Mat.identity n : Mat K).entry i j = if i = j then 1 else 0 := Mat.entry_ofFn _ hi hj

theorem Mat.entry_zeros (m n i j : ℕ) : (Mat.zeros m n : Mat K).entry i j = 0 := by
  rw [Mat.zeros, Mat.entry_ofFn_eq, ite_self]

theorem Mat.toMatrix_grid_one {ι : Type} [DecidableEq ι] {rows : List ι} {n : ℕ}
    (h : rows.length = n) (hd : rows.Nodup) :
    Mat.toMatrix n n (Mat.grid rows rows fun i j => if i = j then (1 : K) else 0) = 1 := by
  ext i j
  have hi : (i : ℕ) < rows.length := h ▸ i.isLt
  have hj : (j : ℕ) < rows.length := h ▸ j.isLt
  rw [Mat.toMatrix_apply, Mat.entry_grid _ hi hj, one_apply]
  simp only [hd.getElem_inj_iff, Fin.ext_iff]

theorem Mat.positiveDefinite_one (n : ℕ) : PositiveDefinite (1 : Matrix (Fin n) (Fin n) K) := by
  intro v hv
  rw [one_mulVec]
  refine lt_of_le_of_ne (Finset.sum_nonneg fun i _ => mul_self_nonneg _) fun h => hv ?_
  exact dotProduct_self_eq_zero.mp h.symm

namespace Problem

theorem symmetricHessians_integrator : (integrator x0 T).SymmetricHessians := by
  have hsymm (n : ℕ) : ∀ i < n, ∀ j < n,
      (Mat.identity n : Mat K).entry i j = (Mat.identity n : Mat K).entry j i := by
    intro i hi j hj
    rw [Mat.entry_identity hi hj, Mat.entry_identity hj hi]
    simp only [eq_comm]
  intro m hm x u s hs
  rcases List.mem_append.mp hm with hr | ht
  · obtain rfl := List.eq_of_mem_replicate hr
    cases hs
    exact ⟨hsymm _, hsymm _⟩
  · obtain rfl := List.mem_singleton.mp ht
    cases hs
    exact ⟨hsymm _, fun i hi => absurd hi (Nat.not_lt_zero i)⟩

theorem layout_integrator : (integrator x0 T).layout =
    { ndxs := List.replicate (T + 1) x0.length, nus := List.replicate T x0.length } := by
  simp only [layout, Layout.ofProblem, integrator, models, List.map_append, List.map_replicate,
    Layout.mk.injEq, List.replicate_succ']
  exact ⟨rfl, rfl⟩

variable {ks : Knots K} {xs us : List (Vec K)}

theorem lxx_integrator (h : (integrator x0 T).LinearizedAt xs us ks) {t : ℕ} (ht : t < T + 1) :
    (System.slopesAt ks t).lxx = Mat.identity x0.length := by
  have hlen : ks.running.length = T := h.running.length_eq.trans List.length_replicate
  rcases Nat.lt_succ_iff_lt_or_eq.mp ht with ht | rfl
  · obtain ⟨k, x, u, hk, -, -, -, hd⟩ := h.running.get (List.getElem?_replicate_of_lt ht)
    rw [System.slopesAt_running hk]
    exact congrArg Linearization.lxx (Except.ok.inj hd).symm
  · rw [← hlen, System.slopesAt_terminal]
    exact congrArg Linearization.lxx (Except.ok.inj h.terminal.2).symm

theorem control_integrator (h : (integrator x0 T).LinearizedAt xs us ks) {t : ℕ} (ht : t < T) :
    (System.slopesAt ks t).luu = Mat.identity x0.length ∧
      (System.slopesAt ks t).lxu = Mat.zeros x0.length x0.length := by
  obtain ⟨k, x, u, hk, -, -, -, hd⟩ := h.running.get (List.getElem?_replicate_of_lt ht)
  rw [System.slopesAt_running hk]
  have hs := (Except.ok.inj hd).symm
  exact ⟨congrArg Linearization.luu hs, congrArg Linearization.lxu hs⟩

theorem matrixEntry_integrator (h : (integrator x0 T).LinearizedAt xs us ks) {σ τ : Slot}
    (hσ : σ ∈ (integrator x0 T).layout.increments) (hτ : τ ∈ (integrator x0 T).layout.increments) :
    System.matrixEntry ks σ τ = if σ = τ then 1 else 0 := by
  have hget {m t i : ℕ} (hi : i < (List.replicate m x0.length).getD t 0) : i < x0.length := by
    rw [List.getD_eq_getElem?_getD, List.getElem?_replicate] at hi
    split at hi
    · exact hi
    · exact absurd hi (Nat.not_lt_zero i)
  rw [layout_integrator] at hσ hτ
  rcases Layout.mem_increments.mp hσ with ⟨t, i, ht, hi, rfl⟩ | ⟨t, i, ht, hi, rfl⟩ <;>
    rcases Layout.mem_increments.mp hτ with ⟨s, j, hs, hj, rfl⟩ | ⟨s, j, hs, hj, rfl⟩ <;>
    simp only [List.length_replicate] at ht hs
  · rw [System.matrixEntry, lxx_integrator h ht, Mat.entry_identity (hget hi) (hget hj)]
    simp only [Slot.state.injEq, ite_and]
  · have hne : Slot.state t i ≠ Slot.control s j := Slot.noConfusion
    rw [if_neg hne, System.matrixEntry]
    split
    · rename_i hts
      rw [hts, (control_integrator h hs).2, Mat.entry_zeros]
    · rfl
  · have hne : Slot.control t i ≠ Slot.state s j := Slot.noConfusion
    rw [if_neg hne, System.matrixEntry, (control_integrator h ht).2, Mat.entry_zeros, ite_self]
  · rw [System.matrixEntry, (control_integrator h ht).1, Mat.entry_identity (hget hi) (hget hj)]
    simp only [Slot.control.injEq, ite_and]

theorem hessian_integrator (h : (integrator x0 T).LinearizedAt xs us ks) (gaps : List (Vec K))
    {l : Layout} (hl : l = (integrator x0 T).layout) : (System.assemble l ks gaps).hessian l = 1 := by
  have hgrid : Mat.grid l.increments l.increments (System.matrixEntry ks) =
      Mat.grid l.increments l.increments fun σ τ => if σ = τ then 1 else 0 := by
    subst hl
    exact List.map_congr_left fun σ hσ => List.map_congr_left fun τ hτ =>
      matrixEntry_integrator h hσ hτ
  rw [System.hessian_eq (System.matrix_assemble l ks gaps), hgrid]
  exact Mat.toMatrix_grid_one l.length_increments
    (List.nodup_append.mp (l.slots_eq ▸ l.nodup_slots)).1

theorem strictlyConvex_integrator : (integrator x0 T).StrictlyConvex := by
  intro xs us ks _ hl
  rw [program, hessian_integrator hl _ rfl]
  exact Mat.positiveDefinite_one _

end Problem

theorem Mat.ofMatrix_one (n : ℕ) : Mat.ofMatrix (1 : Matrix (Fin n) (Fin n) K) = Mat.identity n :=
  ofMatrix_eq_ofFn fun i j => by
    rw [one_apply]
    simp only [Fin.ext_iff]

def QuadraticCost.halfSquares (n m : ℕ) : QuadraticCost K n m where
  Q := 1
  S := 0
  R := 1
  q := 0
  r := 0
  c := 0
  transpose_Q := transpose_one
  transpose_R := transpose_one

def AffineDynamics.shift (n : ℕ) : AffineDynamics K n n n where
  A := 1
  B := 1
  b := 0

theorem QuadraticCost.value_halfSquares {n m : ℕ} {x u : Vec K} (hx : x.length = n)
    (hu : u.length = m) :
    (halfSquares n m).value (Vec.toFun n x) (Vec.toFun m u) =
      Scalar.half * (Vec.normSq x + Vec.normSq u) := by
  rw [Vec.normSq_eq hx, Vec.normSq_eq hu, ExactScalar.half_eq]
  simp [value, halfSquares, quadratic, mul_add]

theorem QuadraticCost.slopes_halfSquares {n m : ℕ} {x u : Vec K} (hx : x.length = n)
    (hu : u.length = m) (fx fu : Mat K) :
    (halfSquares n m).slopes (Vec.toFun n x) (Vec.toFun m u) fx fu =
      { lx := x
        lu := u
        lxx := Mat.identity n
        lxu := Mat.zeros n m
        luu := Mat.identity m
        fx
        fu } := by
  have hzero : Mat.ofMatrix (0 : Matrix (Fin n) (Fin m) K) = Mat.zeros n m :=
    Mat.ofMatrix_eq_ofFn fun _ _ => rfl
  simp [slopes, halfSquares, slopeX, slopeU, Mat.ofMatrix_one, hzero, Vec.ofFn_toFun hx,
    Vec.ofFn_toFun hu]

theorem Model.quadratic_integrator (n : ℕ) :
    (integrator n : Model K).Quadratic (.halfSquares n n) where
  state := rfl
  nu := rfl
  eval x u hx hu := by
    rw [QuadraticCost.value_halfSquares hx hu]
    exact ⟨Vec.add x u, rfl⟩
  deriv x u hx hu := by
    simp only [QuadraticCost.slopes_halfSquares hx hu]
    exact ⟨_, _, rfl⟩

theorem Model.affine_integrator (n : ℕ) : (integrator n : Model K).Affine (.shift n) where
  next := rfl
  eval x u r hx hu h := by
    cases h
    rw [AffineDynamics.next, AffineDynamics.shift, one_mulVec, one_mulVec, add_zero,
      ← Vec.toFun_add (hx.trans hu.symm), Vec.ofFn_toFun]
    rw [Vec.length_add, hx, hu, min_self]
  deriv x u s _ _ h := by
    cases h
    exact ⟨(Mat.ofMatrix_one n).symm, (Mat.ofMatrix_one n).symm⟩

theorem Model.quadratic_resting (n : ℕ) : (resting n : Model K).Quadratic (.halfSquares n 0) where
  state := rfl
  nu := rfl
  eval x u hx hu := by
    obtain rfl := List.eq_nil_of_length_eq_zero hu
    rw [QuadraticCost.value_halfSquares hx hu]
    refine ⟨x, ?_⟩
    simp [resting, Vec.normSq]
  deriv x u hx hu := by
    obtain rfl := List.eq_nil_of_length_eq_zero hu
    simp only [QuadraticCost.slopes_halfSquares hx hu]
    exact ⟨_, _, rfl⟩

theorem Problem.wellFormed_integrator {a : K} : (integrator [a] 1).WellFormed := by
  have hbuild : build (.ofVec [a]) [.integrator 1] (.resting 1) = .ok (integrator [a] 1) := rfl
  exact wellFormed_of_build (Tensor.valid_ofVec _) hbuild

theorem Problem.linearQuadratic_integrator : (integrator x0 T).LinearQuadratic where
  running M hM := by
    obtain rfl := List.eq_of_mem_replicate hM
    exact ⟨_, _, _, _, _, Model.quadratic_integrator _, Model.affine_integrator _⟩
  terminal := ⟨_, _, _, Model.quadratic_resting _⟩

end Shooting
