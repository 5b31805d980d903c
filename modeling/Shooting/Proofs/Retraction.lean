import Shooting.Proofs.Dense
import Shooting.Proofs.Differentiation

/-! # Expressions near a point

An expression is read through the moves of its state and its control: as a function of an increment,
a tangent vector of the state and a difference of controls. Where the expression is smooth, the
derivatives that the model computes are its partial derivatives, the first ones at every increment
and so the second ones at none.
-/

namespace Shooting

open Topology

/-- A tangent vector of the state and a difference of controls. -/
abbrev Increment (m : Manifold) (nu : ℕ) : Type := (Fin m.ndx → ℝ) × (Fin nu → ℝ)

noncomputable def Manifold.moved {nu : ℕ} (m : Manifold) (x : Vec ℝ) (w : Increment m nu) : Vec ℝ :=
  m.integrate x (List.ofFn w.1)

noncomputable def Vec.moved {m : Manifold} {nu : ℕ} (u : Vec ℝ) (w : Increment m nu) : Vec ℝ :=
  Vec.add u (List.ofFn w.2)

/-- The value of an expression at an increment of state and control. -/
noncomputable def Expr.nearby {m : Manifold} {nu : ℕ} (x u : Vec ℝ) (e : Expr ℝ)
    (w : Increment m nu) : ℝ :=
  e.eval (m.moved x w) (u.moved w)

/-- The increment with a one in coordinate `k`, those of the state first, and zeros elsewhere. -/
def Increment.unit (m : Manifold) (nu k : ℕ) : Increment m nu :=
  (fun i => if i = k then 1 else 0, fun j => if m.ndx + j = k then 1 else 0)

namespace Vec

variable {n : ℕ} {v : Vec ℝ}

theorem coord_ofFn (d : Fin n → ℝ) (i : Fin n) : coord (List.ofFn d) i = d i := by
  rw [coord_eq_getElem (by simp)]
  simp

theorem coord_cons_succ (a : ℝ) {i : ℕ} (h : i < v.length) :
    coord (a :: v) (i + 1) = v.coord i := by
  rw [coord_eq_getElem h, coord_eq_getElem (by simpa using h)]
  rfl

theorem coord_drop {k i : ℕ} (h : k + i < v.length) : coord (v.drop k) i = v.coord (k + i) := by
  rw [coord_eq_getElem h, coord_eq_getElem (by rw [List.length_drop]; omega), List.getElem_drop]

theorem coord_add {w : Vec ℝ} {i : ℕ} (hv : i < v.length) (hw : i < w.length) :
    coord (v.add w) i = v.coord i + w.coord i := by
  rw [coord_eq_getElem hv, coord_eq_getElem hw, coord_eq_getElem (by simp [hv, hw])]
  exact List.getElem_zipWith

theorem ext_coord {w : Vec ℝ} (hlen : v.length = w.length)
    (h : ∀ i < v.length, v.coord i = w.coord i) : v = w := by
  apply List.ext_getElem hlen
  intro i hi hi'
  rw [← coord_eq_getElem hi, ← coord_eq_getElem hi']
  exact h i hi

end Vec

section Moves

variable {m : Manifold} {nu nv : ℕ} {x u : Vec ℝ}

@[simp] theorem Manifold.length_moved (hx : x.length = m.nx) (w : Increment m nu) :
    (m.moved x w).length = m.nx :=
  length_integrate hx List.length_ofFn

@[simp] theorem Vec.length_moved (hu : u.length = nu) (w : Increment m nu) :
    (u.moved w).length = nu := by
  simp [moved, hu]

theorem Vec.coord_moved (hu : u.length = nu) (w : Increment m nu) {j : ℕ} (hj : j < nu) :
    (u.moved w).coord j = u.coord j + w.2 ⟨j, hj⟩ := by
  rw [moved, coord_add (by simp [hu, hj]) (by simp [hj]), ← coord_ofFn w.2 ⟨j, hj⟩]

namespace Manifold

theorem coord_moved_euclidean {n : ℕ} (hx : x.length = (euclidean n).nx)
    (w : Increment (.euclidean n) nu) {i : ℕ} (hi : i < n) :
    ((euclidean n).moved x w).coord i = x.coord i + w.1 ⟨i, hi⟩ := by
  have hlen : i < x.length := hi.trans_eq hx.symm
  rw [← Vec.coord_ofFn w.1 ⟨i, hi⟩]
  exact Vec.coord_add hlen (hi.trans_eq List.length_ofFn.symm)

def angular (nv : ℕ) : Fin (rotation nv).ndx := ⟨0, Nat.lt_add_right nv Nat.one_pos⟩

def linear (i : Fin nv) : Fin (rotation nv).ndx :=
  ⟨i + 1, (Nat.succ_lt_succ i.isLt).trans_eq (Nat.add_comm nv 1)⟩

theorem forall_coord_rotation {P : ℕ → Prop} (hcos : P 0) (hsin : P 1)
    (hlinear : ∀ i : Fin nv, P (i + 2)) : ∀ i < (rotation nv).nx, P i
  | 0, _ => hcos
  | 1, _ => hsin
  | i + 2, h => hlinear ⟨i, by simp only [nx] at h; omega⟩

theorem coord_moved_cos (w : Increment (.rotation nv) nu) :
    ((rotation nv).moved x w).coord 0 =
      x.coord 0 * Real.cos (w.1 (angular nv)) - x.coord 1 * Real.sin (w.1 (angular nv)) := by
  rw [← Vec.coord_ofFn w.1 (angular nv)]
  rfl

theorem coord_moved_sin (w : Increment (.rotation nv) nu) :
    ((rotation nv).moved x w).coord 1 =
      x.coord 1 * Real.cos (w.1 (angular nv)) + x.coord 0 * Real.sin (w.1 (angular nv)) := by
  rw [← Vec.coord_ofFn w.1 (angular nv)]
  rfl

theorem coord_moved_linear (hx : x.length = (rotation nv).nx) (w : Increment (.rotation nv) nu)
    (i : Fin nv) : ((rotation nv).moved x w).coord (i + 2) = x.coord (i + 2) + w.1 (linear i) := by
  have hlen : x.length = 2 + nv := hx
  have hdx : (List.ofFn w.1).length = 1 + nv := List.length_ofFn
  have hrest : (i : ℕ) < (Vec.add (x.drop 2) ((List.ofFn w.1).drop 1)).length := by
    rw [Vec.length_add, List.length_drop, List.length_drop]
    omega
  rw [← Vec.coord_ofFn w.1 (linear i)]
  change Vec.coord (_ :: _ :: Vec.add (x.drop 2) ((List.ofFn w.1).drop 1)) (i + 1 + 1) = _
  rw [Vec.coord_cons_succ _ (by simpa using hrest), Vec.coord_cons_succ _ hrest,
    Vec.coord_add (by rw [List.length_drop]; omega) (by rw [List.length_drop]; omega),
    Vec.coord_drop (by omega), Vec.coord_drop (by omega), Nat.add_comm 2, Nat.add_comm 1]
  rfl

theorem moved_zero (hx : x.length = m.nx) : m.moved x (0 : Increment m nu) = x := by
  apply Vec.ext_coord (by rw [length_moved hx, hx])
  rw [length_moved hx]
  cases m with
  | euclidean n =>
    intro i hi
    exact (coord_moved_euclidean hx 0 hi).trans (add_zero _)
  | rotation nv =>
    apply forall_coord_rotation
    · rw [coord_moved_cos]
      simp
    · rw [coord_moved_sin]
      simp
    · intro i
      exact (coord_moved_linear hx 0 i).trans (add_zero _)

end Manifold

theorem Vec.moved_zero (hu : u.length = nu) : u.moved (0 : Increment m nu) = u := by
  apply ext_coord (by rw [length_moved hu, hu])
  intro j hj
  rw [length_moved hu] at hj
  exact (coord_moved hu 0 hj).trans (add_zero _)

namespace Increment

theorem hasDerivAt_fst (w v : Increment m nu) (i : Fin m.ndx) :
    HasDerivAt (fun t : ℝ => (w + t • v).1 i) (v.1 i) 0 :=
  (((hasDerivAt_id (0 : ℝ)).mul_const (v.1 i)).const_add (w.1 i)).congr_deriv (one_mul _)

theorem hasDerivAt_snd (w v : Increment m nu) (j : Fin nu) :
    HasDerivAt (fun t : ℝ => (w + t • v).2 j) (v.2 j) 0 :=
  (((hasDerivAt_id (0 : ℝ)).mul_const (v.2 j)).const_add (w.2 j)).congr_deriv (one_mul _)

end Increment

namespace Rates

variable {speed : ℕ → Option ℝ} {v : Increment m nu}

theorem slope_ofSpeeds_euclidean (n i : ℕ) :
    Expr.slope x u ((ofSpeeds (.euclidean n) speed).state i) = (speed i).getD 0 := by
  simp only [ofSpeeds]
  cases speed i <;> rfl

theorem slope_ofSpeeds_cos (nv : ℕ) : Expr.slope x u ((ofSpeeds (.rotation nv) speed).state 0) =
    -((speed 0).getD 0 * x.coord 1) := by
  simp only [ofSpeeds]
  cases speed 0 with
  | none => simp [Expr.slope]
  | some a => rfl

theorem slope_ofSpeeds_sin (nv : ℕ) : Expr.slope x u ((ofSpeeds (.rotation nv) speed).state 1) =
    (speed 0).getD 0 * x.coord 0 := by
  simp only [ofSpeeds]
  cases speed 0 with
  | none => simp [Expr.slope]
  | some a => rfl

theorem slope_ofSpeeds_linear (nv i : ℕ) :
    Expr.slope x u ((ofSpeeds (.rotation nv) speed).state (i + 2)) = (speed (i + 1)).getD 0 := by
  simp only [ofSpeeds]
  cases speed (i + 1) <;> rfl

theorem slope_ofSpeeds_control (j : ℕ) :
    Expr.slope x u ((ofSpeeds m speed).control j) = (speed (m.ndx + j)).getD 0 := by
  simp only [ofSpeeds]
  cases speed (m.ndx + j) <;> rfl

/-- Along a straight line of increments, state and control move at the rates that belong to the
speeds in all coordinates. -/
theorem describes_ofSpeeds (hx : x.length = m.nx) (hu : u.length = nu)
    (hstate : ∀ i, v.1 i = (speed i).getD 0) (hcontrol : ∀ j, v.2 j = (speed (m.ndx + j)).getD 0)
    (w : Increment m nu) :
    (ofSpeeds m speed).Describes (fun t : ℝ => m.moved x (w + t • v))
      (fun t : ℝ => u.moved (w + t • v)) 0 := by
  constructor
  case state =>
    rw [Manifold.length_moved hx]
    cases m with
    | euclidean n =>
      intro i hi
      rw [slope_ofSpeeds_euclidean, ← hstate ⟨i, hi⟩]
      simp only [Manifold.coord_moved_euclidean hx _ hi]
      exact (Increment.hasDerivAt_fst w v ⟨i, hi⟩).const_add _
    | rotation nv =>
      have hangle := Increment.hasDerivAt_fst w v (Manifold.angular nv)
      have hspeed : v.1 (Manifold.angular nv) = (speed 0).getD 0 := hstate (Manifold.angular nv)
      apply Manifold.forall_coord_rotation
      · rw [slope_ofSpeeds_cos, ← hspeed, Manifold.coord_moved_sin]
        simp only [Manifold.coord_moved_cos]
        refine ((hangle.cos.const_mul _).sub (hangle.sin.const_mul _)).congr_deriv ?_
        ring
      · rw [slope_ofSpeeds_sin, ← hspeed, Manifold.coord_moved_cos]
        simp only [Manifold.coord_moved_sin]
        refine ((hangle.cos.const_mul _).add (hangle.sin.const_mul _)).congr_deriv ?_
        ring
      · intro i
        simp only [slope_ofSpeeds_linear, Manifold.coord_moved_linear hx]
        exact ((Increment.hasDerivAt_fst w v (Manifold.linear i)).const_add _).congr_deriv
          (hstate (Manifold.linear i))
  case control =>
    intro j hj
    rw [Vec.length_moved hu] at hj
    rw [slope_ofSpeeds_control, ← hcontrol ⟨j, hj⟩]
    simp only [Vec.coord_moved hu _ hj]
    exact (Increment.hasDerivAt_snd w v ⟨j, hj⟩).const_add _

theorem smoothAt_ofSpeeds (hx : x.length = m.nx) : (ofSpeeds m speed).SmoothAt x u := by
  have hmap {o : Option ℝ} {f : ℝ → Expr ℝ} (hf : ∀ a, (f a).SmoothAt x u) :
      ∀ d ∈ o.map f, d.SmoothAt x u := by
    cases o <;> simp_all
  constructor
  case state =>
    rw [hx]
    cases m with
    | euclidean n => exact fun i _ => hmap fun _ => trivial
    | rotation nv =>
      have hlen : x.length = 2 + nv := hx
      apply Manifold.forall_coord_rotation
      · exact hmap fun _ => ⟨trivial, show 1 < x.length by omega⟩
      · exact hmap fun _ => ⟨trivial, show 0 < x.length by omega⟩
      · exact fun _ => hmap fun _ => trivial
  case control => exact fun j _ => hmap fun _ => trivial

end Rates

theorem smoothFamily_moved (hx : x.length = m.nx) (hu : u.length = nu) (w : Increment m nu) :
    SmoothFamily (m.moved x) u.moved w where
  length_state v := by simp only [Manifold.length_moved hx]
  length_control v := by simp only [Vec.length_moved hu]
  state := by
    rw [Manifold.length_moved hx]
    cases m with
    | euclidean n =>
      intro i hi
      simp only [Manifold.coord_moved_euclidean hx _ hi]
      fun_prop
    | rotation nv =>
      apply Manifold.forall_coord_rotation
      · simp only [Manifold.coord_moved_cos]
        fun_prop
      · simp only [Manifold.coord_moved_sin]
        fun_prop
      · intro i
        simp only [Manifold.coord_moved_linear hx]
        fun_prop
  control := by
    intro j hj
    rw [Vec.length_moved hu] at hj
    simp only [Vec.coord_moved hu _ hj]
    fun_prop

theorem hasLineDerivAt_fderiv {E : Type} [NormedAddCommGroup E] [NormedSpace ℝ E] {φ : E → ℝ}
    {w : E} (h : ContDiffAt ℝ 2 φ w) (a b : E) :
    HasLineDerivAt ℝ (fun v => fderiv ℝ φ v a) (fderiv ℝ (fderiv ℝ φ) w b a) w b := by
  have hdiff : DifferentiableAt ℝ (fderiv ℝ φ) w :=
    (h.fderiv_right (m := 1) le_rfl).differentiableAt one_ne_zero
  exact ((ContinuousLinearMap.apply ℝ ℝ a).hasFDerivAt.comp w hdiff.hasFDerivAt).hasLineDerivAt b

namespace Expr

variable {e : Expr ℝ} {w : Increment m nu}

section Anywhere

variable (hx : x.length = m.nx) (hu : u.length = nu) (he : e.SmoothAt (m.moved x w) (u.moved w))
include hx hu he

theorem contDiffAt_nearby : ContDiffAt ℝ 2 (e.nearby x u) w :=
  (smoothFamily_moved hx hu w).contDiffAt_eval he

theorem hasLineDerivAt_nearby {speed : ℕ → Option ℝ} {v : Increment m nu}
    (hstate : ∀ i, v.1 i = (speed i).getD 0)
    (hcontrol : ∀ j, v.2 j = (speed (m.ndx + j)).getD 0) :
    HasLineDerivAt ℝ (e.nearby x u)
      (slope (m.moved x w) (u.moved w) (e.derivative (.ofSpeeds m speed))) w v := by
  have hbase : w + (0 : ℝ) • v = w := by rw [zero_smul, add_zero]
  have h := hasDerivAt_eval (Rates.describes_ofSpeeds hx hu hstate hcontrol w)
    (e := e) (by rwa [hbase])
  rwa [hbase] at h

theorem hasLineDerivAt_axis (k : ℕ) : HasLineDerivAt ℝ (e.nearby x u)
    (slope (m.moved x w) (u.moved w) (e.derivative (.axis m k))) w (.unit m nu k) := by
  refine hasLineDerivAt_nearby hx hu he (fun i => ?_) fun j => ?_
  · simp only [Increment.unit]
    split <;> rfl
  · simp only [Increment.unit]
    split <;> rfl

/-- With the other coordinates at speed zero it is the same. -/
theorem hasLineDerivAt_along (k : ℕ) : HasLineDerivAt ℝ (e.nearby x u)
    (slope (m.moved x w) (u.moved w) (e.derivative (.along m k))) w (.unit m nu k) :=
  hasLineDerivAt_nearby hx hu he (fun _ => rfl) fun _ => rfl

theorem fderiv_nearby (k : ℕ) : fderiv ℝ (e.nearby x u) w (.unit m nu k) =
    slope (m.moved x w) (u.moved w) (e.derivative (.axis m k)) := by
  have hdiff := (contDiffAt_nearby hx hu he).differentiableAt two_ne_zero
  rw [← hdiff.lineDeriv_eq_fderiv]
  exact (hasLineDerivAt_axis hx hu he k).lineDeriv

end Anywhere

section AtZero

variable (hx : x.length = m.nx) (hu : u.length = nu) (he : e.SmoothAt x u)
include hx hu he

theorem SmoothAt.moved_zero :
    e.SmoothAt (m.moved x (0 : Increment m nu)) (u.moved (0 : Increment m nu)) := by
  rwa [Manifold.moved_zero hx, Vec.moved_zero hu]

theorem contDiffAt_nearby_zero : ContDiffAt ℝ 2 (e.nearby x u) (0 : Increment m nu) :=
  contDiffAt_nearby hx hu (he.moved_zero hx hu)

theorem isSymmSndFDerivAt_nearby : IsSymmSndFDerivAt ℝ (e.nearby x u) (0 : Increment m nu) :=
  (contDiffAt_nearby_zero hx hu he).isSymmSndFDerivAt (by simp)

theorem hasLineDerivAt_axis_zero (k : ℕ) : HasLineDerivAt ℝ (e.nearby x u)
    (slope x u (e.derivative (.axis m k))) (0 : Increment m nu) (.unit m nu k) := by
  have h := hasLineDerivAt_axis hx hu (he.moved_zero hx hu) k
  rwa [Manifold.moved_zero hx, Vec.moved_zero hu] at h

theorem hasLineDerivAt_along_zero (k : ℕ) : HasLineDerivAt ℝ (e.nearby x u)
    (slope x u (e.derivative (.along m k))) (0 : Increment m nu) (.unit m nu k) := by
  have h := hasLineDerivAt_along hx hu (he.moved_zero hx hu) k
  rwa [Manifold.moved_zero hx, Vec.moved_zero hu] at h

theorem fderiv_nearby_zero (k : ℕ) : fderiv ℝ (e.nearby x u) (0 : Increment m nu)
    (.unit m nu k) = slope x u (e.derivative (.axis m k)) := by
  rw [fderiv_nearby hx hu (he.moved_zero hx hu), Manifold.moved_zero hx, Vec.moved_zero hu]

/-- The derivative of a derivative is the second partial derivative. -/
theorem fderiv_fderiv_nearby (i k : ℕ) :
    fderiv ℝ (fderiv ℝ (e.nearby x u)) (0 : Increment m nu) (.unit m nu k) (.unit m nu i) =
      slope x u ((e.derivative (.axis m i)).bind (·.derivative (.along m k))) := by
  let first (w : Increment m nu) : ℝ :=
    slope (m.moved x w) (u.moved w) (e.derivative (.axis m i))
  -- What the model computes is the first derivative all around the point, not only there.
  have hfirst : (fun w => fderiv ℝ (e.nearby x u) w (.unit m nu i)) =ᶠ[𝓝 0] first :=
    ((smoothFamily_moved hx hu 0).eventually_smoothAt (he.moved_zero hx hu)).mono
      fun w hw => fderiv_nearby hx hu hw i
  have hsecond : HasLineDerivAt ℝ first
      (slope x u ((e.derivative (.axis m i)).bind (·.derivative (.along m k)))) 0
      (.unit m nu k) := by
    cases hg : e.derivative (.axis m i) with
    | none =>
      simp only [first, hg]
      exact hasDerivAt_const (0 : ℝ) (0 : ℝ)
    | some d =>
      have hd : d.SmoothAt x u := he.derivative (Rates.smoothAt_ofSpeeds hx) d hg
      simp only [first, hg]
      exact hasLineDerivAt_along_zero hx hu hd k
  exact (hasLineDerivAt_fderiv (contDiffAt_nearby_zero hx hu he) _ _).unique
    (hsecond.congr_of_eventuallyEq hfirst)

end AtZero
end Expr
end Moves
end Shooting
