import Shooting.Proofs.Retraction
import Shooting.Proofs.WarmStart

/-! # The geometry of states

A move turns the rotation part of a point, and so leaves its norm alone. Over the reals the rotation
part is a complex number, a move multiplies it by a number of norm one, and the difference of two
points is an argument. On the points of a manifold `diff` and `integrate` are then inverse to each
other up to whole turns, and differences go the short way round.
-/

namespace Shooting

open Real ComplexConjugate

namespace Vec

variable {K : Type} [ExactScalar K] {u v w : Vec K}

theorem add_sub_cancel (h : v.length = w.length) : Vec.add v (Vec.sub w v) = w := by
  apply List.ext_getElem (by simp [h])
  intro i hi hi'
  simp [add, sub]

theorem sub_add_cancel (h : v.length = w.length) : Vec.sub (Vec.add v w) v = w := by
  apply List.ext_getElem (by simp [h])
  intro i hi hi'
  simp [add, sub]

theorem sub_self (v : Vec K) : Vec.sub v v = zeros v.length := by
  apply List.ext_getElem (by simp)
  intro i hi hi'
  simp [sub, zeros]

theorem add_add (u v w : Vec K) : Vec.add (Vec.add u v) w = Vec.add u (Vec.add v w) := by
  apply List.ext_getElem (by simp [min_assoc])
  intro i hi hi'
  simp [add, add_assoc]

end Vec

namespace Manifold

section Points

variable {K : Type} [ExactScalar K]

def radiusSq (x : Vec K) : K := x.coord 0 * x.coord 0 + x.coord 1 * x.coord 1

theorem radiusSq_integrate
    (hpyth : ∀ a : K, Scalar.cos a * Scalar.cos a + Scalar.sin a * Scalar.sin a = 1) (nv : ℕ)
    (x a : Vec K) : radiusSq ((rotation nv).integrate x a) = radiusSq x := by
  have hturn := hpyth (a.coord 0)
  change (_ * _ - _ * _) * (_ * _ - _ * _) + (_ * _ + _ * _) * (_ * _ + _ * _) = _
  rw [radiusSq]
  linear_combination (x.coord 0 * x.coord 0 + x.coord 1 * x.coord 1) * hturn

/-- A point of the manifold: a vector of its dimension, with the rotation part on the circle. -/
structure Contains (m : Manifold) (x : Vec K) : Prop where
  length : x.length = m.nx
  circle : ∀ nv, m = rotation nv → radiusSq x = 1

end Points

variable {m : Manifold} {nv : ℕ} {x y a b : Vec ℝ}

theorem cos_mul_cos_add_sin_mul_sin (θ : ℝ) :
    Scalar.cos θ * Scalar.cos θ + Scalar.sin θ * Scalar.sin θ = 1 := by
  change Real.cos θ * Real.cos θ + Real.sin θ * Real.sin θ = 1
  linear_combination Real.cos_sq_add_sin_sq θ

noncomputable def phase (x : Vec ℝ) : ℂ := ⟨x.coord 0, x.coord 1⟩

/-- A tangent vector turns by at most half a turn, and forwards if by half a turn. -/
def Principal (m : Manifold) (a : Vec ℝ) : Prop :=
  ∀ nv, m = rotation nv → a.coord 0 ∈ Set.Ioc (-π) π

theorem phase_ofAngle (θ : ℝ) (v : Vec ℝ) :
    phase (ofAngle θ v) = Complex.exp (θ * Complex.I) := by
  apply Complex.ext
  · exact (Complex.exp_ofReal_mul_I_re θ).symm
  · exact (Complex.exp_ofReal_mul_I_im θ).symm

theorem phase_integrate (nv : ℕ) (x a : Vec ℝ) :
    phase ((rotation nv).integrate x a) = phase x * Complex.exp (a.coord 0 * Complex.I) := by
  apply Complex.ext
  · rw [Complex.mul_re, Complex.exp_ofReal_mul_I_re, Complex.exp_ofReal_mul_I_im]
    rfl
  · rw [Complex.mul_im, Complex.exp_ofReal_mul_I_re, Complex.exp_ofReal_mul_I_im, add_comm]
    rfl

theorem coord_diff (nv : ℕ) (x y : Vec ℝ) :
    ((rotation nv).diff x y).coord 0 = (conj (phase x) * phase y).arg := by
  change Complex.arg ⟨_, _⟩ = _
  congr 1
  apply Complex.ext
  · simp [phase]
  · simp [phase]
    ring

theorem conj_mul_phase (h : radiusSq x = 1) : conj (phase x) * phase x = 1 := by
  rw [← Complex.normSq_eq_conj_mul_self]
  exact_mod_cast h

theorem norm_phase (h : radiusSq x = 1) : ‖phase x‖ = 1 := by
  rw [Complex.norm_def]
  exact Real.sqrt_eq_one.mpr h

theorem arg_exp_of_mem {θ : ℝ} (h : θ ∈ Set.Ioc (-π) π) :
    (Complex.exp (θ * Complex.I)).arg = θ := by
  rw [Complex.exp_mul_I, Complex.arg_cos_add_sin_mul_I h]

/-- No angle of a turn is smaller than the principal one. -/
theorem abs_arg_exp_le (θ : ℝ) : |(Complex.exp (θ * Complex.I)).arg| ≤ |θ| := by
  by_cases h : θ ∈ Set.Ioc (-π) π
  · rw [arg_exp_of_mem h]
  · refine (Complex.abs_arg_le_pi _).trans (le_abs.mpr ?_)
    by_contra hlt
    push Not at hlt
    exact h ⟨by linarith, hlt.1.le⟩

theorem coord_diff_integrate (h : radiusSq x = 1) :
    ((rotation nv).diff x ((rotation nv).integrate x a)).coord 0 =
      (Complex.exp (a.coord 0 * Complex.I)).arg := by
  rw [coord_diff, phase_integrate, ← mul_assoc, conj_mul_phase h, one_mul]

theorem ext_rotation (hx : x.length = (rotation nv).nx) (hy : y.length = (rotation nv).nx)
    (hphase : phase x = phase y) (hlinear : x.drop 2 = y.drop 2) : x = y := by
  obtain ⟨hcos, hsin⟩ := Complex.mk.inj hphase
  match x, y, hx, hy with
  | a :: b :: x, c :: d :: y, _, _ =>
    exact List.cons_eq_cons.mpr ⟨hcos, List.cons_eq_cons.mpr ⟨hsin, hlinear⟩⟩
  | [], _, hx, _ | [_], _, hx, _ =>
    simp only [nx, List.length_cons, List.length_nil] at hx
    omega
  | _, [], _, hy | _, [_], _, hy =>
    simp only [nx, List.length_cons, List.length_nil] at hy
    omega

theorem ext_tangent (ha : a.length = (rotation nv).ndx) (hb : b.length = (rotation nv).ndx)
    (hangle : a.coord 0 = b.coord 0) (hlinear : a.drop 1 = b.drop 1) : a = b := by
  match a, b, ha, hb with
  | _ :: _, _ :: _, _, _ => exact List.cons_eq_cons.mpr ⟨hangle, hlinear⟩
  | [], _, ha, _ =>
    simp only [ndx, List.length_nil] at ha
    omega
  | _, [], _, hb =>
    simp only [ndx, List.length_nil] at hb
    omega

theorem Contains.integrate (hx : m.Contains x) (ha : a.length = m.ndx) :
    m.Contains (m.integrate x a) where
  length := length_integrate hx.length ha
  circle := by
    rintro nv rfl
    exact (radiusSq_integrate cos_mul_cos_add_sin_mul_sin nv x a).trans (hx.circle nv rfl)

theorem principal_diff (m : Manifold) (x y : Vec ℝ) : m.Principal (m.diff x y) := by
  rintro nv rfl
  rw [coord_diff]
  exact Complex.arg_mem_Ioc _

theorem integrate_diff (hx : m.Contains x) (hy : m.Contains y) :
    m.integrate x (m.diff x y) = y := by
  have hdiff := length_diff hx.length hy.length
  cases m with
  | euclidean n => exact Vec.add_sub_cancel (hx.length.trans hy.length.symm)
  | rotation nv =>
    refine ext_rotation (length_integrate hx.length hdiff) hy.length ?_ ?_
    · have hunit : ‖conj (phase x) * phase y‖ = 1 := by
        rw [norm_mul, Complex.norm_conj, norm_phase (hx.circle nv rfl),
          norm_phase (hy.circle nv rfl), one_mul]
      have hexp := Complex.norm_mul_exp_arg_mul_I (conj (phase x) * phase y)
      rw [hunit, Complex.ofReal_one, one_mul] at hexp
      rw [phase_integrate, coord_diff, hexp, ← mul_assoc, mul_comm (phase x),
        conj_mul_phase (hx.circle nv rfl), one_mul]
    · exact Vec.add_sub_cancel (by simp [hx.length, hy.length])

theorem diff_integrate (hx : m.Contains x) (ha : a.length = m.ndx) (hp : m.Principal a) :
    m.diff x (m.integrate x a) = a := by
  have hlen := hx.length
  have hmoved := length_integrate hlen ha
  cases m with
  | euclidean n => exact Vec.sub_add_cancel (hlen.trans ha.symm)
  | rotation nv =>
    refine ext_tangent (length_diff hlen hmoved) ha ?_ ?_
    · rw [coord_diff_integrate (hx.circle nv rfl), arg_exp_of_mem (hp nv rfl)]
    · exact Vec.sub_add_cancel (by simp [hlen, ha, nx, ndx])

theorem diff_self (hx : m.Contains x) : m.diff x x = Vec.zeros m.ndx := by
  cases m with
  | euclidean n =>
    rw [diff, Vec.sub_self, hx.length]
    rfl
  | rotation nv =>
    refine ext_tangent (length_diff hx.length hx.length) (Vec.length_zeros _) ?_ ?_
    · rw [coord_diff, conj_mul_phase (hx.circle nv rfl), Complex.arg_one]
      simp [ndx, Vec.coord, Vec.zeros]
    · change Vec.sub (x.drop 2) (x.drop 2) = _
      rw [Vec.sub_self, List.length_drop, hx.length]
      simp [nx, ndx, Vec.zeros]

theorem integrate_integrate (hx : x.length = m.nx) (ha : a.length = m.ndx) (hb : b.length = m.ndx) :
    m.integrate (m.integrate x a) b = m.integrate x (Vec.add a b) := by
  have hab : (Vec.add a b).length = m.ndx := by rw [Vec.length_add, ha, hb, min_self]
  cases m with
  | euclidean n => exact Vec.add_add x a b
  | rotation nv =>
    refine ext_rotation (length_integrate (length_integrate hx ha) hb)
      (length_integrate hx hab) ?_ ?_
    · have hcoord : (Vec.add a b).coord 0 = a.coord 0 + b.coord 0 :=
        Vec.coord_add (by simp [ha, ndx]) (by simp [hb, ndx])
      rw [phase_integrate, phase_integrate, phase_integrate, hcoord, mul_assoc, ← Complex.exp_add,
        ← add_mul, Complex.ofReal_add]
    · change Vec.add (Vec.add (x.drop 2) (a.drop 1)) (b.drop 1) =
        Vec.add (x.drop 2) ((Vec.add a b).drop 1)
      have hdrop : (Vec.add a b).drop 1 = Vec.add (a.drop 1) (b.drop 1) := List.drop_zipWith
      rw [Vec.add_add, hdrop]

/-- What moving and comparing the points of a manifold has to satisfy. -/
structure Lawful (m : Manifold) : Prop where
  integrate_diff : ∀ {x y : Vec ℝ}, m.Contains x → m.Contains y → m.integrate x (m.diff x y) = y
  diff_integrate : ∀ {x a : Vec ℝ}, m.Contains x → a.length = m.ndx → m.Principal a →
    m.diff x (m.integrate x a) = a
  integrate_zeros : ∀ {x : Vec ℝ}, m.Contains x → m.integrate x (Vec.zeros m.ndx) = x
  diff_self : ∀ {x : Vec ℝ}, m.Contains x → m.diff x x = Vec.zeros m.ndx
  integrate_integrate : ∀ {x a b : Vec ℝ}, m.Contains x → a.length = m.ndx → b.length = m.ndx →
    m.integrate (m.integrate x a) b = m.integrate x (Vec.add a b)
  principal_diff : ∀ {x y : Vec ℝ}, m.Contains x → m.Contains y → m.Principal (m.diff x y)
  /-- No other turn from the one point to the other is shorter. -/
  shortest_diff : ∀ {x y d : Vec ℝ}, m.Contains x → d.length = m.ndx → m.integrate x d = y →
    ∀ nv, m = rotation nv → |(m.diff x y).coord 0| ≤ |d.coord 0|
  contains_integrate : ∀ {x a : Vec ℝ}, m.Contains x → a.length = m.ndx →
    m.Contains (m.integrate x a)

/-- Every manifold satisfies the laws, and the angle of the point at an angle is the representative
of the angle between half a turn backwards, which is left out, and half a turn forwards. -/
theorem lawful (m : Manifold) : m.Lawful ∧ ∀ (θ : ℝ) (v : Vec ℝ),
    (rotation v.length).Contains (ofAngle θ v) ∧ angle (ofAngle θ v) ∈ Set.Ioc (-π) π ∧
      ∃ k : ℤ, angle (ofAngle θ v) + k * (2 * π) = θ := by
  constructor
  · constructor
    case integrate_diff => exact integrate_diff
    case diff_integrate => exact diff_integrate
    case integrate_zeros => exact fun hx => integrate_zeros Real.sin_zero Real.cos_zero hx.length
    case diff_self => exact diff_self
    case integrate_integrate => exact fun hx => integrate_integrate hx.length
    case principal_diff => exact fun _ _ => principal_diff m _ _
    case shortest_diff =>
      rintro x y d hx - rfl nv rfl
      rw [coord_diff_integrate (hx.circle nv rfl)]
      exact abs_arg_exp_le _
    case contains_integrate => exact Contains.integrate
  · intro θ v
    have hangle : angle (ofAngle θ v) = (Complex.exp (θ * Complex.I)).arg :=
      congrArg Complex.arg (phase_ofAngle θ v)
    refine ⟨⟨Nat.add_comm _ 2, fun _ _ => cos_mul_cos_add_sin_mul_sin θ⟩, ?_, ?_⟩
    · rw [hangle]
      exact Complex.arg_mem_Ioc _
    · refine ⟨toIocDiv Real.two_pi_pos (-π) θ, ?_⟩
      have hsum := toIocMod_add_toIocDiv_zsmul Real.two_pi_pos (-π) θ
      rwa [zsmul_eq_mul, ← Complex.arg_exp_mul_I, ← hangle] at hsum

theorem lawful_rotation :
    let m : Manifold := .rotation 1
    let x : Vec ℝ := [0, -1, 3]
    let y : Vec ℝ := [-3 / 5, 4 / 5, 1]
    m.Contains x ∧ m.Contains y ∧ m.integrate x (m.diff x y) = y ∧
      m.diff x (m.integrate x [π, 5]) = [π, 5] ∧
      m.integrate (m.integrate x [π, 5]) [π, 5] = m.integrate x [π + π, 5 + 5] := by
  intro m x y
  have hx : m.Contains x := by
    refine ⟨rfl, fun _ _ => ?_⟩
    change (0 : ℝ) * 0 + -1 * -1 = 1
    norm_num
  have hy : m.Contains y := by
    refine ⟨rfl, fun _ _ => ?_⟩
    change (-3 / 5 : ℝ) * (-3 / 5) + 4 / 5 * (4 / 5) = 1
    norm_num
  have hprincipal : m.Principal [π, 5] := fun _ _ => ⟨neg_lt_self Real.pi_pos, le_rfl⟩
  have hm := (lawful m).1
  exact ⟨hx, hy, hm.integrate_diff hx hy, hm.diff_integrate hx rfl hprincipal,
    hm.integrate_integrate hx rfl rfl⟩

end Manifold
end Shooting
