import Mathlib
import Shooting.Expr.Derivative
import Shooting.Proofs.Exact

/-! # Differentiation of expressions

Over the reals, the derivative of an expression along a motion is the derivative of its value, where
every step of the evaluation is smooth. It is smooth there itself, so that it can be differentiated
again.
-/

namespace Shooting

open Topology

namespace Elementary

/-- An elementary function is smooth wherever it is defined, the square root but at zero. -/
def SmoothAt : Elementary → ℝ → Prop
  | log, a => 0 < a
  | sqrt, a => 0 < a
  | _, _ => True

theorem hasDerivAt_tanh (a : ℝ) : HasDerivAt Real.tanh (1 - Real.tanh a * Real.tanh a) a := by
  have hcosh : Real.cosh a ≠ 0 := (Real.cosh_pos a).ne'
  have h := (Real.hasDerivAt_sinh a).div (Real.hasDerivAt_cosh a) hcosh
  rw [show Real.tanh = Real.sinh / Real.cosh from funext Real.tanh_eq_sinh_div_cosh]
  refine h.congr_deriv ?_
  simp only [Pi.div_apply]
  field_simp

theorem hasDerivAt_eval {f : Elementary} {x u : Vec ℝ} {a : Expr ℝ}
    (h : f.SmoothAt (a.eval x u)) :
    HasDerivAt f.eval ((f.slope a).eval x u) (a.eval x u) := by
  cases f with
  | sin => exact Real.hasDerivAt_sin _
  | cos => exact Real.hasDerivAt_cos _
  | exp => exact Real.hasDerivAt_exp _
  | log =>
    refine (Real.hasDerivAt_log (ne_of_gt h)).congr_deriv ?_
    exact (one_div _).symm
  | sqrt =>
    refine (Real.hasDerivAt_sqrt (ne_of_gt h)).congr_deriv ?_
    change 1 / (2 * √(a.eval x u)) = Scalar.half / √(a.eval x u)
    rw [ExactScalar.half_eq, div_div]
  | tanh => exact hasDerivAt_tanh _

theorem contDiffAt_eval {f : Elementary} {n : WithTop ℕ∞} {a : ℝ} (h : f.SmoothAt a) :
    ContDiffAt ℝ n f.eval a := by
  cases f with
  | sin => exact Real.contDiff_sin.contDiffAt
  | cos => exact Real.contDiff_cos.contDiffAt
  | exp => exact Real.contDiff_exp.contDiffAt
  | log => exact Real.contDiffAt_log.mpr (ne_of_gt h)
  | sqrt => exact Real.contDiffAt_sqrt (ne_of_gt h)
  | tanh =>
    have h := Real.contDiff_sinh.contDiffAt.div (Real.contDiff_cosh.contDiffAt (x := a) (n := n))
      (Real.cosh_pos a).ne'
    exact h.congr_of_eventuallyEq (.of_forall Real.tanh_eq_sinh_div_cosh)

end Elementary

namespace Expr

section Slopes

variable {x u : Vec ℝ} {r : Rates ℝ} {a b : Expr ℝ} {o p : Option (Expr ℝ)}

theorem slope_merge : slope x u (o.merge add p) = slope x u o + slope x u p := by
  cases o <;> cases p <;> simp [slope, eval]

theorem slope_map {f : Expr ℝ → Expr ℝ} {g : ℝ → ℝ} (hf : ∀ d, (f d).eval x u = g (d.eval x u))
    (hg : g 0 = 0) : slope x u (o.map f) = g (slope x u o) := by
  cases o with
  | none => exact hg.symm
  | some d => exact hf d

theorem slope_map_neg : slope x u (o.map neg) = -slope x u o :=
  slope_map (g := (-·)) (fun _ => rfl) neg_zero

theorem slope_map_mul (c : Expr ℝ) :
    slope x u (o.map fun d => mul d c) = slope x u o * c.eval x u :=
  slope_map (g := (· * c.eval x u)) (fun _ => rfl) (zero_mul _)

theorem slope_derivative_neg :
    slope x u ((neg a).derivative r) = -slope x u (a.derivative r) :=
  slope_map_neg

theorem slope_derivative_add : slope x u ((add a b).derivative r) =
    slope x u (a.derivative r) + slope x u (b.derivative r) :=
  slope_merge

theorem slope_derivative_sub : slope x u ((sub a b).derivative r) =
    slope x u (a.derivative r) - slope x u (b.derivative r) := by
  rw [derivative, slope_merge, slope_map_neg, sub_eq_add_neg]

theorem slope_derivative_mul : slope x u ((mul a b).derivative r) =
    slope x u (a.derivative r) * b.eval x u + a.eval x u * slope x u (b.derivative r) := by
  rw [derivative, slope_merge, slope_map_mul,
    slope_map (g := (a.eval x u * ·)) (fun _ => rfl) (mul_zero _)]

theorem slope_derivative_div : slope x u ((div a b).derivative r) =
    slope x u (a.derivative r) / b.eval x u -
      a.eval x u * slope x u (b.derivative r) / (b.eval x u * b.eval x u) := by
  have hnum := slope_map (x := x) (u := u) (o := a.derivative r) (f := fun d => div d b)
    (g := (· / b.eval x u)) (fun _ => rfl) (zero_div _)
  have hden := slope_map (x := x) (u := u) (o := b.derivative r)
    (f := fun d => neg (div (mul a d) (mul b b)))
    (g := fun d => -(a.eval x u * d / (b.eval x u * b.eval x u))) (fun _ => rfl) (by simp)
  rw [derivative, slope_merge, hnum, hden, sub_eq_add_neg]

theorem slope_derivative_pow (k : ℕ) : slope x u ((pow a k).derivative r) =
    slope x u (a.derivative r) * (Scalar.ofNat k * Scalar.power (a.eval x u) (k - 1)) :=
  slope_map_mul _

theorem slope_derivative_apply (f : Elementary) : slope x u ((apply f a).derivative r) =
    slope x u (a.derivative r) * (f.slope a).eval x u :=
  slope_map_mul _

theorem slope_derivative_atan2 : slope x u ((atan2 a b).derivative r) =
    (slope x u (a.derivative r) * b.eval x u - slope x u (b.derivative r) * a.eval x u) /
      (b.eval x u * b.eval x u + a.eval x u * a.eval x u) := by
  rw [derivative, slope_merge, slope_map_mul, slope_map_mul]
  simp only [eval]
  ring

end Slopes

/-- Every step of an evaluation is smooth at a point: the variables are there, no denominator is
zero, and no argument is at the edge of a domain or on the cut of the angle. -/
def SmoothAt (x u : Vec ℝ) : Expr ℝ → Prop
  | const _ => True
  | state i => i < x.length
  | control j => j < u.length
  | neg a => a.SmoothAt x u
  | add a b => a.SmoothAt x u ∧ b.SmoothAt x u
  | sub a b => a.SmoothAt x u ∧ b.SmoothAt x u
  | mul a b => a.SmoothAt x u ∧ b.SmoothAt x u
  | div a b => (a.SmoothAt x u ∧ b.SmoothAt x u) ∧ b.eval x u ≠ 0
  | pow a _ => a.SmoothAt x u
  | apply f a => a.SmoothAt x u ∧ f.SmoothAt (a.eval x u)
  | atan2 y z => (y.SmoothAt x u ∧ z.SmoothAt x u) ∧ (0 < z.eval x u ∨ y.eval x u ≠ 0)

end Expr

/-- A state and a control move, and at a given time they move at the given rates. -/
structure Rates.Describes (r : Rates ℝ) (x u : ℝ → Vec ℝ) (t : ℝ) : Prop where
  state : ∀ i < (x t).length,
    HasDerivAt (fun s => (x s).coord i) (Expr.slope (x t) (u t) (r.state i)) t
  control : ∀ j < (u t).length,
    HasDerivAt (fun s => (u s).coord j) (Expr.slope (x t) (u t) (r.control j)) t

theorem Scalar.power_eq (a : ℝ) (k : ℕ) : Scalar.power a k = a ^ k := by
  induction k with
  | zero => rfl
  | succ k ih =>
    rw [pow_succ, ← ih]
    rfl

theorem Scalar.ofNat_eq (k : ℕ) : (Scalar.ofNat k : ℝ) = k := by
  induction k with
  | zero => exact Nat.cast_zero.symm
  | succ k ih =>
    rw [Nat.cast_succ, ← ih]
    rfl

namespace Expr

theorem arg_eq (a b : ℝ) : Complex.arg ⟨a, b⟩ =
    Complex.imCLM (Complex.log (Complex.equivRealProdCLM.symm (a, b))) :=
  (Complex.log_im _).symm

theorem hasDerivAt_atan2 {y z : ℝ → ℝ} {y' z' t : ℝ} (hy : HasDerivAt y y' t)
    (hz : HasDerivAt z z' t) (h : 0 < z t ∨ y t ≠ 0) :
    HasDerivAt (fun s => Complex.arg ⟨z s, y s⟩)
      ((y' * z t - z' * y t) / (z t * z t + y t * y t)) t := by
  have hpoint : HasDerivAt (fun s => Complex.equivRealProdCLM.symm (z s, y s)) ⟨z', y'⟩ t :=
    Complex.equivRealProdCLM.symm.hasFDerivAt.comp_hasDerivAt t (HasDerivAt.prodMk hz hy)
  have hlog := hpoint.clog_real (Complex.mem_slitPlane_iff.mpr h)
  simp only [arg_eq]
  refine (Complex.imCLM.hasFDerivAt.comp_hasDerivAt t hlog).congr_deriv ?_
  change ((⟨z', y'⟩ : ℂ) / ⟨z t, y t⟩).im = _
  rw [Complex.div_im, Complex.normSq_mk]
  ring

/-- The value of an expression changes at the slope of its derivative. -/
theorem hasDerivAt_eval {r : Rates ℝ} {x u : ℝ → Vec ℝ} {t : ℝ} (hr : r.Describes x u t)
    {e : Expr ℝ} (he : e.SmoothAt (x t) (u t)) :
    HasDerivAt (fun s => e.eval (x s) (u s)) (slope (x t) (u t) (e.derivative r)) t := by
  induction e with
  | const c => exact hasDerivAt_const t c
  | state i => exact hr.state i he
  | control j => exact hr.control j he
  | neg a iha =>
    rw [slope_derivative_neg]
    exact (iha he).neg
  | add a b iha ihb =>
    rw [slope_derivative_add]
    exact (iha he.1).add (ihb he.2)
  | sub a b iha ihb =>
    rw [slope_derivative_sub]
    exact (iha he.1).sub (ihb he.2)
  | mul a b iha ihb =>
    rw [slope_derivative_mul]
    exact (iha he.1).mul (ihb he.2)
  | div a b iha ihb =>
    refine ((iha he.1.1).div (ihb he.1.2) he.2).congr_deriv ?_
    have hb : b.eval (x t) (u t) ≠ 0 := he.2
    rw [slope_derivative_div]
    field_simp
  | pow a k iha =>
    rw [slope_derivative_pow, Scalar.ofNat_eq, Scalar.power_eq]
    refine (((iha he).pow k).congr_deriv (mul_comm _ _)).congr_of_eventuallyEq ?_
    exact .of_forall fun s => Scalar.power_eq _ k
  | apply f a iha =>
    rw [slope_derivative_apply, mul_comm]
    exact (Elementary.hasDerivAt_eval he.2).comp t (iha he.1)
  | atan2 y z ihy ihz =>
    rw [slope_derivative_atan2]
    exact hasDerivAt_atan2 (ihy he.1.1) (ihz he.1.2) he.2

end Expr

theorem forall_mem_merge {α : Type} {P : α → Prop} {o p : Option α} {f : α → α → α}
    (ho : ∀ d ∈ o, P d) (hp : ∀ d ∈ p, P d) (hf : ∀ a b, P a → P b → P (f a b)) :
    ∀ d ∈ o.merge f p, P d := by
  cases o <;> cases p <;> simp_all

structure Rates.SmoothAt (r : Rates ℝ) (x u : Vec ℝ) : Prop where
  state : ∀ i < x.length, ∀ d ∈ r.state i, d.SmoothAt x u
  control : ∀ j < u.length, ∀ d ∈ r.control j, d.SmoothAt x u

theorem Elementary.smoothAt_slope {f : Elementary} {x u : Vec ℝ} {a : Expr ℝ}
    (ha : a.SmoothAt x u) (h : f.SmoothAt (a.eval x u)) : (f.slope a).SmoothAt x u := by
  cases f with
  | sin => exact ⟨ha, trivial⟩
  | cos => exact ⟨ha, trivial⟩
  | exp => exact ⟨ha, trivial⟩
  | log => exact ⟨⟨trivial, ha⟩, ne_of_gt h⟩
  | sqrt => exact ⟨⟨trivial, ha, h⟩, (Real.sqrt_pos.mpr h).ne'⟩
  | tanh => exact ⟨trivial, ⟨ha, trivial⟩, ha, trivial⟩

namespace Expr

variable {x u : Vec ℝ} {r : Rates ℝ} {e : Expr ℝ}

theorem SmoothAt.derivative (he : e.SmoothAt x u) (hr : r.SmoothAt x u) :
    ∀ d ∈ e.derivative r, d.SmoothAt x u := by
  have hmap {o : Option (Expr ℝ)} {f : Expr ℝ → Expr ℝ} (ho : ∀ d ∈ o, d.SmoothAt x u)
      (hf : ∀ d : Expr ℝ, d.SmoothAt x u → (f d).SmoothAt x u) :
      ∀ d ∈ o.map f, d.SmoothAt x u := by
    cases o <;> simp_all
  have hmerge {o p : Option (Expr ℝ)} (ho : ∀ d ∈ o, d.SmoothAt x u)
      (hp : ∀ d ∈ p, d.SmoothAt x u) : ∀ d ∈ o.merge add p, d.SmoothAt x u :=
    forall_mem_merge ho hp fun _ _ ha hb => ⟨ha, hb⟩
  induction e with
  | const c => simp [Expr.derivative]
  | state i => exact hr.state i he
  | control j => exact hr.control j he
  | neg a iha => exact hmap (iha he) fun _ hd => hd
  | add a b iha ihb => exact hmerge (iha he.1) (ihb he.2)
  | sub a b iha ihb => exact hmerge (iha he.1) (hmap (ihb he.2) fun _ hd => hd)
  | mul a b iha ihb =>
    exact hmerge (hmap (iha he.1) fun _ hd => ⟨hd, he.2⟩)
      (hmap (ihb he.2) fun _ hd => ⟨he.1, hd⟩)
  | div a b iha ihb =>
    obtain ⟨⟨ha, hb⟩, hne⟩ := he
    exact hmerge (hmap (iha ha) fun _ hd => ⟨⟨hd, hb⟩, hne⟩)
      (hmap (ihb hb) fun _ hd => ⟨⟨⟨ha, hd⟩, hb, hb⟩, mul_ne_zero hne hne⟩)
  | pow a k iha => exact hmap (iha he) fun _ hd => ⟨hd, trivial, he⟩
  | apply f a iha => exact hmap (iha he.1) fun _ hd => ⟨hd, Elementary.smoothAt_slope he.1 he.2⟩
  | atan2 y z ihy ihz =>
    obtain ⟨⟨hy, hz⟩, hcut⟩ := he
    -- Off the cut the point is not the origin.
    have hq : z.eval x u * z.eval x u + y.eval x u * y.eval x u ≠ 0 := by
      intro hzero
      obtain ⟨hz, hy⟩ := mul_self_add_mul_self_eq_zero.mp hzero
      exact hcut.elim (fun h => h.ne' hz) fun h => h hy
    have hsquares : (add (mul z z) (mul y y)).SmoothAt x u := ⟨⟨hz, hz⟩, hy, hy⟩
    exact hmerge (hmap (ihy hy) fun _ hd => ⟨hd, ⟨hz, hsquares⟩, hq⟩)
      (hmap (ihz hz) fun _ hd => ⟨hd, ⟨hy, hsquares⟩, hq⟩)

end Expr

section Families

variable {E : Type} [NormedAddCommGroup E] [NormedSpace ℝ E]

/-- States and controls of fixed sizes that depend smoothly on a parameter. -/
structure SmoothFamily (x u : E → Vec ℝ) (v : E) : Prop where
  length_state : ∀ w, (x w).length = (x v).length
  length_control : ∀ w, (u w).length = (u v).length
  state : ∀ i < (x v).length, ContDiffAt ℝ 2 (fun w => (x w).coord i) v
  control : ∀ j < (u v).length, ContDiffAt ℝ 2 (fun w => (u w).coord j) v

theorem contDiffAt_atan2 {y z : E → ℝ} {v : E} (hy : ContDiffAt ℝ 2 y v)
    (hz : ContDiffAt ℝ 2 z v) (h : 0 < z v ∨ y v ≠ 0) :
    ContDiffAt ℝ 2 (fun w => Complex.arg ⟨z w, y w⟩) v := by
  have hpoint : ContDiffAt ℝ 2 (fun w => Complex.equivRealProdCLM.symm (z w, y w)) v :=
    Complex.equivRealProdCLM.symm.contDiff.contDiffAt.comp v (hz.prodMk hy)
  have hlog : ContDiffAt ℝ 2 Complex.log (Complex.equivRealProdCLM.symm (z v, y v)) :=
    (Complex.contDiffAt_log (Complex.mem_slitPlane_iff.mpr h)).restrict_scalars ℝ
  simp only [Expr.arg_eq]
  have hcomp : ContDiffAt ℝ 2
      (fun w => Complex.log (Complex.equivRealProdCLM.symm (z w, y w))) v :=
    ContDiffAt.comp (g := Complex.log) v hlog hpoint
  exact Complex.imCLM.contDiff.contDiffAt.comp v hcomp

namespace SmoothFamily

variable {x u : E → Vec ℝ} {v : E} {e : Expr ℝ}

theorem contDiffAt_eval (h : SmoothFamily x u v) (he : e.SmoothAt (x v) (u v)) :
    ContDiffAt ℝ 2 (fun w => e.eval (x w) (u w)) v := by
  induction e with
  | const c => exact contDiffAt_const
  | state i => exact h.state i he
  | control j => exact h.control j he
  | neg a iha => exact (iha he).neg
  | add a b iha ihb => exact (iha he.1).add (ihb he.2)
  | sub a b iha ihb => exact (iha he.1).sub (ihb he.2)
  | mul a b iha ihb => exact (iha he.1).mul (ihb he.2)
  | div a b iha ihb => exact (iha he.1.1).div (ihb he.1.2) he.2
  | pow a k iha =>
    exact ((iha he).pow k).congr_of_eventuallyEq (.of_forall fun w => Scalar.power_eq _ k)
  | apply f a iha => exact (Elementary.contDiffAt_eval he.2).comp v (iha he.1)
  | atan2 y z ihy ihz => exact contDiffAt_atan2 (ihy he.1.1) (ihz he.1.2) he.2

theorem eventually_smoothAt (h : SmoothFamily x u v) (he : e.SmoothAt (x v) (u v)) :
    ∀ᶠ w in 𝓝 v, e.SmoothAt (x w) (u w) := by
  have hcont {a : Expr ℝ} (ha : a.SmoothAt (x v) (u v)) :
      ContinuousAt (fun w => a.eval (x w) (u w)) v := (h.contDiffAt_eval ha).continuousAt
  induction e with
  | const c => exact .of_forall fun _ => trivial
  | state i => exact .of_forall fun w => he.trans_eq (h.length_state w).symm
  | control j => exact .of_forall fun w => he.trans_eq (h.length_control w).symm
  | neg a iha => exact iha he
  | add a b iha ihb => exact (iha he.1).and (ihb he.2)
  | sub a b iha ihb => exact (iha he.1).and (ihb he.2)
  | mul a b iha ihb => exact (iha he.1).and (ihb he.2)
  | div a b iha ihb =>
    exact ((iha he.1.1).and (ihb he.1.2)).and ((hcont he.1.2).eventually_ne he.2)
  | pow a k iha => exact iha he
  | apply f a iha =>
    refine (iha he.1).and ?_
    have hpos (ha : 0 < a.eval (x v) (u v)) : ∀ᶠ w in 𝓝 v, 0 < a.eval (x w) (u w) :=
      (hcont he.1).eventually (lt_mem_nhds ha)
    cases f with
    | log => exact hpos he.2
    | sqrt => exact hpos he.2
    | _ => exact .of_forall fun _ => trivial
  | atan2 y z ihy ihz =>
    refine ((ihy he.1.1).and (ihz he.1.2)).and ?_
    rcases he.2 with hz | hy
    · exact ((hcont he.1.2).eventually (lt_mem_nhds hz)).mono fun _ => .inl
    · exact ((hcont he.1.1).eventually_ne hy).mono fun _ => .inr

end SmoothFamily
end Families
end Shooting
