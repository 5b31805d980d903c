import Shooting.Proofs.Curvature
import Shooting.Proofs.Displacement
import Shooting.Proofs.Faults
import Shooting.Proofs.Measure

/-! # Exact linearizations

The linearization of a model given by expressions holds the derivatives at no increment of its cost
and of the displacement of its following state, both read through the moves of state and control.
-/

namespace Shooting

open scoped Matrix

namespace Increment

variable {m : Manifold} {nu : ℕ}

theorem unit_fst (k : ℕ) (i : Fin m.ndx) : (unit m nu k).1 i = if i = k then 1 else 0 := rfl

theorem unit_snd (k : ℕ) (j : Fin nu) : (unit m nu k).2 j = if m.ndx + j = k then 1 else 0 := rfl

theorem eq_sum_unit (dx : Fin m.ndx → ℝ) (du : Fin nu → ℝ) : ((dx, du) : Increment m nu) =
    ∑ i, dx i • unit m nu i + ∑ j, du j • unit m nu (m.ndx + j) := by
  ext i
  · have hne (j : Fin nu) : (i : ℕ) ≠ m.ndx + j := by omega
    rw [Prod.fst_add, Prod.fst_sum, Prod.fst_sum, Pi.add_apply, Finset.sum_apply, Finset.sum_apply]
    simp [unit_fst, hne, Fin.val_inj]
  · have hne (j : Fin m.ndx) : m.ndx + (i : ℕ) ≠ j := by omega
    rw [Prod.snd_add, Prod.snd_sum, Prod.snd_sum, Pi.add_apply, Finset.sum_apply, Finset.sum_apply]
    simp [unit_snd, hne, Fin.val_inj]

theorem map_eq_sum {F : Type} [AddCommGroup F] [Module ℝ F] [TopologicalSpace F]
    (f : Increment m nu →L[ℝ] F) (dx : Fin m.ndx → ℝ) (du : Fin nu → ℝ) :
    f (dx, du) = ∑ i, dx i • f (unit m nu i) + ∑ j, du j • f (unit m nu (m.ndx + j)) := by
  rw [eq_sum_unit, map_add, map_sum, map_sum]
  simp only [map_smul]

theorem functional_eq (f : Increment m nu →L[ℝ] ℝ) {a : Fin m.ndx → ℝ} {b : Fin nu → ℝ}
    (ha : ∀ i : Fin m.ndx, a i = f (unit m nu i)) (hb : ∀ j, b j = f (unit m nu (m.ndx + j)))
    (dx : Fin m.ndx → ℝ) (du : Fin nu → ℝ) : f (dx, du) = a ⬝ᵥ dx + b ⬝ᵥ du := by
  rw [map_eq_sum]
  simp only [dotProduct, ha, hb, smul_eq_mul, mul_comm]

theorem linear_eq {p : ℕ} (f : Increment m nu →L[ℝ] Fin p → ℝ)
    {A : Matrix (Fin p) (Fin m.ndx) ℝ} {B : Matrix (Fin p) (Fin nu) ℝ}
    (hA : ∀ i (j : Fin m.ndx), A i j = f (unit m nu j) i)
    (hB : ∀ i j, B i j = f (unit m nu (m.ndx + j)) i)
    (dx : Fin m.ndx → ℝ) (du : Fin nu → ℝ) : f (dx, du) = A *ᵥ dx + B *ᵥ du := by
  ext i
  exact functional_eq ((ContinuousLinearMap.proj i).comp f) (hA i) (hB i) dx du

theorem bilinear_eq (f : Increment m nu →L[ℝ] Increment m nu →L[ℝ] ℝ)
    {A : Matrix (Fin m.ndx) (Fin m.ndx) ℝ} {B : Matrix (Fin m.ndx) (Fin nu) ℝ}
    {C : Matrix (Fin nu) (Fin m.ndx) ℝ} {D : Matrix (Fin nu) (Fin nu) ℝ}
    (hA : ∀ i j, A i j = f (unit m nu i) (unit m nu j))
    (hB : ∀ i j, B i j = f (unit m nu i) (unit m nu (m.ndx + j)))
    (hC : ∀ i j, C i j = f (unit m nu (m.ndx + i)) (unit m nu j))
    (hD : ∀ i j, D i j = f (unit m nu (m.ndx + i)) (unit m nu (m.ndx + j)))
    (dx dx' : Fin m.ndx → ℝ) (du du' : Fin nu → ℝ) :
    f (dx, du) (dx', du') =
      dx ⬝ᵥ A *ᵥ dx' + dx ⬝ᵥ B *ᵥ du' + (du ⬝ᵥ C *ᵥ dx' + du ⬝ᵥ D *ᵥ du') := by
  have hstate (i : Fin m.ndx) : f (unit m nu i) (dx', du') = (A *ᵥ dx' + B *ᵥ du') i :=
    functional_eq _ (hA i) (hB i) dx' du'
  have hcontrol (j : Fin nu) :
      f (unit m nu (m.ndx + j)) (dx', du') = (C *ᵥ dx' + D *ᵥ du') j :=
    functional_eq _ (hC j) (hD j) dx' du'
  rw [← dotProduct_add, ← dotProduct_add, map_eq_sum f dx du]
  simp only [add_apply, sum_apply, smul_apply, smul_eq_mul, hstate, hcontrol, dotProduct]

end Increment

namespace Linearization

structure Sized {α : Type} (ndx nu ndxNext : ℕ) (s : Linearization α) : Prop where
  lx : s.lx.length = ndx
  lu : s.lu.length = nu
  lxx : s.lxx.Sized ndx ndx
  lxu : s.lxu.Sized ndx nu
  luu : s.luu.Sized nu nu
  fx : s.fx.Sized ndxNext ndx
  fu : s.fu.Sized ndxNext nu

variable {m : Manifold} {nu : ℕ}

/-- The first and the second derivative at no increment of a cost. -/
structure DerivesCost (s : Linearization ℝ) (φ : Increment m nu → ℝ) : Prop where
  smooth : ContDiffAt ℝ 2 φ 0
  first : ∀ dx du, fderiv ℝ φ 0 (dx, du) = Vec.toFun m.ndx s.lx ⬝ᵥ dx + Vec.toFun nu s.lu ⬝ᵥ du
  second : ∀ dx du dx' du', fderiv ℝ (fderiv ℝ φ) 0 (dx, du) (dx', du') =
    dx ⬝ᵥ Mat.toMatrix m.ndx m.ndx s.lxx *ᵥ dx' + dx ⬝ᵥ Mat.toMatrix m.ndx nu s.lxu *ᵥ du' +
      (du ⬝ᵥ (Mat.toMatrix m.ndx nu s.lxu)ᵀ *ᵥ dx' + du ⬝ᵥ Mat.toMatrix nu nu s.luu *ᵥ du')

/-- The first derivative at no increment of the displacement of a following state. -/
structure DerivesState {p : ℕ} (s : Linearization ℝ) (ψ : Increment m nu → Fin p → ℝ) : Prop where
  smooth : ContDiffAt ℝ 2 ψ 0
  first : ∀ dx du, fderiv ℝ ψ 0 (dx, du) =
    Mat.toMatrix p m.ndx s.fx *ᵥ dx + Mat.toMatrix p nu s.fu *ᵥ du

end Linearization

namespace Mat

variable {α : Type}

theorem Sized.block {p q m n i j : ℕ} {M : Mat α} (h : M.Sized p q) (hi : i + m ≤ p)
    (hj : j + n ≤ q) : Sized m n (M.block i m j n) where
  rows := by
    rw [Mat.block, List.length_map, List.length_take, List.length_drop, h.rows]
    omega
  columns row hrow := by
    obtain ⟨row, hmem, rfl⟩ := List.mem_map.mp hrow
    have hlen := h.columns row (List.mem_of_mem_drop (List.mem_of_mem_take hmem))
    rw [List.length_take, List.length_drop, hlen]
    omega

variable [Scalar α]

theorem entry_take {M : Mat α} {i j n : ℕ} (hj : j < n) :
    entry (M.map (·.take n)) i j = entry M i j := by
  simp only [entry_eq, List.getD_eq_getElem?_getD, List.getElem?_map]
  cases M[i]? <;> simp [hj]

theorem entry_drop (M : Mat α) (i j n : ℕ) :
    entry (M.map (·.drop n)) i j = entry M i (n + j) := by
  simp only [entry_eq, List.getD_eq_getElem?_getD, List.getElem?_map]
  cases M[i]? <;> simp

end Mat

namespace Model

variable {state next : Manifold} {nu n : ℕ} {cost : Expr ℝ} {x u : Vec ℝ}

theorem getD_gradient {k : ℕ} (hk : k < n) :
    ((cost.gradient state n).map (Expr.slope x u)).getD k 0 =
      Expr.slope x u (cost.derivative (.axis state k)) := by
  simp [Expr.gradient, hk]

theorem entry_hessian {i k : ℕ} (hi : i < n) (hk : k < n) :
    Mat.entry ((cost.hessian state n).map (·.map (Expr.slope x u))) i k =
      Expr.slope x u ((cost.derivative (.axis state i)).bind (·.derivative (.along state k))) := by
  simp [Mat.entry, Expr.hessian, Expr.gradient, hi, hk]

/-- The symmetric part of the second derivatives is the second derivative, which is symmetric. -/
theorem entry_hessianAt (hx : x.length = state.nx) (hu : u.length = nu) (hcost : cost.SmoothAt x u)
    {i k : ℕ} (hi : i < n) (hk : k < n) :
    Mat.entry (hessianAt n (cost.hessian state n) x u) i k =
      fderiv ℝ (fderiv ℝ (cost.nearby x u)) (0 : Increment state nu) (.unit state nu i)
        (.unit state nu k) := by
  rw [hessianAt, Mat.entry_ofFn _ hi hk, entry_hessian hi hk, entry_hessian hk hi,
    ← Expr.fderiv_fderiv_nearby hx hu hcost, ← Expr.fderiv_fderiv_nearby hx hu hcost,
    Expr.isSymmSndFDerivAt_nearby hx hu hcost (.unit state nu k), ExactScalar.half_eq]
  ring

theorem entry_jacobianAt {es : List (Expr ℝ)} {i k : ℕ} (hi : i < next.ndx) (hk : k < n) :
    Mat.entry (jacobianAt next n es (es.map (Expr.gradient state n)) x u) i k =
      (next.diffRate (es.map (Expr.eval x u))
        (es.map fun e => Expr.slope x u (e.derivative (.axis state k)))).getD i 0 := by
  have hrates : ((es.map (Expr.gradient state n)).map (·.map (Expr.slope x u))).map (·.getD k 0) =
      es.map fun e => Expr.slope x u (e.derivative (.axis state k)) := by
    rw [List.map_map, List.map_map]
    exact List.map_congr_left fun e _ => getD_gradient hk
  rw [jacobianAt, Mat.entry_ofFn _ hi hk]
  simp only [Mat.entry, ← hrates]
  simp [hk]

variable {es : Option (List (Expr ℝ))}

theorem derivesCost_slopes (hx : x.length = state.nx) (hu : u.length = nu)
    (hcost : cost.SmoothAt x u) :
    (slopes state next nu cost es x u).DerivesCost
      (cost.nearby x u : Increment state nu → ℝ) := by
  constructor
  case smooth => exact Expr.contDiffAt_nearby_zero hx hu hcost
  case first =>
    have hunit (k : ℕ) (hk : k < state.ndx + nu) :
        ((cost.gradient state (state.ndx + nu)).map (Expr.slope x u)).getD k 0 =
          fderiv ℝ (cost.nearby x u) (0 : Increment state nu) (.unit state nu k) := by
      rw [getD_gradient hk, Expr.fderiv_nearby_zero hx hu hcost]
    apply Increment.functional_eq
    · intro i
      rw [← hunit i (by omega)]
      exact congrFun (Vec.toFun_take _ _) i
    · intro j
      rw [← hunit (state.ndx + j) (by omega)]
      simp [slopes]
  case second =>
    have hblock {i j a b p q : ℕ} (ha : a < p) (hb : b < q) (hi : i + a < state.ndx + nu)
        (hj : j + b < state.ndx + nu) :
        Mat.entry (Mat.block (hessianAt (state.ndx + nu)
          (cost.hessian state (state.ndx + nu)) x u) i p j q) a b =
            fderiv ℝ (fderiv ℝ (cost.nearby x u)) (0 : Increment state nu)
              (.unit state nu (i + a)) (.unit state nu (j + b)) := by
      rw [Mat.entry_block, if_pos ⟨ha, hb⟩, entry_hessianAt hx hu hcost hi hj]
    intro dx du dx' du'
    apply Increment.bilinear_eq
    · intro i j
      refine (hblock i.isLt j.isLt (by omega) (by omega)).trans ?_
      rw [Nat.zero_add, Nat.zero_add]
    · intro i j
      refine (hblock i.isLt j.isLt (by omega) (by omega)).trans ?_
      rw [Nat.zero_add]
    · intro i j
      refine (hblock j.isLt i.isLt (by omega) (by omega)).trans ?_
      rw [Nat.zero_add]
      exact Expr.isSymmSndFDerivAt_nearby hx hu hcost _ _
    · intro i j
      exact hblock i.isLt j.isLt (by omega) (by omega)

theorem derivesState_slopes {d : Dynamics ℝ} (hx : x.length = state.nx) (hu : u.length = nu)
    (hd : d.SmoothAt state next x u) :
    (slopes state next nu cost (some (d.embedding state)) x u).DerivesState
      (d.displacement next x u : Increment state nu → Fin next.ndx → ℝ) := by
  constructor
  case smooth => exact Dynamics.contDiffAt_displacement hx hu hd
  case first =>
    have hentry (i : Fin next.ndx) {k : ℕ} (hk : k < state.ndx + nu) :
        Mat.entry (jacobianAt next (state.ndx + nu) (d.embedding state)
          ((d.embedding state).map (Expr.gradient state (state.ndx + nu))) x u) i k =
            fderiv ℝ (d.displacement next x u) (0 : Increment state nu)
              (.unit state nu k) i := by
      rw [Dynamics.fderiv_displacement hx hu hd, entry_jacobianAt i.isLt hk,
        Dynamics.map_eval_embedding hx hd.leads]
      rfl
    apply Increment.linear_eq
    · intro i j
      exact (Mat.entry_take j.isLt).trans (hentry i (by omega))
    · intro i j
      exact (Mat.entry_drop _ _ _ _).trans (hentry i (by omega))

theorem sized_slopes (hnext : es = none → next.ndx = state.ndx) :
    (slopes state next nu cost es x u).Sized state.ndx nu next.ndx := by
  have hgradient : ((cost.gradient state (state.ndx + nu)).map (Expr.slope x u)).length =
      state.ndx + nu := by
    simp [Expr.gradient]
  have hhessian : (hessianAt (state.ndx + nu) (cost.hessian state (state.ndx + nu)) x u).Sized
      (state.ndx + nu) (state.ndx + nu) := Mat.sized_ofFn _ _ _
  have hjacobian {M : Mat ℝ} (hM : M.Sized next.ndx (state.ndx + nu)) :
      Mat.Sized next.ndx state.ndx (M.map (·.take state.ndx)) ∧
        Mat.Sized next.ndx nu (M.map (·.drop state.ndx)) := ⟨hM.take, hM.drop⟩
  have hmoves : (slopes state next nu cost es x u).fx.Sized next.ndx state.ndx ∧
      (slopes state next nu cost es x u).fu.Sized next.ndx nu := by
    cases es with
    | some es => exact hjacobian (Mat.sized_ofFn _ _ _)
    | none =>
      apply hjacobian
      rw [hnext rfl]
      exact Mat.sized_ofFn _ _ _
  constructor
  case lx => exact List.length_take.trans (by rw [hgradient]; omega)
  case lu => exact List.length_drop.trans (by rw [hgradient]; omega)
  case lxx => exact hhessian.block (by omega) (by omega)
  case lxu => exact hhessian.block (by omega) (by omega)
  case luu => exact hhessian.block (by omega) (by omega)
  case fx => exact hmoves.1
  case fu => exact hmoves.2

theorem slopes_still (next : Manifold) (cost : Expr ℝ) (x u : Vec ℝ) :
    (slopes state next 0 cost none x u).fx = Mat.identity state.ndx ∧
      (slopes state next 0 cost none x u).fu = List.replicate state.ndx [] := by
  have htake (row : List ℝ) (h : row.length = state.ndx) :
      row.take state.ndx = row ∧ row.drop state.ndx = [] :=
    ⟨List.take_of_length_le h.le, List.drop_of_length_le h.le⟩
  have hcolumns := (Mat.sized_ofFn state.ndx state.ndx
    fun i k => if i = k then (1 : ℝ) else 0).columns
  constructor
  · refine (List.map_congr_left fun row hrow => (htake row (hcolumns row hrow)).1).trans ?_
    exact List.map_id _
  · refine (List.map_congr_left fun row hrow => (htake row (hcolumns row hrow)).2).trans ?_
    rw [List.map_const', Mat.length_ofFn]

section Symbolic

variable {dynamics : Option (Dynamics ℝ)} {nu : ℤ} {next : Option Manifold}
  {guard : Option (Guard ℝ)} {m : Model ℝ}

theorem state_of_ofExprs (hm : ofExprs state cost dynamics nu next guard = .ok m) :
    m.state = state := by
  unfold ofExprs at hm
  split_ifs at hm
  cases hm
  rfl

theorem eval_value (hm : ofExprs state cost dynamics nu next guard = .ok m)
    (hx : x.length = m.state.nx) (hd : ∀ d ∈ dynamics, d.Leads m.state m.next) {y : ℝ × Vec ℝ}
    (hy : m.eval x u = .ok y) :
    y = (cost.eval x u, (dynamics.map (·.value m.state x u)).getD x) := by
  rw [eval_of_ofExprs hm] at hy
  cases hguard : guard.elim (.ok ()) (·.check x) with
  | error f =>
    rw [hguard] at hy
    cases hy
  | ok =>
    rw [hguard] at hy
    cases hy
    cases dynamics with
    | none => rfl
    | some d =>
      have hvalue := d.map_eval_embedding (u := u) hx (hd d rfl)
      rw [state_of_ofExprs hm] at hvalue ⊢
      exact congrArg (_, ·) hvalue

/-- A model given by expressions evaluates its cost and its dynamics and linearizes into their exact
derivatives, wherever they are smooth. -/
theorem linearize_exact (hm : ofExprs state cost dynamics nu next guard = .ok m) (k : Knot ℝ)
    (hx : x.length = m.state.nx) (hu : u.length = m.nu) (hcost : cost.SmoothAt x u)
    (hdynamics : ∀ d ∈ dynamics, d.SmoothAt m.state m.next x u) :
    (∀ y, m.eval x u = .ok y →
      y = (cost.eval x u, (dynamics.map (·.value m.state x u)).getD x)) ∧
    ∃ s, m.linearize k x u = ({ k with slopes := s }, .ok ()) ∧
      s.Sized m.state.ndx m.nu m.next.ndx ∧ s.Symmetric m.state.ndx m.nu ∧
      s.DerivesCost (cost.nearby x u : Increment m.state m.nu → ℝ) ∧
      (∀ d ∈ dynamics,
        s.DerivesState (d.displacement m.next x u : Increment m.state m.nu → _)) ∧
      (dynamics = none →
        s.fx = Mat.identity m.state.ndx ∧ s.fu = List.replicate m.state.ndx []) := by
  have hsymmetric := symmetricHessians_of_ofExprs add_comm hm x u
  have hvalue (y : ℝ × Vec ℝ) (hy : m.eval x u = .ok y) :=
    eval_value hm hx (fun d hd => (hdynamics d hd).leads) hy
  unfold ofExprs at hm
  split_ifs at hm with hneg hmissing hchange
  cases hm
  refine ⟨hvalue, _, rfl, sized_slopes fun hnone => ?_, hsymmetric _ rfl,
    derivesCost_slopes hx hu hcost, ?_, ?_⟩
  · have hstill : dynamics = none := Option.map_eq_none_iff.mp hnone
    cases next with
    | none => rfl
    | some next => simpa [hstill] using hchange
  · rintro d rfl
    exact derivesState_slopes hx hu (hdynamics d rfl)
  · rintro rfl
    have hnu : nu.toNat = 0 := by simpa using hmissing
    dsimp only
    rw [hnu]
    exact slopes_still _ cost x u

end Symbolic

/-- A cost and dynamics on rotations that read angle, logarithm, root and quotient. -/
theorem linearize_exact_turning :
    let cost : Expr ℝ := .add (.pow (.atan2 (.state 1) (.state 0)) 2)
      (.div (.apply .log (.state 0)) (.apply .sqrt (.add (.const 1) (.control 0))))
    let d : Dynamics ℝ := .tangent [.control 0]
    ∃ m : Model ℝ, ofExprs (.rotation 0) cost (some d) 1 none none = .ok m ∧
      cost.SmoothAt [1, 0] [0] ∧ d.SmoothAt m.state m.next [1, 0] [0] ∧
      ∃ s, m.linearize m.fresh [1, 0] [0] = ({ m.fresh with slopes := s }, .ok ()) ∧
        s.DerivesCost (cost.nearby [1, 0] [0] : Increment m.state m.nu → ℝ) ∧
        s.DerivesState (d.displacement m.next [1, 0] [0] : Increment m.state m.nu → _) := by
  intro cost d
  have hcost : cost.SmoothAt [1, 0] [0] := by
    have hcos : (Expr.state 0 : Expr ℝ).SmoothAt [1, 0] [0] := Nat.two_pos
    have hsin : (Expr.state 1 : Expr ℝ).SmoothAt [1, 0] [0] := Nat.one_lt_two
    refine ⟨⟨⟨hsin, hcos⟩, .inl one_pos⟩, ⟨⟨hcos, one_pos⟩, ⟨trivial, Nat.one_pos⟩, ?_⟩, ?_⟩
    · change (0 : ℝ) < 1 + 0
      norm_num
    · change √(1 + 0 : ℝ) ≠ 0
      norm_num
  have hd : d.SmoothAt (.rotation 0) (.rotation 0) [1, 0] [0] := by
    refine ⟨⟨rfl, rfl⟩, List.forall_mem_singleton.mpr Nat.one_pos, .inl ?_⟩
    change 1 * Real.cos 0 - 0 * Real.sin 0 ≠ 0
    norm_num
  refine ⟨_, rfl, hcost, hd, ?_⟩
  have hm : ofExprs (.rotation 0) cost (some d) 1 none none = .ok _ := rfl
  obtain ⟨-, s, hs, -, -, hderives, hstate, -⟩ := linearize_exact hm (fresh _) rfl rfl hcost
    fun d' hd' => Option.some.inj hd' ▸ hd
  exact ⟨s, hs, hderives, hstate d rfl⟩

end Model
end Shooting
