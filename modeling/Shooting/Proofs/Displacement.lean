import Shooting.Model.Symbolic
import Shooting.Proofs.Retraction

/-! # Displacement of the following state

Dynamics given by expressions lead to a following state that depends smoothly on state and control.
Its displacement, the tangent vector from its value at a point, is given by expressions of its own,
those of the deviation from a fixed point, and changes at the rate that the model computes.
-/

namespace Shooting

namespace Expr

variable {m : Manifold} {x u : Vec ℝ} {es : List (Expr ℝ)}

theorem exists_angle {nv : ℕ} (hx : x.length = (Manifold.rotation nv).nx)
    (hes : es.length = (Manifold.rotation nv).ndx) :
    ∃ a rest, es = a :: rest ∧ x.length = rest.length + 2 := by
  simp only [Manifold.nx, Manifold.ndx] at hx hes
  obtain ⟨a, rest, rfl⟩ := List.exists_cons_of_length_eq_add_one (hes.trans (Nat.add_comm 1 nv))
  rw [List.length_cons] at hes
  exact ⟨a, rest, rfl, by omega⟩

theorem map_eval_shift {k : ℕ} (hx : x.length = es.length + k) :
    (es.mapIdx fun i e => add (state (i + k)) e).map (eval x u) =
      Vec.add (x.drop k) (es.map (eval x u)) := by
  apply List.ext_getElem
  · simp [hx]
  · intro i hi hi'
    have hik : k + i < x.length := by
      rw [hx, Nat.add_comm]
      simpa using hi
    simp [eval, Vec.add, Nat.add_comm i, Vec.coord_eq_getElem hik]

theorem length_integrate (hes : es.length = m.ndx) : (integrate m es).length = m.nx := by
  cases m with
  | euclidean n => exact List.length_mapIdx.trans hes
  | rotation nv =>
    simp only [Manifold.ndx] at hes
    simp only [integrate, Manifold.nx, List.length_cons, List.length_mapIdx, List.length_drop]
    omega

theorem map_eval_integrate (hx : x.length = m.nx) (hes : es.length = m.ndx) :
    (integrate m es).map (eval x u) = m.integrate x (es.map (eval x u)) := by
  cases m with
  | euclidean n => exact map_eval_shift (k := 0) (hx.trans hes.symm)
  | rotation nv =>
    obtain ⟨a, rest, rfl, hlen⟩ := exists_angle hx hes
    exact congrArg (fun l => _ :: _ :: l) (map_eval_shift hlen)

theorem SmoothAt.shift {k : ℕ} (hx : x.length = es.length + k) (h : ∀ e ∈ es, e.SmoothAt x u) :
    ∀ e ∈ es.mapIdx fun i e => add (state (i + k)) e, e.SmoothAt x u := by
  intro e he
  obtain ⟨i, hi, rfl⟩ := List.mem_mapIdx.mp he
  exact ⟨show i + k < x.length by omega, h _ (List.getElem_mem hi)⟩

theorem SmoothAt.integrate (hx : x.length = m.nx) (hes : es.length = m.ndx)
    (h : ∀ e ∈ es, e.SmoothAt x u) : ∀ e ∈ integrate m es, e.SmoothAt x u := by
  cases m with
  | euclidean n => exact shift (k := 0) (hx.trans hes.symm) h
  | rotation nv =>
    obtain ⟨a, rest, rfl, hlen⟩ := exists_angle hx hes
    obtain ⟨ha, hrest⟩ := List.forall_mem_cons.mp h
    have hcos : (state 0 : Expr ℝ).SmoothAt x u := show 0 < x.length by omega
    have hsin : (state 1 : Expr ℝ).SmoothAt x u := show 1 < x.length by omega
    exact List.forall_mem_cons.mpr ⟨⟨⟨hcos, ha, trivial⟩, hsin, ha, trivial⟩,
      List.forall_mem_cons.mpr ⟨⟨⟨hsin, ha, trivial⟩, hcos, ha, trivial⟩, shift hlen hrest⟩⟩

theorem length_deviation (m : Manifold) (g : Vec ℝ) : (deviation m g).length = m.ndx := by
  cases m with
  | euclidean n => simp [deviation, Manifold.ndx]
  | rotation nv => simp [deviation, Manifold.ndx, Nat.add_comm]

theorem map_eval_difference {n k : ℕ} {g y : Vec ℝ} (hg : g.length = n + k)
    (hy : y.length = n + k) :
    ((List.range n).map fun i => sub (state (i + k)) (const (g.coord (i + k)))).map (eval y u) =
      Vec.sub (y.drop k) (g.drop k) := by
  apply List.ext_getElem
  · simp [hg, hy]
  · intro i hi hi'
    have hgi : k + i < g.length := by
      rw [hg, Nat.add_comm k]
      simpa using hi
    have hyi : k + i < y.length := hgi.trans_eq (hg.trans hy.symm)
    simp [eval, Vec.sub, Nat.add_comm i, Vec.coord_eq_getElem hgi, Vec.coord_eq_getElem hyi]

theorem map_eval_deviation {g y : Vec ℝ} (hg : g.length = m.nx) (hy : y.length = m.nx)
    (u : Vec ℝ) : (deviation m g).map (eval y u) = m.diff g y := by
  cases m with
  | euclidean n => exact map_eval_difference (k := 0) hg hy
  | rotation nv =>
    exact congrArg (_ :: ·) (map_eval_difference (hg.trans (Nat.add_comm 2 nv))
      (hy.trans (Nat.add_comm 2 nv)))

end Expr

/-- The rotation part of a point, if it has one, is not zero. -/
def Manifold.Nondegenerate : Manifold → Vec ℝ → Prop
  | euclidean _, _ => True
  | rotation _, y => y.coord 0 ≠ 0 ∨ y.coord 1 ≠ 0

def Rates.constant {α : Type} [Scalar α] (rate : Vec α) : Rates α where
  state i := some (.const (rate.coord i))
  control _ := none

namespace Expr

variable {m : Manifold} {x u : Vec ℝ} {es : List (Expr ℝ)}

theorem normSq_pos {y : Vec ℝ} {nv : ℕ} (h : (Manifold.rotation nv).Nondegenerate y) :
    0 < y.coord 0 * y.coord 0 + y.coord 1 * y.coord 1 := by
  apply (add_nonneg (mul_self_nonneg _) (mul_self_nonneg _)).lt_of_ne'
  intro hzero
  obtain ⟨hcos, hsin⟩ := mul_self_add_mul_self_eq_zero.mp hzero
  exact h.elim (fun h => h hcos) fun h => h hsin

theorem smoothAt_deviation {y : Vec ℝ} (hy : y.length = m.nx) (h : m.Nondegenerate y) :
    ∀ e ∈ deviation m y, e.SmoothAt y u := by
  cases m with
  | euclidean n =>
    intro e he
    obtain ⟨i, hi, rfl⟩ := List.mem_map.mp he
    exact ⟨(List.mem_range.mp hi).trans_eq hy.symm, trivial⟩
  | rotation nv =>
    have hlen : y.length = 2 + nv := hy
    have hcos : (state 0 : Expr ℝ).SmoothAt y u := show 0 < y.length by omega
    have hsin : (state 1 : Expr ℝ).SmoothAt y u := show 1 < y.length by omega
    refine List.forall_mem_cons.mpr ⟨⟨⟨⟨⟨trivial, hsin⟩, trivial, hcos⟩,
      ⟨trivial, hcos⟩, trivial, hsin⟩, .inl (normSq_pos h)⟩, fun e he => ?_⟩
    obtain ⟨i, hi, rfl⟩ := List.mem_map.mp he
    exact ⟨show i + 2 < y.length by have := List.mem_range.mp hi; omega, trivial⟩

theorem slope_state_constant {y rate : Vec ℝ} (i : ℕ) :
    slope y u ((state i).derivative (.constant rate)) = rate.coord i := rfl

theorem map_slope_difference {n k : ℕ} {g y rate : Vec ℝ} (hrate : rate.length = n + k) :
    ((List.range n).map fun i => sub (state (i + k)) (const (g.coord (i + k)))).map
      (fun e => slope y u (e.derivative (.constant rate))) = rate.drop k := by
  apply List.ext_getElem
  · simp [hrate]
  · intro i hi hi'
    have hrate_i : k + i < rate.length := by
      rw [hrate, Nat.add_comm k]
      simpa using hi
    rw [List.getElem_map, List.getElem_map, List.getElem_range, slope_derivative_sub,
      slope_state_constant, List.getElem_drop, Nat.add_comm i, Vec.coord_eq_getElem hrate_i]
    exact sub_zero _

/-- The deviation of a moving point from where it is changes at the rate that the model computes. -/
theorem map_slope_deviation {y rate : Vec ℝ} (hrate : rate.length = m.nx)
    (h : m.Nondegenerate y) :
    ((deviation m y).map fun e => slope y u (e.derivative (.constant rate))) =
      m.diffRate y rate := by
  cases m with
  | euclidean n => exact map_slope_difference (k := 0) hrate
  | rotation nv =>
    have hangle : slope y u ((atan2
        (sub (mul (const (y.coord 0)) (state 1)) (mul (const (y.coord 1)) (state 0)))
        (add (mul (const (y.coord 0)) (state 0)) (mul (const (y.coord 1)) (state 1)))).derivative
          (.constant rate)) =
        (y.coord 0 * rate.coord 1 - y.coord 1 * rate.coord 0) /
          (y.coord 0 * y.coord 0 + y.coord 1 * y.coord 1) := by
      have hpos := normSq_pos h
      have hconst (c : ℝ) : slope y u ((const c).derivative (.constant rate)) = 0 := rfl
      simp only [slope_derivative_atan2, slope_derivative_sub, slope_derivative_add,
        slope_derivative_mul, slope_state_constant, hconst, eval]
      rw [div_eq_div_iff
        (add_pos_of_pos_of_nonneg (mul_pos hpos hpos) (mul_self_nonneg _)).ne' hpos.ne']
      ring
    exact congrArg₂ List.cons hangle
      (map_slope_difference (k := 2) (hrate.trans (Nat.add_comm 2 nv)))

end Expr

namespace Dynamics

section Embedding

variable {α : Type}

def exprs : Dynamics α → List (Expr α)
  | entries es => es
  | tangent es => es

/-- The dynamics lead from states of one manifold to states of the next. -/
def Leads (state next : Manifold) : Dynamics α → Prop
  | entries es => es.length = next.nx
  | tangent es => es.length = state.ndx ∧ state.nx = next.nx

def value [Scalar α] (m : Manifold) (d : Dynamics α) (x u : Vec α) : Vec α :=
  match d with
  | entries es => es.map (Expr.eval x u)
  | tangent es => m.integrate x (es.map (Expr.eval x u))

end Embedding

/-- Smooth dynamics at a point, with a following state about which displacements are smooth. -/
structure SmoothAt (state next : Manifold) (x u : Vec ℝ) (d : Dynamics ℝ) : Prop where
  leads : d.Leads state next
  exprs : ∀ e ∈ d.exprs, e.SmoothAt x u
  nondegenerate : next.Nondegenerate (d.value state x u)

noncomputable def nearby {state : Manifold} {nu : ℕ} (x u : Vec ℝ) (d : Dynamics ℝ)
    (w : Increment state nu) : Vec ℝ :=
  d.value state (state.moved x w) (u.moved w)

/-- The tangent vector from the following state at a point to that at an increment. -/
noncomputable def displacement {state : Manifold} {nu : ℕ} (next : Manifold) (x u : Vec ℝ)
    (d : Dynamics ℝ) (w : Increment state nu) : Fin next.ndx → ℝ :=
  Vec.toFun next.ndx (next.diff (d.value state x u) (d.nearby x u w))

noncomputable def rates (state : Manifold) (x u : Vec ℝ) (d : Dynamics ℝ) (k : ℕ) : Vec ℝ :=
  (d.embedding state).map fun e => Expr.slope x u (e.derivative (.axis state k))

variable {state next : Manifold} {nu : ℕ} {x u : Vec ℝ} {d : Dynamics ℝ}

theorem map_eval_embedding (hx : x.length = state.nx) (hd : d.Leads state next) :
    (d.embedding state).map (Expr.eval x u) = d.value state x u := by
  cases d with
  | entries es => rfl
  | tangent es => exact Expr.map_eval_integrate hx hd.1

theorem length_embedding (hd : d.Leads state next) : (d.embedding state).length = next.nx := by
  cases d with
  | entries es => exact hd
  | tangent es => exact (Expr.length_integrate hd.1).trans hd.2

theorem length_value (hx : x.length = state.nx) (hd : d.Leads state next) :
    (d.value state x u).length = next.nx := by
  rw [← map_eval_embedding hx hd, List.length_map, length_embedding hd]

theorem SmoothAt.embedding (hx : x.length = state.nx) (h : d.SmoothAt state next x u) :
    ∀ e ∈ d.embedding state, e.SmoothAt x u := by
  cases d with
  | entries es => exact h.exprs
  | tangent es => exact Expr.SmoothAt.integrate hx h.leads.1 h.exprs

theorem length_nearby (hx : x.length = state.nx) (hd : d.Leads state next)
    (w : Increment state nu) : (d.nearby x u w).length = next.nx :=
  length_value (Manifold.length_moved hx w) hd

theorem nearby_zero (hx : x.length = state.nx) (hu : u.length = nu) :
    d.nearby x u (0 : Increment state nu) = d.value state x u := by
  rw [nearby, Manifold.moved_zero hx, Vec.moved_zero hu]

theorem coord_nearby (hx : x.length = state.nx) (hd : d.Leads state next) {i : ℕ}
    (hi : i < (d.embedding state).length) (w : Increment state nu) :
    (d.nearby x u w).coord i = (d.embedding state)[i].nearby x u w := by
  rw [nearby, ← map_eval_embedding (Manifold.length_moved hx w) hd,
    Vec.coord_eq_getElem (by simpa using hi), List.getElem_map]
  rfl

theorem coord_rates {i : ℕ} (hi : i < (d.embedding state).length) (k : ℕ) :
    (d.rates state x u k).coord i =
      Expr.slope x u ((d.embedding state)[i].derivative (.axis state k)) := by
  rw [rates, Vec.coord_eq_getElem (by simpa using hi), List.getElem_map]

/-- The expression of an entry of the displacement, in terms of the following state. -/
noncomputable def deviation (state next : Manifold) (x u : Vec ℝ) (d : Dynamics ℝ)
    (i : Fin next.ndx) : Expr ℝ :=
  (Expr.deviation next (d.value state x u)).get (i.cast (Expr.length_deviation next _).symm)

theorem displacement_apply (hx : x.length = state.nx) (hd : d.Leads state next)
    (w : Increment state nu) (i : Fin next.ndx) :
    d.displacement next x u w i = (d.deviation state next x u i).eval (d.nearby x u w) [] := by
  have hi : (i : ℕ) < (Expr.deviation next (d.value state x u)).length :=
    i.isLt.trans_eq (Expr.length_deviation next _).symm
  rw [displacement, ← Expr.map_eval_deviation (length_value hx hd) (length_nearby hx hd w) []]
  simp [deviation, hi]

theorem slope_deviation (h : d.SmoothAt state next x u) (i : Fin next.ndx) (k : ℕ) :
    Expr.slope (d.value state x u) []
      ((d.deviation state next x u i).derivative (.constant (d.rates state x u k))) =
        Vec.toFun next.ndx (next.diffRate (d.value state x u) (d.rates state x u k)) i := by
  have hrates : (d.rates state x u k).length = next.nx :=
    (List.length_map _).trans (length_embedding h.leads)
  have hi : (i : ℕ) < (Expr.deviation next (d.value state x u)).length :=
    i.isLt.trans_eq (Expr.length_deviation next _).symm
  rw [← Expr.map_slope_deviation (u := []) hrates h.nondegenerate]
  simp [deviation, hi]

theorem smoothAt_deviation (hx : x.length = state.nx) (h : d.SmoothAt state next x u)
    (i : Fin next.ndx) : (d.deviation state next x u i).SmoothAt (d.value state x u) [] :=
  Expr.smoothAt_deviation (length_value hx h.leads) h.nondegenerate _ (List.get_mem _ _)

section Smooth

variable (hx : x.length = state.nx) (hu : u.length = nu) (h : d.SmoothAt state next x u)
include hx hu h

theorem smoothFamily_nearby :
    SmoothFamily (fun w : Increment state nu => d.nearby x u w) (fun _ => []) 0 where
  length_state _ := by simp only [length_nearby hx h.leads]
  length_control _ := rfl
  state i hi := by
    rw [length_nearby hx h.leads, ← length_embedding h.leads] at hi
    simp only [coord_nearby hx h.leads hi]
    exact Expr.contDiffAt_nearby_zero hx hu (h.embedding hx _ (List.getElem_mem hi))
  control _ hj := absurd hj (Nat.not_lt_zero _)

theorem describes_nearby (k : ℕ) :
    (Rates.constant (d.rates state x u k)).Describes
      (fun t : ℝ => d.nearby x u (0 + t • Increment.unit state nu k)) (fun _ => []) 0 where
  state i hi := by
    rw [length_nearby hx h.leads, ← length_embedding h.leads] at hi
    have he := h.embedding hx _ (List.getElem_mem hi)
    simp only [coord_nearby hx h.leads hi]
    exact (Expr.hasLineDerivAt_axis_zero hx hu he k).congr_deriv (coord_rates hi k).symm
  control _ hj := absurd hj (Nat.not_lt_zero _)

theorem contDiffAt_displacement :
    ContDiffAt ℝ 2 (d.displacement next x u) (0 : Increment state nu) := by
  refine contDiffAt_pi.mpr fun i => ?_
  simp only [displacement_apply hx h.leads]
  apply (smoothFamily_nearby hx hu h).contDiffAt_eval
  rw [nearby_zero hx hu]
  exact smoothAt_deviation hx h i

/-- The displacement changes along a unit increment at the rate that the model computes. -/
theorem fderiv_displacement (k : ℕ) :
    fderiv ℝ (d.displacement next x u) (0 : Increment state nu) (.unit state nu k) =
      Vec.toFun next.ndx (next.diffRate (d.value state x u) (d.rates state x u k)) := by
  have hbase : d.nearby x u (0 + (0 : ℝ) • Increment.unit state nu k) = d.value state x u := by
    rw [zero_smul, add_zero, nearby_zero hx hu]
  have hline : HasLineDerivAt ℝ (d.displacement next x u)
      (Vec.toFun next.ndx (next.diffRate (d.value state x u) (d.rates state x u k)))
      (0 : Increment state nu) (.unit state nu k) := by
    refine hasDerivAt_pi.mpr fun i => ?_
    have hsmooth := smoothAt_deviation hx h i
    rw [← hbase] at hsmooth
    simp only [displacement_apply hx h.leads]
    refine (Expr.hasDerivAt_eval (describes_nearby hx hu h k) hsmooth).congr_deriv ?_
    rw [hbase]
    exact slope_deviation h i k
  have hdiff := (contDiffAt_displacement hx hu h).differentiableAt two_ne_zero
  rw [← hdiff.lineDeriv_eq_fderiv]
  exact hline.lineDeriv

end Smooth
end Dynamics
end Shooting
