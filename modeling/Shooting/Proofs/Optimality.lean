import Shooting.Proofs.System
import Shooting.Proofs.Evaluation

/-! # The optimality conditions, knot by knot

The blocks of the damped system are matrices over slots. Their rows, summed knot by knot, are the
optimality conditions of the linearized problem, and the rows of the constraint are independent
since every knot enters its own constraint through the identity.
-/

namespace Shooting

open Matrix Finset

variable {K : Type} [ExactScalar K]

theorem sum_knot (dims : List ℕ) (t : ℕ) (f : ℕ → ℕ → K) :
    ∑ s ∈ range dims.length, ∑ j ∈ range (dims.getD s 0), (if t = s then f s j else 0) =
      ∑ j ∈ range (dims.getD t 0), f t j := by
  have hinner (s : ℕ) : ∑ j ∈ range (dims.getD s 0), (if t = s then f s j else 0) =
      if t = s then ∑ j ∈ range (dims.getD s 0), f s j else 0 := by
    split <;> simp
  simp only [hinner, sum_ite_eq, mem_range]
  split
  · rfl
  · rename_i h
    rw [List.getD_eq_default _ _ (not_lt.mp h), range_zero, sum_empty]

theorem sum_entry {n i : ℕ} (hi : i < n) (f : ℕ → K) :
    ∑ j ∈ range n, (if i = j then f j else 0) = f i := by
  rw [sum_ite_eq, if_pos (mem_range.mpr hi)]

theorem sum_coupling {dims : List ℕ} {t i : ℕ} (hi : i < dims.getD t 0) (f g : ℕ → ℕ → K) :
    ∑ s ∈ range dims.length, ∑ j ∈ range (dims.getD s 0),
        (if t = s then if i = j then f s j else 0 else if t + 1 = s then g s j else 0) =
      f t i + ∑ j ∈ range (dims.getD (t + 1) 0), g (t + 1) j := by
  have hsplit (s j : ℕ) :
      (if t = s then if i = j then f s j else 0 else if t + 1 = s then g s j else 0) =
        (if t = s then if i = j then f s j else 0 else 0) + if t + 1 = s then g s j else 0 := by
    rcases eq_or_ne t s with rfl | h
    · simp
    · simp [h]
  simp only [hsplit, sum_add_distrib, sum_knot]
  rw [sum_entry hi]

namespace System

variable {l : Layout} {ks : Knots K} {gaps : List (Vec K)} {xr ur : K} {t i : ℕ}

theorem sum_dampedEntry {σ : Slot} (hσ : σ ∈ l.increments) (z : Slot → K) :
    (l.increments.map fun τ => dampedEntry ks xr ur σ τ * z τ).sum =
      (l.increments.map fun τ => matrixEntry ks σ τ * z τ).sum + σ.damping xr ur * z σ := by
  have hnodup : l.increments.Nodup := (List.nodup_append.mp l.nodup_slots).1
  have hdiag : (l.increments.map fun τ => (if σ = τ then σ.damping xr ur else 0) * z τ).sum =
      σ.damping xr ur * z σ := by
    rw [List.sum_map_eq_nsmul_single σ _ fun τ hne _ => by simp [hne.symm],
      List.count_eq_one_of_mem hnodup hσ, one_smul, if_pos rfl]
  rw [← hdiag, ← List.sum_map_add]
  simp only [dampedEntry, add_mul]

theorem dampedEntry_multiplier {σ : Slot} (hσ : σ ∈ l.multipliers) (τ : Slot) :
    dampedEntry ks xr ur σ τ = matrixEntry ks σ τ := by
  obtain ⟨t, i, -, -, rfl⟩ := Layout.mem_multipliers.mp hσ
  simp [dampedEntry, Slot.damping]

theorem sum_dampedEntry_column (σ : Slot) (z : Slot → K) :
    (l.multipliers.map fun τ => dampedEntry ks xr ur τ σ * z τ).sum =
      (l.multipliers.map fun τ => matrixEntry ks τ σ * z τ).sum :=
  congrArg List.sum (List.map_congr_left fun τ hτ => by rw [dampedEntry_multiplier hτ])

theorem sum_state_row (z : Slot → K) :
    (l.increments.map fun τ => matrixEntry ks (.state t i) τ * z τ).sum =
      ∑ j ∈ range (l.ndxs.getD t 0), (slopesAt ks t).lxx.entry i j * z (.state t j) +
        ∑ j ∈ range (l.nus.getD t 0), (slopesAt ks t).lxu.entry i j * z (.control t j) := by
  simp only [Layout.sum_increments, matrixEntry, ite_mul, zero_mul]
  rw [sum_knot _ t fun s j => (slopesAt ks t).lxx.entry i j * z (.state s j),
    sum_knot _ t fun s j => (slopesAt ks t).lxu.entry i j * z (.control s j)]

theorem sum_control_row (z : Slot → K) :
    (l.increments.map fun τ => matrixEntry ks (.control t i) τ * z τ).sum =
      ∑ j ∈ range (l.ndxs.getD t 0), (slopesAt ks t).lxu.entry j i * z (.state t j) +
        ∑ j ∈ range (l.nus.getD t 0), (slopesAt ks t).luu.entry i j * z (.control t j) := by
  simp only [Layout.sum_increments, matrixEntry, ite_mul, zero_mul]
  rw [sum_knot _ t fun s j => (slopesAt ks t).lxu.entry j i * z (.state s j),
    sum_knot _ t fun s j => (slopesAt ks t).luu.entry i j * z (.control s j)]

/-- The initial state has no knot before it. -/
theorem sum_costate_zero_row (hi : i < l.ndxs.getD 0 0) (z : Slot → K) :
    (l.increments.map fun τ => matrixEntry ks (.costate 0 i) τ * z τ).sum = z (.state 0 i) := by
  simp only [Layout.sum_increments, matrixEntry, matrixEntry.stateCoupling,
    matrixEntry.controlCoupling, ite_mul, one_mul, zero_mul, (Nat.succ_ne_zero _).symm, if_false,
    sum_const_zero, add_zero]
  rw [sum_knot _ 0 fun s j => if i = j then z (.state s j) else 0, sum_entry hi]

theorem sum_costate_succ_row (hi : i < l.ndxs.getD (t + 1) 0) (z : Slot → K) :
    (l.increments.map fun τ => matrixEntry ks (.costate (t + 1) i) τ * z τ).sum =
      z (.state (t + 1) i) -
        ∑ j ∈ range (l.ndxs.getD t 0), (slopesAt ks t).fx.entry i j * z (.state t j) -
        ∑ j ∈ range (l.nus.getD t 0), (slopesAt ks t).fu.entry i j * z (.control t j) := by
  have hstate (s j : ℕ) : matrixEntry.stateCoupling ks (t + 1) i s j * z (.state s j) =
      (if t + 1 = s then if i = j then z (.state s j) else 0 else 0) +
        if t = s then -((slopesAt ks s).fx.entry i j * z (.state s j)) else 0 := by
    rw [matrixEntry.stateCoupling]
    rcases eq_or_ne (t + 1) s with rfl | h
    · simp
    · simp [h]
  have hcontrol (s j : ℕ) : matrixEntry.controlCoupling ks (t + 1) i s j * z (.control s j) =
      if t = s then -((slopesAt ks s).fu.entry i j * z (.control s j)) else 0 := by
    simp [matrixEntry.controlCoupling]
  simp only [Layout.sum_increments, matrixEntry, hstate, hcontrol, sum_add_distrib, sum_knot]
  rw [sum_entry hi, sum_neg_distrib, sum_neg_distrib, ← sub_eq_add_neg, ← sub_eq_add_neg]

/-- The last state has no knot after it: there are no entries to sum then. -/
theorem sum_state_column (hi : i < l.ndxs.getD t 0) (z : Slot → K) :
    (l.multipliers.map fun τ => matrixEntry ks τ (.state t i) * z τ).sum =
      z (.costate t i) -
        ∑ j ∈ range (l.ndxs.getD (t + 1) 0),
          (slopesAt ks t).fx.entry j i * z (.costate (t + 1) j) := by
  have hterm (s j : ℕ) : matrixEntry.stateCoupling ks s j t i * z (.costate s j) =
      if t = s then if i = j then z (.costate s j) else 0
      else if t + 1 = s then -((slopesAt ks t).fx.entry j i * z (.costate s j)) else 0 := by
    simp only [matrixEntry.stateCoupling, eq_comm (a := s), eq_comm (a := j)]
    split <;> split <;> simp
  simp only [Layout.sum_multipliers, matrixEntry, hterm]
  rw [sum_coupling hi (fun s j => z (.costate s j))
    fun s j => -((slopesAt ks t).fx.entry j i * z (.costate s j)), sum_neg_distrib, ← sub_eq_add_neg]

theorem sum_control_column (z : Slot → K) :
    (l.multipliers.map fun τ => matrixEntry ks τ (.control t i) * z τ).sum =
      -∑ j ∈ range (l.ndxs.getD (t + 1) 0),
        (slopesAt ks t).fu.entry j i * z (.costate (t + 1) j) := by
  have hterm (s j : ℕ) : matrixEntry.controlCoupling ks s j t i * z (.costate s j) =
      if t + 1 = s then -((slopesAt ks t).fu.entry j i * z (.costate s j)) else 0 := by
    simp only [matrixEntry.controlCoupling, eq_comm (a := s)]
    split <;> simp
  simp only [Layout.sum_multipliers, matrixEntry, hterm]
  rw [sum_knot _ (t + 1) fun s j => -((slopesAt ks t).fu.entry j i * z (.costate s j)),
    sum_neg_distrib]

def hessian (l : Layout) (s : System K) : Matrix (Fin l.nprimal) (Fin l.nprimal) K :=
  Mat.toMatrix _ _ s.matrix

def constraint (l : Layout) (s : System K) : Matrix (Fin l.ndx) (Fin l.nprimal) K :=
  .of fun i j => s.matrix.entry (l.nprimal + i) j

def gradient (l : Layout) (s : System K) : Fin l.nprimal → K := Vec.toFun _ s.residual

def violation (l : Layout) (s : System K) : Fin l.ndx → K := Vec.toFun _ (s.residual.drop l.nprimal)

section Blocks

variable {f : Slot → Slot → K} {s : System K}

theorem entry_slots (hs : s.matrix = Mat.grid l.slots l.slots f) {i j : ℕ} (hi : i < l.slots.length)
    (hj : j < l.increments.length) : s.matrix.entry i j = f l.slots[i] l.increments[j] := by
  have hj' : j < l.slots.length := by
    have := l.length_slots
    simp only [Layout.length_increments] at hj
    omega
  rw [hs, Mat.entry_grid f hi hj']
  simp only [Layout.slots_eq, List.getElem_append_left hj]

theorem hessian_eq (hs : s.matrix = Mat.grid l.slots l.slots f) :
    s.hessian l = Mat.toMatrix _ _ (Mat.grid l.increments l.increments f) := by
  have hlen := l.length_slots
  ext i j
  have hi : (i : ℕ) < l.increments.length := by simp
  have hj : (j : ℕ) < l.increments.length := by simp
  rw [hessian, Mat.toMatrix_apply, Mat.toMatrix_apply, entry_slots hs (by omega) hj,
    Mat.entry_grid f hi hj]
  simp only [Layout.slots_eq, List.getElem_append_left hi]

theorem constraint_eq (hs : s.matrix = Mat.grid l.slots l.slots f) :
    s.constraint l = Mat.toMatrix _ _ (Mat.grid l.multipliers l.increments f) := by
  have hlen := l.length_slots
  ext i j
  have hi : (i : ℕ) < l.multipliers.length := by simp
  have hj : (j : ℕ) < l.increments.length := by simp
  rw [constraint, of_apply, Mat.toMatrix_apply, entry_slots hs (by omega) hj,
    Mat.entry_grid f hi hj]
  congr 1
  simp [Layout.slots_eq]

/-- Of a symmetric matrix the lower triangle tells everything. -/
theorem lower_eq_hessian (hs : s.matrix = Mat.grid l.slots l.slots f)
    (hf : ∀ σ ∈ l.increments, ∀ τ ∈ l.increments, f σ τ = f τ σ) :
    Mat.lower l.nprimal s.matrix = s.hessian l := by
  have hlen := l.length_slots
  apply Mat.lower_eq_toMatrix
  intro i hi j hj
  have hi' : i < l.increments.length := by simpa
  have hj' : j < l.increments.length := by simpa
  rw [entry_slots hs (by omega) hj', entry_slots hs (by omega) hi']
  simp only [Layout.slots_eq, List.getElem_append_left hi', List.getElem_append_left hj']
  exact hf _ (List.getElem_mem hi') _ (List.getElem_mem hj')

theorem gradient_eq {r : Slot → K} (hr : s.residual = l.increments.map r ++ l.multipliers.map r) :
    s.gradient l = Vec.toFun _ (l.increments.map r) := by
  funext i
  have hi : (i : ℕ) < (l.increments.map r).length := by simp
  simp [gradient, hr, List.getElem?_append_left hi]

theorem violation_eq {r : Slot → K} (hr : s.residual = l.increments.map r ++ l.multipliers.map r) :
    s.violation l = Vec.toFun _ (l.multipliers.map r) := by
  rw [violation, hr, List.drop_left' (by simp)]

theorem constraint_mulVec_iff {r z : Slot → K} (hs : s.matrix = Mat.grid l.slots l.slots f)
    (hr : s.residual = l.increments.map r ++ l.multipliers.map r) :
    s.constraint l *ᵥ Vec.toFun _ (l.increments.map z) = -s.violation l ↔
      ∀ σ ∈ l.multipliers, (l.increments.map fun τ => f σ τ * z τ).sum = -r σ := by
  rw [constraint_eq hs, violation_eq hr, Mat.grid_mulVec l.length_increments, Vec.neg_toFun_map,
    Vec.toFun_map_eq_iff l.length_multipliers]

/-- The optimality conditions as equations over slots. -/
theorem stationary_iff {r z : Slot → K} (hs : s.matrix = Mat.grid l.slots l.slots f)
    (hr : s.residual = l.increments.map r ++ l.multipliers.map r) :
    Stationary (s.hessian l) (s.constraint l) (s.gradient l) (s.violation l)
        (Vec.toFun _ (l.increments.map z)) (Vec.toFun _ (l.multipliers.map z)) ↔
      (∀ σ ∈ l.increments, (l.increments.map fun τ => f σ τ * z τ).sum +
        (l.multipliers.map fun τ => f τ σ * z τ).sum = -r σ) ∧
      ∀ σ ∈ l.multipliers, (l.increments.map fun τ => f σ τ * z τ).sum = -r σ := by
  have hg : s.hessian l *ᵥ Vec.toFun _ (l.increments.map z) +
      (s.constraint l)ᵀ *ᵥ Vec.toFun _ (l.multipliers.map z) = -s.gradient l ↔
        ∀ σ ∈ l.increments, (l.increments.map fun τ => f σ τ * z τ).sum +
          (l.multipliers.map fun τ => f τ σ * z τ).sum = -r σ := by
    rw [hessian_eq hs, constraint_eq hs, gradient_eq hr, Mat.grid_mulVec l.length_increments,
      Mat.grid_transpose l.length_multipliers l.length_increments,
      Mat.grid_mulVec l.length_multipliers, Vec.toFun_map_add, Vec.neg_toFun_map,
      Vec.toFun_map_eq_iff l.length_increments]
  have hc := s.constraint_mulVec_iff (z := z) hs hr
  constructor
  · rintro ⟨h₁, h₂⟩
    exact ⟨hg.mp h₁, hc.mp h₂⟩
  · rintro ⟨h₁, h₂⟩
    exact ⟨hg.mpr h₁, hc.mpr h₂⟩

/-- Whatever the Jacobians are, the rows of the constraint are independent: the multiplier of a knot
is what the dynamics carry back from the next one, and nothing comes back to the last. -/
theorem independentRows_constraint
    (hs : s.matrix = Mat.grid l.slots l.slots (dampedEntry ks xr ur)) :
    IndependentRows (s.constraint l) := by
  intro y hy
  obtain ⟨z, rfl⟩ : ∃ z, y = Vec.toFun _ (l.multipliers.map z) := by
    have hlen : (List.ofFn y).length = l.ndx := by simp
    exact ⟨_, by rw [Layout.map_value_multipliers hlen [] [], Vec.toFun_ofFn]⟩
  have hzero {n : ℕ} (σs : List Slot) : (0 : Fin n → K) = Vec.toFun n (σs.map fun _ => 0) := by
    funext i
    rcases lt_or_ge (i : ℕ) σs.length with h | h <;> simp [h]
  have hcol : ∀ σ ∈ l.increments,
      (l.multipliers.map fun τ => matrixEntry ks τ σ * z τ).sum = 0 := by
    rw [constraint_eq hs, Mat.grid_transpose l.length_multipliers l.length_increments,
      Mat.grid_mulVec l.length_multipliers, hzero l.increments,
      Vec.toFun_map_eq_iff l.length_increments] at hy
    intro σ hσ
    rw [← hy σ hσ, sum_dampedEntry_column]
  -- Induction on the distance to the end: past the last knot there is no multiplier.
  have hback : ∀ k t, l.ndxs.length ≤ t + k → ∀ i < l.ndxs.getD t 0, z (.costate t i) = 0 := by
    intro k
    induction k with
    | zero =>
      intro t ht i hi
      rw [List.getD_eq_default l.ndxs 0 (n := t) ht] at hi
      exact absurd hi (Nat.not_lt_zero i)
    | succ k ih =>
      intro t ht i hi
      rcases lt_or_ge t l.ndxs.length with htl | htl
      · have hσ : Slot.state t i ∈ l.increments :=
          Layout.mem_increments.mpr (.inl ⟨t, i, htl, hi, rfl⟩)
        have hnext : ∑ j ∈ range (l.ndxs.getD (t + 1) 0),
            (slopesAt ks t).fx.entry j i * z (.costate (t + 1) j) = 0 :=
          sum_eq_zero fun j hj => by rw [ih (t + 1) (by omega) j (mem_range.mp hj), mul_zero]
        have := hcol _ hσ
        rwa [sum_state_column hi, hnext, sub_zero] at this
      · rw [List.getD_eq_default _ _ htl] at hi
        exact absurd hi (Nat.not_lt_zero i)
  rw [hzero l.multipliers, Vec.toFun_map_eq_iff l.length_multipliers]
  intro σ hσ
  obtain ⟨t, i, -, hi, rfl⟩ := Layout.mem_multipliers.mp hσ
  exact hback l.ndxs.length t (by omega) i hi

end Blocks

section Damped

variable (l : Layout) (ks : Knots K) (gaps : List (Vec K)) (xreg ureg : Weight K)

theorem matrix_assemble :
    (assemble l ks gaps).matrix = Mat.grid l.slots l.slots (matrixEntry ks) := rfl

theorem residual_assemble : (assemble l ks gaps).residual =
    l.increments.map (residualEntry ks gaps) ++ l.multipliers.map (residualEntry ks gaps) := by
  rw [← List.map_append, ← Layout.slots_eq]
  rfl

theorem gradient_damp :
    ((assemble l ks gaps).damp l.ndx xreg ureg).gradient l = (assemble l ks gaps).gradient l := rfl

theorem violation_damp :
    ((assemble l ks gaps).damp l.ndx xreg ureg).violation l =
      (assemble l ks gaps).violation l := rfl

theorem constraint_damp :
    ((assemble l ks gaps).damp l.ndx xreg ureg).constraint l =
      (assemble l ks gaps).constraint l := by
  have hgrid : Mat.grid l.multipliers l.increments (dampedEntry ks xreg.addend ureg.addend) =
      Mat.grid l.multipliers l.increments (matrixEntry ks) :=
    List.map_congr_left fun σ hσ => List.map_congr_left fun τ _ => dampedEntry_multiplier hσ τ
  rw [constraint_eq (matrix_damp_assemble xreg ureg), constraint_eq (matrix_assemble l ks gaps),
    hgrid]

variable {xreg ureg}

theorem hessian_damp {a : K} (hx : xreg.addend = a) (hu : ureg.addend = a) :
    ((assemble l ks gaps).damp l.ndx xreg ureg).hessian l =
      (assemble l ks gaps).hessian l + a • 1 := by
  have hnodup : l.increments.Nodup := (List.nodup_append.mp (l.slots_eq ▸ l.nodup_slots)).1
  ext i j
  have hi : (i : ℕ) < l.increments.length := by simp
  have hj : (j : ℕ) < l.increments.length := by simp
  have hdamp : (l.increments[(i : ℕ)]).damping a a = a := by
    rcases Layout.mem_increments.mp (List.getElem_mem hi) with ⟨t, k, -, -, h⟩ | ⟨t, k, -, -, h⟩ <;>
      rw [h] <;> rfl
  have hid : (a • (1 : Matrix (Fin l.nprimal) (Fin l.nprimal) K)) i j =
      if l.increments[(i : ℕ)] = l.increments[(j : ℕ)] then a else 0 := by
    rw [Matrix.smul_apply, one_apply, smul_eq_mul, mul_ite, mul_one, mul_zero]
    simp only [hnodup.getElem_inj_iff, Fin.ext_iff]
  rw [hessian_eq (matrix_damp_assemble xreg ureg), hessian_eq (matrix_assemble l ks gaps), hx, hu,
    Matrix.add_apply, hid, Mat.toMatrix_apply, Mat.toMatrix_apply, Mat.entry_grid _ hi hj,
    Mat.entry_grid _ hi hj, dampedEntry, hdamp]

theorem hessian_damp_zero (hx : xreg.addend = 0) (hu : ureg.addend = 0) :
    ((assemble l ks gaps).damp l.ndx xreg ureg).hessian l = (assemble l ks gaps).hessian l := by
  rw [hessian_damp l ks gaps hx hu, zero_smul, add_zero]

/-- Damping with weights that are not negative keeps the Hessian positive definite. -/
theorem positiveDefinite_damp (hx : 0 ≤ xreg.addend) (hu : 0 ≤ ureg.addend)
    (h : PositiveDefinite ((assemble l ks gaps).hessian l)) :
    PositiveDefinite (((assemble l ks gaps).damp l.ndx xreg ureg).hessian l) := by
  intro v hv
  obtain ⟨z, rfl⟩ : ∃ z, v = Vec.toFun _ (l.increments.map z) := by
    have hlen : (List.ofFn v).length = l.nprimal := List.length_ofFn
    exact ⟨_, by rw [Layout.map_value_increments hlen [], Vec.toFun_ofFn]⟩
  have hpos := h _ hv
  rw [hessian_eq (matrix_assemble l ks gaps), Mat.grid_mulVec l.length_increments,
    Vec.dotProduct_map l.length_increments] at hpos
  have hdamp : 0 ≤ (l.increments.map fun σ =>
      z σ * (σ.damping xreg.addend ureg.addend * z σ)).sum := by
    apply List.sum_nonneg
    intro a ha
    obtain ⟨σ, -, rfl⟩ := List.mem_map.mp ha
    have hd : 0 ≤ σ.damping xreg.addend ureg.addend := by
      cases σ with
      | state t i => exact hx
      | control t i => exact hu
      | costate t i => exact le_rfl
    rw [mul_left_comm]
    exact mul_nonneg hd (mul_self_nonneg _)
  have hrow : (l.increments.map fun σ => z σ * (l.increments.map fun τ =>
      dampedEntry ks xreg.addend ureg.addend σ τ * z τ).sum) =
      l.increments.map fun σ => z σ * (l.increments.map fun τ => matrixEntry ks σ τ * z τ).sum +
        z σ * (σ.damping xreg.addend ureg.addend * z σ) :=
    List.map_congr_left fun σ hσ => by rw [sum_dampedEntry hσ, mul_add]
  rw [hessian_eq (matrix_damp_assemble xreg ureg), Mat.grid_mulVec l.length_increments,
    Vec.dotProduct_map l.length_increments, hrow, List.sum_map_add]
  exact add_pos_of_pos_of_nonneg hpos hdamp

end Damped

end System

namespace Layout

def ndxAt (l : Layout) (t : ℕ) : ℕ := l.ndxs.getD t 0

def nuAt (l : Layout) (t : ℕ) : ℕ := l.nus.getD t 0

def stateAt (l : Layout) (vs : List (Vec K)) (t : ℕ) : Fin (l.ndxAt t) → K :=
  Vec.toFun _ (vs.getD t [])

def controlAt (l : Layout) (vs : List (Vec K)) (t : ℕ) : Fin (l.nuAt t) → K :=
  Vec.toFun _ (vs.getD t [])

end Layout

namespace Knots

variable (ks : Knots K) (l : Layout) (t : ℕ)

def lx : Fin (l.ndxAt t) → K := Vec.toFun _ (System.slopesAt ks t).lx

def lu : Fin (l.nuAt t) → K := Vec.toFun _ (System.slopesAt ks t).lu

def lxx : Matrix (Fin (l.ndxAt t)) (Fin (l.ndxAt t)) K :=
  Mat.toMatrix _ _ (System.slopesAt ks t).lxx

def lxu : Matrix (Fin (l.ndxAt t)) (Fin (l.nuAt t)) K := Mat.toMatrix _ _ (System.slopesAt ks t).lxu

def luu : Matrix (Fin (l.nuAt t)) (Fin (l.nuAt t)) K := Mat.toMatrix _ _ (System.slopesAt ks t).luu

def fx : Matrix (Fin (l.ndxAt (t + 1))) (Fin (l.ndxAt t)) K :=
  Mat.toMatrix _ _ (System.slopesAt ks t).fx

def fu : Matrix (Fin (l.ndxAt (t + 1))) (Fin (l.nuAt t)) K :=
  Mat.toMatrix _ _ (System.slopesAt ks t).fu

end Knots

abbrev Problem.layout (p : Problem K) : Layout := .ofProblem p

/-- The optimality conditions of a problem linearized along given states, with damped Hessians. -/
structure KnotConditions (p : Problem K) (xs : List (Vec K)) (ks : Knots K) (xr ur : K)
    (dxs dus lambdas : List (Vec K)) : Prop where
  state : ∀ t < p.horizon,
    (ks.lxx p.layout t + xr • 1) *ᵥ p.layout.stateAt dxs t +
        ks.lxu p.layout t *ᵥ p.layout.controlAt dus t + p.layout.stateAt lambdas t -
        (ks.fx p.layout t)ᵀ *ᵥ p.layout.stateAt lambdas (t + 1) =
      -ks.lx p.layout t
  control : ∀ t < p.horizon,
    (ks.lxu p.layout t)ᵀ *ᵥ p.layout.stateAt dxs t +
        (ks.luu p.layout t + ur • 1) *ᵥ p.layout.controlAt dus t -
        (ks.fu p.layout t)ᵀ *ᵥ p.layout.stateAt lambdas (t + 1) =
      -ks.lu p.layout t
  terminal :
    (ks.lxx p.layout p.horizon + xr • 1) *ᵥ p.layout.stateAt dxs p.horizon +
        p.layout.stateAt lambdas p.horizon =
      -ks.lx p.layout p.horizon
  initial : ∀ m, p.running[0]? = some m →
    p.layout.stateAt dxs 0 = -Vec.toFun _ (m.state.diff p.x0 (xs.getD 0 []))
  dynamics : ∀ t m k, p.running[t]? = some m → ks.running[t]? = some k →
    p.layout.stateAt dxs (t + 1) - ks.fx p.layout t *ᵥ p.layout.stateAt dxs t -
        ks.fu p.layout t *ᵥ p.layout.controlAt dus t =
      -Vec.toFun _ (m.next.diff k.xnext (xs.getD (t + 1) []))

section Knotwise

variable {l : Layout} {ks : Knots K} {gaps dxs dus lambdas : List (Vec K)} {xr ur : K} {t : ℕ}

def SlotConditions (l : Layout) (ks : Knots K) (gaps : List (Vec K)) (xr ur : K) (z : Slot → K) :
    Prop :=
  (∀ σ ∈ l.increments, (l.increments.map fun τ => System.dampedEntry ks xr ur σ τ * z τ).sum +
    (l.multipliers.map fun τ => System.dampedEntry ks xr ur τ σ * z τ).sum =
      -System.residualEntry ks gaps σ) ∧
  ∀ σ ∈ l.multipliers, (l.increments.map fun τ => System.dampedEntry ks xr ur σ τ * z τ).sum =
    -System.residualEntry ks gaps σ

/-- The row of a state. Past the last knot nothing is left to sum. -/
theorem SlotConditions.state_row (h : SlotConditions l ks gaps xr ur (Slot.value dxs dus lambdas))
    (ht : t < l.ndxs.length) :
    (ks.lxx l t + xr • 1) *ᵥ l.stateAt dxs t + ks.lxu l t *ᵥ l.controlAt dus t +
      l.stateAt lambdas t - (ks.fx l t)ᵀ *ᵥ l.stateAt lambdas (t + 1) = -ks.lx l t := by
  funext i
  have hσ : Slot.state t i ∈ l.increments :=
    Layout.mem_increments.mpr (.inl ⟨t, i, ht, i.isLt, rfl⟩)
  have hsum := h.1 _ hσ
  rw [System.sum_dampedEntry hσ, System.sum_state_row, System.sum_dampedEntry_column,
    System.sum_state_column i.isLt] at hsum
  simp only [sum_range] at hsum
  have hrow : (ks.lxx l t *ᵥ l.stateAt dxs t) i + (ks.lxu l t *ᵥ l.controlAt dus t) i +
      xr * l.stateAt dxs t i +
        (l.stateAt lambdas t i - ((ks.fx l t)ᵀ *ᵥ l.stateAt lambdas (t + 1)) i) =
      -ks.lx l t i := hsum
  rw [add_mulVec, smul_mulVec, one_mulVec]
  simp only [Pi.add_apply, Pi.sub_apply, Pi.smul_apply, Pi.neg_apply, smul_eq_mul]
  linear_combination hrow

theorem SlotConditions.control_row
    (h : SlotConditions l ks gaps xr ur (Slot.value dxs dus lambdas)) (ht : t < l.horizon) :
    (ks.lxu l t)ᵀ *ᵥ l.stateAt dxs t + (ks.luu l t + ur • 1) *ᵥ l.controlAt dus t -
      (ks.fu l t)ᵀ *ᵥ l.stateAt lambdas (t + 1) = -ks.lu l t := by
  funext i
  have hσ : Slot.control t i ∈ l.increments :=
    Layout.mem_increments.mpr (.inr ⟨t, i, ht, i.isLt, rfl⟩)
  have hsum := h.1 _ hσ
  rw [System.sum_dampedEntry hσ, System.sum_control_row, System.sum_dampedEntry_column,
    System.sum_control_column] at hsum
  simp only [sum_range] at hsum
  have hrow : ((ks.lxu l t)ᵀ *ᵥ l.stateAt dxs t) i + (ks.luu l t *ᵥ l.controlAt dus t) i +
      ur * l.controlAt dus t i + -((ks.fu l t)ᵀ *ᵥ l.stateAt lambdas (t + 1)) i =
      -ks.lu l t i := hsum
  rw [add_mulVec, smul_mulVec, one_mulVec]
  simp only [Pi.add_apply, Pi.sub_apply, Pi.smul_apply, Pi.neg_apply, smul_eq_mul]
  linear_combination hrow

theorem initial_row (h : ∀ σ ∈ l.multipliers, (l.increments.map fun τ =>
      System.dampedEntry ks xr ur σ τ * Slot.value dxs dus lambdas τ).sum =
        -System.residualEntry ks gaps σ) (hl : 0 < l.ndxs.length) :
    l.stateAt dxs 0 = -l.stateAt gaps 0 := by
  funext i
  have hσ : Slot.costate 0 i ∈ l.multipliers := Layout.mem_multipliers.mpr ⟨0, i, hl, i.isLt, rfl⟩
  have hsum := h _ hσ
  simp only [System.dampedEntry_multiplier hσ] at hsum
  rwa [System.sum_costate_zero_row i.isLt] at hsum

theorem dynamics_row (h : ∀ σ ∈ l.multipliers, (l.increments.map fun τ =>
      System.dampedEntry ks xr ur σ τ * Slot.value dxs dus lambdas τ).sum =
        -System.residualEntry ks gaps σ) (ht : t + 1 < l.ndxs.length) :
    l.stateAt dxs (t + 1) - ks.fx l t *ᵥ l.stateAt dxs t - ks.fu l t *ᵥ l.controlAt dus t =
      -l.stateAt gaps (t + 1) := by
  funext i
  have hσ : Slot.costate (t + 1) i ∈ l.multipliers :=
    Layout.mem_multipliers.mpr ⟨t + 1, i, ht, i.isLt, rfl⟩
  have hsum := h _ hσ
  simp only [System.dampedEntry_multiplier hσ] at hsum
  rw [System.sum_costate_succ_row i.isLt] at hsum
  simp only [sum_range] at hsum
  exact hsum

theorem SlotConditions.terminal_row
    (h : SlotConditions l ks gaps xr ur (Slot.value dxs dus lambdas))
    (hl : l.ndxs.length = l.horizon + 1) :
    (ks.lxx l l.horizon + xr • 1) *ᵥ l.stateAt dxs l.horizon + l.stateAt lambdas l.horizon =
      -ks.lx l l.horizon := by
  have hrow := h.state_row (t := l.horizon) (by omega)
  have hu : IsEmpty (Fin (l.nuAt l.horizon)) := by
    rw [Layout.nuAt, Layout.horizon, List.getD_eq_default _ _ le_rfl]
    infer_instance
  have hx : IsEmpty (Fin (l.ndxAt (l.horizon + 1))) := by
    rw [Layout.ndxAt, ← hl, List.getD_eq_default _ _ le_rfl]
    infer_instance
  have hlxu : ks.lxu l l.horizon *ᵥ l.controlAt dus l.horizon = 0 := by
    funext i
    simp [mulVec, dotProduct]
  have hfx : (ks.fx l l.horizon)ᵀ *ᵥ l.stateAt lambdas (l.horizon + 1) = 0 := by
    funext i
    simp [mulVec, dotProduct]
  rwa [hlxu, hfx, add_zero, sub_zero] at hrow

end Knotwise

theorem SlotConditions.knotConditions {p : Problem K} {ks : Knots K}
    {xs us dxs dus lambdas : List (Vec K)} {xr ur : K} (hf : p.Fits ks xs us)
    (h : SlotConditions p.layout ks (p.gaps ks xs) xr ur (Slot.value dxs dus lambdas)) :
    KnotConditions p xs ks xr ur dxs dus lambdas := by
  have hT : p.layout.horizon = p.horizon := Layout.length_nus p
  have hl : p.layout.ndxs.length = p.layout.horizon + 1 := Layout.length_ndxs_eq p
  constructor
  · intro t ht
    exact h.state_row (by omega)
  · intro t ht
    exact h.control_row (by omega)
  · exact hT ▸ h.terminal_row hl
  · intro m hm
    rw [initial_row h.2 (by omega), ← hf.gaps_zero hm]
    rfl
  · intro t m k hm hk
    have ht : t < p.horizon := (List.getElem?_eq_some_iff.mp hm).1
    rw [dynamics_row h.2 (by omega), ← hf.gaps_succ hm hk]
    rfl

end Shooting
