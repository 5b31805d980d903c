import Shooting.Proofs.Layout
import Shooting.Proofs.RangeSpace
import Shooting.System

/-! # The optimality system over slots

The damped system of a linearized problem as a matrix over slots, and what its blocks do to a vector
of increments or multipliers: the rows of the optimality conditions, knot by knot.
-/

namespace Shooting

open Matrix

section Scalar

variable {α : Type} [Scalar α]

def Slot.damp (xreg ureg : Weight α) (h : α) : Slot → α
  | .state _ _ => h + xreg.addend
  | .control _ _ => h + ureg.addend
  | .costate _ _ => h

namespace System

/-- The entries of a matrix under weights: only the diagonal has changed, and there only the rows of
the increments. -/
def weightedEntry (xreg ureg : Weight α) (f : Slot → Slot → α) (σ τ : Slot) : α :=
  if σ = τ then σ.damp xreg ureg (f σ σ) else f σ τ

variable {l : Layout} {s : System α} {f : Slot → Slot → α}

theorem diagonal_grid (f : Slot → Slot → α) :
    Mat.diagonal (Mat.grid l.slots l.slots f) l.nprimal = l.increments.map fun σ => f σ σ := by
  have hlen := l.length_slots
  apply List.ext_getElem (by simp [Mat.diagonal])
  intro i hi hi'
  have hi'' : i < l.increments.length := by simpa using hi'
  have hs : i < l.slots.length := by
    rw [l.length_increments] at hi''
    omega
  have hσ : l.slots[i] = l.increments[i] := by
    simp only [Layout.slots_eq, List.getElem_append_left hi'']
  simp only [Mat.diagonal, List.getElem_map, List.getElem_range, Mat.entry_grid f hs hs, hσ]

theorem damp_getElem (xreg ureg : Weight α) (h : α) {i : ℕ} (hi : i < l.increments.length) :
    (l.increments[i]).damp xreg ureg h = h + (if i < l.ndx then xreg else ureg).addend := by
  rcases lt_or_ge i l.ndx with hlt | hge
  · have hlt' : i < total l.ndxs := hlt
    simp [Layout.increments, Slot.damp, hlt, hlt']
  · have hge' : ¬ i < total l.ndxs := not_lt.mpr hge
    simp [Layout.increments, List.getElem_append, Slot.damp, hge', Layout.ndx]

theorem dampedDiagonal_map (h : Slot → α) (xreg ureg : Weight α) :
    dampedDiagonal l.ndx (l.increments.map h) xreg ureg =
      l.increments.map fun σ => σ.damp xreg ureg (h σ) := by
  apply List.ext_getElem (by simp [dampedDiagonal])
  intro i hi hi'
  have hinc : i < l.increments.length := by simpa using hi'
  simp only [dampedDiagonal, List.getElem_mapIdx, List.getElem_map, damp_getElem _ _ _ hinc]

theorem matrix_damp (hM : s.matrix = Mat.grid l.slots l.slots f)
    (hd : s.diagonal = l.increments.map fun σ => f σ σ) (xreg ureg : Weight α) :
    (s.damp l.ndx xreg ureg).matrix = Mat.grid l.slots l.slots (weightedEntry xreg ureg f) := by
  change Mat.setDiagonal s.matrix (dampedDiagonal l.ndx s.diagonal xreg ureg) = _
  rw [hM, hd, dampedDiagonal_map]
  apply List.ext_getElem (by simp [Mat.grid])
  intro i hi hi'
  have hs : i < l.slots.length := by simpa [Mat.grid] using hi'
  simp only [Mat.setDiagonal, Mat.grid, List.getElem_mapIdx, List.getElem_map, List.getElem?_map]
  rcases lt_or_ge i l.increments.length with h | h
  · have hσ : l.slots[i] = l.increments[i] := by
      simp only [Layout.slots_eq, List.getElem_append_left h]
    rw [List.getElem?_eq_getElem h, Option.map_some]
    apply List.ext_getElem (by simp)
    intro j hj hj'
    have hs' : j < l.slots.length := by simpa using hj'
    rw [List.getElem_set, List.getElem_map, List.getElem_map, weightedEntry]
    rcases eq_or_ne i j with rfl | hij
    · rw [if_pos rfl, if_pos rfl, hσ]
    · have hne : l.slots[i] ≠ l.slots[j] :=
        fun h => hij ((List.Nodup.getElem_inj_iff l.nodup_slots).mp h)
      rw [if_neg hij, if_neg hne]
  · rw [List.getElem?_eq_none h, Option.map_none]
    have hσ : l.slots[i] ∈ l.multipliers := by
      simp only [Layout.slots_eq, List.getElem_append_right h, List.getElem_mem]
    obtain ⟨t, k, -, -, hσ⟩ := Layout.mem_multipliers.mp hσ
    apply List.map_congr_left
    intro τ _
    rw [hσ, weightedEntry]
    split
    · rename_i hτ
      rw [← hτ, Slot.damp]
    · rfl

variable {ks : Knots α} {gaps : List (Vec α)}

theorem assemble_diagonal : (assemble l ks gaps).diagonal =
    l.increments.map fun σ => matrixEntry ks σ σ := diagonal_grid _

theorem entry_damp_assemble (xreg ureg : Weight α) {i : ℕ} (hi : i < l.nprimal) :
    ((assemble l ks gaps).damp l.ndx xreg ureg).matrix.entry i i =
      (assemble l ks gaps).matrix.entry i i + (if i < l.ndx then xreg else ureg).addend := by
  have hinc : i < l.increments.length := l.length_increments.symm ▸ hi
  have hs : i < l.slots.length := by
    rw [l.length_slots]
    omega
  have hσ : l.slots[i] = l.increments[i] := by
    simp only [Layout.slots_eq, List.getElem_append_left hinc]
  have hA : (assemble l ks gaps).matrix.entry i i = matrixEntry ks l.slots[i] l.slots[i] :=
    Mat.entry_grid _ hs hs
  rw [matrix_damp rfl assemble_diagonal, Mat.entry_grid _ hs hs, hA, weightedEntry, if_pos rfl, hσ,
    damp_getElem]

end System
end Scalar

variable {K : Type} [ExactScalar K]

def Slot.damping (xr ur : K) : Slot → K
  | .state _ _ => xr
  | .control _ _ => ur
  | .costate _ _ => 0

namespace System

/-- An entry of the damped matrix. -/
def dampedEntry (ks : Knots K) (xr ur : K) (σ τ : Slot) : K :=
  matrixEntry ks σ τ + if σ = τ then σ.damping xr ur else 0

variable {l : Layout} {ks : Knots K} {gaps : List (Vec K)}

theorem matrix_damp_assemble (xr ur : Weight K) :
    ((assemble l ks gaps).damp l.ndx xr ur).matrix =
      Mat.grid l.slots l.slots (dampedEntry ks xr.addend ur.addend) := by
  rw [matrix_damp rfl assemble_diagonal]
  congr 1
  funext σ τ
  rw [dampedEntry, weightedEntry]
  split
  · rename_i hστ
    cases hστ
    cases σ <;> simp [Slot.damp, Slot.damping]
  · rw [add_zero]

theorem residual_damp_assemble (xr ur : Weight K) :
    ((assemble l ks gaps).damp l.ndx xr ur).residual =
      l.increments.map (residualEntry ks gaps) ++ l.multipliers.map (residualEntry ks gaps) := by
  rw [← List.map_append, ← Layout.slots_eq]
  rfl

end System
end Shooting
