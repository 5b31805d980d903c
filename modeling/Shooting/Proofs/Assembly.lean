import Shooting.Proofs.Blocks
import Shooting.Proofs.History
import Shooting.Proofs.Integrator

/-! # Assembling the system in place

The system can be written block by block over the one that was there before, knot after knot. What
results does not depend on what was overwritten, as long as the entries that no knot touches are zero;
and these are zero in every system that a solver ever holds.
-/

namespace Shooting

variable {α : Type} [Scalar α]

namespace System

def overwriteConstraints (l : Layout) (s : System α) : System α :=
  let identity := Mat.write s.matrix l.nprimal l.ndx 0 l.ndx fun i j => if i = j then 1 else 0
  { s with matrix := Mat.write identity l.nprimal l.ndx l.ndx l.nu fun _ _ => 0 }

def overwriteKnot (l : Layout) (ks : Knots α) (gaps : List (Vec α)) (s : System α) (t : ℕ) :
    System α :=
  let k := slopesAt ks t
  { s with
    matrix := s.matrix
      |> Mat.put l (.state t) (.state t) k.lxx.entry
      |> Mat.put l (.state t) (.control t) k.lxu.entry
      |> Mat.put l (.control t) (.state t) (fun i j => k.lxu.entry j i)
      |> Mat.put l (.control t) (.control t) k.luu.entry
      |> Mat.put l (.costate (t + 1)) (.state t) (fun i j => -k.fx.entry i j)
      |> Mat.put l (.costate (t + 1)) (.control t) (fun i j => -k.fu.entry i j)
    residual := s.residual
      |> Vec.put l (.state t) (k.lx.getD · 0)
      |> Vec.put l (.control t) (k.lu.getD · 0)
      |> Vec.put l (.costate (t + 1)) ((gaps.getD (t + 1) []).getD · 0) }

def overwriteEnds (l : Layout) (ks : Knots α) (gaps : List (Vec α)) (s : System α) : System α :=
  let k := slopesAt ks l.horizon
  { s with
    matrix := Mat.put l (.state l.horizon) (.state l.horizon) k.lxx.entry s.matrix
    residual := s.residual
      |> Vec.put l (.costate 0) ((gaps.getD 0 []).getD · 0)
      |> Vec.put l (.state l.horizon) (k.lx.getD · 0) }

def overwriteTranspose (l : Layout) (s : System α) : System α :=
  let matrix := Mat.write s.matrix 0 l.nprimal l.nprimal l.ndx fun i j =>
    s.matrix.entry (l.nprimal + j) i
  { s with
    matrix
    diagonal := Mat.diagonal matrix l.nprimal }

/-- Writes the system of a linearized problem over another one. -/
def overwrite (l : Layout) (ks : Knots α) (gaps : List (Vec α)) (s : System α) : System α :=
  let running := (List.range l.horizon).foldl (overwriteKnot l ks gaps) (s.overwriteConstraints l)
  (running.overwriteEnds l ks gaps).overwriteTranspose l

end System

namespace Slot

/-- Whether a running knot writes the entry of the matrix for two slots. -/
def writtenBy (t : ℕ) : Slot → Slot → Bool
  | .state r _, .state s _ | .state r _, .control s _
  | .control r _, .state s _ | .control r _, .control s _ => r = t && s = t
  | .costate r _, .state s _ | .costate r _, .control s _ => r = t + 1 && s = t
  | _, .costate _ _ => false

theorem exists_writtenBy_state {n s j : ℕ} {σ : Slot} :
    (∃ t < n, σ.writtenBy t (.state s j)) ↔ s < n ∧ σ.writtenBy s (.state s j) := by
  cases σ <;> simp only [writtenBy, Bool.and_eq_true, decide_eq_true_eq] <;> grind

theorem exists_writtenBy_control {n s j : ℕ} {σ : Slot} :
    (∃ t < n, σ.writtenBy t (.control s j)) ↔ s < n ∧ σ.writtenBy s (.control s j) := by
  cases σ <;> simp only [writtenBy, Bool.and_eq_true, decide_eq_true_eq] <;> grind

def gradedBy (t : ℕ) : Slot → Bool
  | .state r _ | .control r _ => r = t
  | .costate r _ => r = t + 1

/-- Whether any entry for two slots is ever written, other than by zero. -/
def coupled : Slot → Slot → Bool
  | .state t _, .state s _ | .state t _, .control s _
  | .control t _, .state s _ | .control t _, .control s _ => t = s
  | .costate _ _, .costate _ _ => false
  | _, _ => true

end Slot

namespace System

variable {l : Layout} {ks : Knots α} {gaps : List (Vec α)} {s : System α} {f : Slot → Slot → α}
  {g : Slot → α}

theorem matrix_overwriteKnot (h : s.matrix = Mat.grid l.slots l.slots f) (t : ℕ) :
    (overwriteKnot l ks gaps s t).matrix = Mat.grid l.slots l.slots fun σ τ =>
      if σ.writtenBy t τ then matrixEntry ks σ τ else f σ τ := by
  simp only [overwriteKnot, h, Mat.put_grid]
  congr 1
  funext σ τ
  cases σ <;> cases τ <;>
    simp only [Slot.block, Slot.writtenBy, Slot.index, Block.state.injEq, Block.control.injEq,
      Block.costate.injEq, reduceCtorEq, and_false, false_and, if_false, Bool.and_eq_true,
      decide_eq_true_eq, Bool.false_eq_true] <;>
    split <;> try rfl
  all_goals
    rename_i h
    obtain ⟨rfl, rfl⟩ := h
    simp [matrixEntry, matrixEntry.stateCoupling, matrixEntry.controlCoupling]

theorem residual_overwriteKnot (h : s.residual = l.slots.map g) (t : ℕ) :
    (overwriteKnot l ks gaps s t).residual = l.slots.map fun σ =>
      if σ.gradedBy t then residualEntry ks gaps σ else g σ := by
  simp only [overwriteKnot, h, Vec.put_slots]
  congr 1
  funext σ
  cases σ <;>
    simp only [Slot.block, Slot.gradedBy, Slot.index, Block.state.injEq, Block.control.injEq,
      Block.costate.injEq, reduceCtorEq, if_false, decide_eq_true_eq] <;>
    split <;> try rfl
  all_goals
    rename_i h
    cases h
    rfl

/-- What the first `n` knots write together. -/
theorem overwriteKnots (n : ℕ) (hM : s.matrix = Mat.grid l.slots l.slots f)
    (hr : s.residual = l.slots.map g) :
    ((List.range n).foldl (overwriteKnot l ks gaps) s).matrix =
        Mat.grid l.slots l.slots (fun σ τ =>
          if ∃ t < n, σ.writtenBy t τ then matrixEntry ks σ τ else f σ τ) ∧
      ((List.range n).foldl (overwriteKnot l ks gaps) s).residual =
        l.slots.map fun σ => if ∃ t < n, σ.gradedBy t then residualEntry ks gaps σ else g σ := by
  induction n with
  | zero => simp [hM, hr]
  | succ n ih =>
    rw [List.range_succ, List.foldl_append, List.foldl_cons, List.foldl_nil]
    constructor
    · rw [matrix_overwriteKnot ih.1]
      congr 1
      funext σ τ
      simp only [Nat.lt_succ_iff_lt_or_eq, or_and_right, exists_or, exists_eq_left]
      by_cases h : σ.writtenBy n τ <;> simp [h]
    · rw [residual_overwriteKnot ih.2]
      congr 1
      funext σ
      simp only [Nat.lt_succ_iff_lt_or_eq, or_and_right, exists_or, exists_eq_left]
      by_cases h : σ.gradedBy n <;> simp [h]

def resetEntry (f : Slot → Slot → α) : Slot → Slot → α
  | .costate t i, .state s j => if Slot.state t i = .state s j then 1 else 0
  | .costate _ _, .control _ _ => 0
  | σ, τ => f σ τ

theorem matrix_overwriteConstraints (h : s.matrix = Mat.grid l.slots l.slots f) :
    (overwriteConstraints l s).matrix = Mat.grid l.slots l.slots (resetEntry f) := by
  simp only [overwriteConstraints, h, Mat.write_grid]
  apply Mat.grid_congr
  intro σ hσ τ hτ
  have hle : l.ndx ≤ l.nprimal := Nat.le_add_right _ _
  cases σ with
  | state t i =>
    have := Layout.position_state_lt hσ
    rw [if_neg (by omega), if_neg (by omega)]
    rfl
  | control t i =>
    have := Layout.position_control_lt hσ
    rw [if_neg (by omega), if_neg (by omega)]
    rfl
  | costate t i =>
    have hi := Layout.position_state_lt (Layout.mem_slots_costate.mp hσ)
    have hpos : l.position (.costate t i) = l.nprimal + l.position (.state t i) :=
      l.position_costate t i
    cases τ with
    | state s j =>
      have hj := Layout.position_state_lt hτ
      have hval : l.position (.costate t i) - l.nprimal = l.position (.state s j) - 0 ↔
          Slot.state t i = .state s j := by
        rw [hpos, Nat.add_sub_cancel_left, Nat.sub_zero,
          Layout.position_inj (Layout.mem_slots_costate.mp hσ) hτ]
      rw [if_neg (by omega), if_pos (by omega), resetEntry]
      simp only [hval]
    | control s j =>
      have hj := Layout.position_control_lt hτ
      have hge := l.position_control s j
      rw [if_pos (by rw [Layout.nprimal] at hj; omega), resetEntry]
    | costate s j =>
      have hge := l.position_costate s j
      rw [if_neg (by rw [Layout.nprimal] at hge; omega), if_neg (by omega)]
      rfl

def transposedEntry (f : Slot → Slot → α) : Slot → Slot → α
  | .state t i, .costate s j => f (.costate s j) (.state t i)
  | .control t i, .costate s j => f (.costate s j) (.control t i)
  | σ, τ => f σ τ

theorem matrix_overwriteTranspose (h : s.matrix = Mat.grid l.slots l.slots f) :
    (overwriteTranspose l s).matrix = Mat.grid l.slots l.slots (transposedEntry f) := by
  simp only [overwriteTranspose, h, Mat.write_grid]
  apply Mat.grid_congr
  intro σ hσ τ hτ
  have hle : l.ndx ≤ l.nprimal := Nat.le_add_right _ _
  have hend : l.position τ < l.nprimal + l.ndx := by
    rw [← l.length_slots]
    exact Layout.position_lt hτ
  have hcopy (hlt : l.position σ < l.nprimal) (hge : l.nprimal ≤ l.position τ) :
      Mat.entry (Mat.grid l.slots l.slots f) (l.nprimal + (l.position τ - l.nprimal))
        (l.position σ - 0) = f τ σ := by
    rw [Nat.add_sub_cancel' hge, Nat.sub_zero, Mat.entry_slots f hτ hσ]
  cases τ with
  | state s j =>
    have := Layout.position_state_lt hτ
    rw [if_neg (by omega)]
    cases σ <;> rfl
  | control s j =>
    have := Layout.position_control_lt hτ
    rw [if_neg (by omega)]
    cases σ <;> rfl
  | costate s j =>
    have hge := l.position_costate s j
    cases σ with
    | state t i =>
      have hlt := Layout.position_state_lt hσ
      rw [if_pos (by omega), hcopy (by omega) (by omega)]
      rfl
    | control t i =>
      have hlt := Layout.position_control_lt hσ
      rw [if_pos (by omega), hcopy hlt (by omega)]
      rfl
    | costate t i =>
      have hge' := l.position_costate t i
      rw [if_neg (by omega)]
      rfl

/-- A system of the right size whose entries are zero wherever none is ever written. -/
structure Blank (l : Layout) (s : System α) : Prop where
  rows : s.matrix.length = l.size
  columns : ∀ row ∈ s.matrix, row.length = l.size
  residual : s.residual.length = l.size
  zero : ∀ σ ∈ l.slots, ∀ τ ∈ l.slots, σ.coupled τ = false →
    s.matrix.entry (l.position σ) (l.position τ) = 0

def writtenEntry (l : Layout) (ks : Knots α) (f : Slot → Slot → α) (σ τ : Slot) : α :=
  if σ.block = .state l.horizon ∧ τ.block = .state l.horizon then
    (slopesAt ks l.horizon).lxx.entry σ.index τ.index
  else if ∃ t < l.horizon, σ.writtenBy t τ then matrixEntry ks σ τ
  else resetEntry f σ τ

theorem writtenEntry_eq (hl : l.ndxs.length = l.horizon + 1) {σ τ : Slot} (hσ : σ ∈ l.slots)
    (hτ : τ ∈ l.slots) (hf : σ.coupled τ = false → f σ τ = 0) (hi : ∀ s j, τ ≠ .costate s j) :
    writtenEntry l ks f σ τ = matrixEntry ks σ τ := by
  unfold writtenEntry resetEntry
  -- The column alone tells which knot writes; what none writes was reset or has never been set.
  cases τ with
  | costate s j => exact absurd rfl (hi s j)
  | state s j =>
    have hs := Layout.state_lt hτ
    simp only [Slot.exists_writtenBy_state]
    cases σ with
    | state t i =>
      simp only [Slot.block, Slot.index, Block.state.injEq, Slot.writtenBy, Slot.coupled,
        matrixEntry] at hf ⊢
      grind
    | control t i =>
      have ht : t < l.horizon := Layout.control_lt hσ
      simp only [Slot.block, reduceCtorEq, Slot.writtenBy, Slot.coupled, matrixEntry] at hf ⊢
      grind
    | costate t i =>
      have ht := Layout.state_lt (Layout.mem_slots_costate.mp hσ)
      simp only [Slot.block, reduceCtorEq, Slot.writtenBy, matrixEntry, matrixEntry.stateCoupling]
      grind
  | control s j =>
    have hs : s < l.horizon := Layout.control_lt hτ
    simp only [Slot.exists_writtenBy_control]
    cases σ with
    | state t i =>
      simp only [Slot.block, reduceCtorEq, Slot.writtenBy, Slot.coupled, matrixEntry] at hf ⊢
      grind
    | control t i =>
      simp only [Slot.block, reduceCtorEq, Slot.writtenBy, Slot.coupled, matrixEntry] at hf ⊢
      grind
    | costate t i =>
      simp only [Slot.block, reduceCtorEq, Slot.writtenBy, matrixEntry, matrixEntry.controlCoupling]
      grind

theorem transposedEntry_eq (hl : l.ndxs.length = l.horizon + 1) {σ τ : Slot} (hσ : σ ∈ l.slots)
    (hτ : τ ∈ l.slots) (hf : ∀ σ ∈ l.slots, ∀ τ ∈ l.slots, σ.coupled τ = false → f σ τ = 0) :
    transposedEntry (writtenEntry l ks f) σ τ = matrixEntry ks σ τ := by
  cases τ with
  | state s j =>
    have h : writtenEntry l ks f σ (.state s j) = matrixEntry ks σ (.state s j) :=
      writtenEntry_eq hl hσ hτ (hf _ hσ _ hτ) (fun _ _ => Slot.noConfusion)
    cases σ <;> exact h
  | control s j =>
    have h : writtenEntry l ks f σ (.control s j) = matrixEntry ks σ (.control s j) :=
      writtenEntry_eq hl hσ hτ (hf _ hσ _ hτ) (fun _ _ => Slot.noConfusion)
    cases σ <;> exact h
  | costate s j =>
    cases σ with
    | state t i => exact writtenEntry_eq hl hτ hσ (hf _ hτ _ hσ) (fun _ _ => Slot.noConfusion)
    | control t i => exact writtenEntry_eq hl hτ hσ (hf _ hτ _ hσ) (fun _ _ => Slot.noConfusion)
    | costate t i =>
      simp only [transposedEntry, writtenEntry, Slot.block, reduceCtorEq, and_false, if_false,
        Slot.writtenBy, Bool.false_eq_true, exists_false, resetEntry, matrixEntry]
      exact hf _ hσ _ hτ rfl

theorem writtenResidual_eq (hl : l.ndxs.length = l.horizon + 1) {σ : Slot} (hσ : σ ∈ l.slots) :
    (if σ.block = .state l.horizon then (slopesAt ks l.horizon).lx.getD σ.index 0
      else if σ.block = .costate 0 then (gaps.getD 0 []).getD σ.index 0
      else if ∃ t < l.horizon, σ.gradedBy t then residualEntry ks gaps σ else g σ) =
      residualEntry ks gaps σ := by
  cases σ with
  | state t i =>
    have ht := Layout.state_lt hσ
    have hw : (∃ n < l.horizon, (Slot.state t i).gradedBy n) ↔ t < l.horizon := by
      simp [Slot.gradedBy]
    simp only [Slot.block, Slot.index, Block.state.injEq, reduceCtorEq, if_false, hw, residualEntry]
    grind
  | control t i =>
    have ht : t < l.horizon := Layout.control_lt hσ
    have hw : ∃ n < l.horizon, (Slot.control t i).gradedBy n := ⟨t, ht, by simp [Slot.gradedBy]⟩
    simp only [Slot.block, reduceCtorEq, if_false, if_pos hw]
  | costate t i =>
    have ht := Layout.state_lt (Layout.mem_slots_costate.mp hσ)
    have hw : (∃ n < l.horizon, (Slot.costate t i).gradedBy n) ↔ t ≠ 0 := by
      simp only [Slot.gradedBy, decide_eq_true_eq]
      constructor
      · rintro ⟨n, -, rfl⟩
        exact Nat.succ_ne_zero n
      · intro h
        exact ⟨t - 1, by omega, by omega⟩
    simp only [Slot.block, Slot.index, Block.costate.injEq, reduceCtorEq, if_false, hw,
      residualEntry]
    grind

/-- Written over any such system, the system of a linearized problem comes out as it is assembled from
nothing. -/
theorem overwrite_eq_assemble (hl : l.ndxs.length = l.horizon + 1) (h : s.Blank l) :
    s.overwrite l ks gaps = assemble l ks gaps := by
  obtain ⟨hmatrix, hresidual⟩ := @overwriteKnots _ _ l ks gaps _ _ _ l.horizon
    (matrix_overwriteConstraints (Mat.eq_grid h.rows h.columns)) (Vec.eq_slots h.residual)
  set running := (List.range l.horizon).foldl (overwriteKnot l ks gaps) (s.overwriteConstraints l)
  have hM : (running.overwriteEnds l ks gaps).matrix = Mat.grid l.slots l.slots
      (writtenEntry l ks fun σ τ => s.matrix.entry (l.position σ) (l.position τ)) := by
    simp only [overwriteEnds, hmatrix, Mat.put_grid]
    rfl
  have hA : (s.overwrite l ks gaps).matrix = Mat.grid l.slots l.slots (matrixEntry ks) := by
    refine (matrix_overwriteTranspose hM).trans (Mat.grid_congr fun σ hσ τ hτ => ?_)
    exact transposedEntry_eq hl hσ hτ h.zero
  have hr : (s.overwrite l ks gaps).residual = l.slots.map (residualEntry ks gaps) := by
    change (running.overwriteEnds l ks gaps).residual = _
    simp only [overwriteEnds, hresidual, Vec.put_slots]
    exact List.map_congr_left fun σ hσ =>
      writtenResidual_eq (g := fun σ => s.residual.getD (l.position σ) 0) hl hσ
  have hd : (s.overwrite l ks gaps).diagonal =
      Mat.diagonal (s.overwrite l ks gaps).matrix l.nprimal := rfl
  rw [hA] at hd
  cases hs : s.overwrite l ks gaps
  simp only [hs] at hA hr hd
  rw [hA, hr, hd]
  rfl

theorem matrixEntry_uncoupled (ks : Knots α) {σ τ : Slot} (h : σ.coupled τ = false) :
    matrixEntry ks σ τ = 0 := by
  cases σ <;> cases τ <;>
    simp only [Slot.coupled, decide_eq_false_iff_not, Bool.true_eq_false] at h <;>
    simp only [matrixEntry, h, if_false]

theorem weightedEntry_uncoupled (xreg ureg : Weight α) (hf : ∀ σ τ, σ.coupled τ = false → f σ τ = 0)
    {σ τ : Slot} (h : σ.coupled τ = false) : weightedEntry xreg ureg f σ τ = 0 := by
  rw [weightedEntry]
  split
  · rename_i hστ
    cases hστ
    cases σ with
    | state t i => simp [Slot.coupled] at h
    | control t i => simp [Slot.coupled] at h
    | costate t i => exact hf _ _ h
  · exact hf σ τ h

theorem weightedEntry_symm (xreg ureg : Weight α) {σ τ : Slot} (h : f σ τ = f τ σ) :
    weightedEntry xreg ureg f σ τ = weightedEntry xreg ureg f τ σ := by
  rcases eq_or_ne σ τ with rfl | hne
  · rfl
  · rw [weightedEntry, weightedEntry, if_neg hne, if_neg hne.symm, h]

theorem blank_of_grid (hM : s.matrix = Mat.grid l.slots l.slots f) (hr : s.residual.length = l.size)
    (hf : ∀ σ τ, σ.coupled τ = false → f σ τ = 0) : s.Blank l where
  rows := by rw [hM, Mat.grid, List.length_map, l.length_slots_eq]
  columns := by
    rw [hM]
    intro row hrow
    obtain ⟨σ, -, rfl⟩ := List.mem_map.mp hrow
    rw [List.length_map, l.length_slots_eq]
  residual := hr
  zero σ hσ τ hτ h := by rw [hM, Mat.entry_slots f hσ hτ, hf σ τ h]

theorem matrix_zero (l : Layout) :
    (zero l : System α).matrix = Mat.grid l.slots l.slots fun _ _ => 0 := by
  have hlen := l.length_slots_eq
  simp [zero, Mat.zeros, Mat.ofFn, Mat.grid, hlen]

theorem Blank.entry_eq_zero (h : s.Blank l) {i j : ℕ} (hij : l.size ≤ i ∨ l.size ≤ j) :
    s.matrix.entry i j = 0 := by
  rw [Mat.entry_eq]
  rcases Nat.lt_or_ge i l.size with hi | hi
  · have hrow : s.matrix.getD i [] ∈ s.matrix := by
      rw [List.getD_eq_getElem _ _ (h.rows.symm ▸ hi)]
      exact List.getElem_mem _
    exact List.getD_eq_default _ _ ((h.columns _ hrow).trans_le (hij.resolve_left (not_le.mpr hi)))
  · rw [List.getD_eq_default _ _ (h.rows.trans_le hi)]
    rfl

theorem Blank.corner (h : s.Blank l) {i j : ℕ} (hi : l.nprimal ≤ i) (hj : l.nprimal ≤ j) :
    s.matrix.entry i j = 0 := by
  rcases Nat.lt_or_ge i l.size with hi' | hi'
  · rcases Nat.lt_or_ge j l.size with hj' | hj'
    · obtain ⟨t, a, hσ, rfl⟩ := Layout.exists_position_costate hi hi'
      obtain ⟨r, b, hτ, rfl⟩ := Layout.exists_position_costate hj hj'
      exact h.zero _ hσ _ hτ rfl
    · exact h.entry_eq_zero (.inr hj')
  · exact h.entry_eq_zero (.inl hi')

theorem Blank.symm (h : s.Blank l) (hM : s.matrix = Mat.grid l.slots l.slots f)
    (hf : ∀ σ ∈ l.slots, ∀ τ ∈ l.slots, f σ τ = f τ σ) (i j : ℕ) :
    s.matrix.entry i j = s.matrix.entry j i := by
  rcases Nat.lt_or_ge i l.size with hi | hi
  · rcases Nat.lt_or_ge j l.size with hj | hj
    · obtain ⟨σ, hσ, rfl⟩ := Layout.exists_position hi
      obtain ⟨τ, hτ, rfl⟩ := Layout.exists_position hj
      rw [hM, Mat.entry_slots f hσ hτ, Mat.entry_slots f hτ hσ, hf σ hσ τ hτ]
    · rw [h.entry_eq_zero (.inr hj), h.entry_eq_zero (.inl hj)]
  · rw [h.entry_eq_zero (.inl hi), h.entry_eq_zero (.inr hi)]

theorem matrixEntry_symm_slots
    (h : ∀ t, (slopesAt ks t).Symmetric (l.ndxs.getD t 0) (l.nus.getD t 0)) {σ τ : Slot}
    (hσ : σ ∈ l.slots) (hτ : τ ∈ l.slots) : matrixEntry ks σ τ = matrixEntry ks τ σ := by
  rw [Layout.slots_eq, List.mem_append] at hσ hτ
  rcases hσ with hσ | hσ
  · rcases hτ with hτ | hτ
    · exact matrixEntry_symm h hσ hτ
    · obtain ⟨t, i, -, -, rfl⟩ := Layout.mem_multipliers.mp hτ
      cases σ <;> rfl
  · obtain ⟨t, i, -, -, rfl⟩ := Layout.mem_multipliers.mp hσ
    cases τ <;> rfl

end System

/-- Whatever a solver does, its system stays zero where nothing is ever written, and symmetric if the
second derivatives are. -/
theorem Problem.Rewrites.blank {p : Problem α} {A : System α}
    (h : p.Rewrites (.zero (.ofProblem p)) A) :
    A.Blank (.ofProblem p) ∧
      (p.SymmetricHessians → ∀ i j, A.matrix.entry i j = A.matrix.entry j i) := by
  have hzero : ∀ σ τ : Slot, σ.coupled τ = false → (fun _ _ => 0 : Slot → Slot → α) σ τ = 0 :=
    fun _ _ _ => rfl
  have hM : (System.zero (.ofProblem p) : System α).matrix = _ := System.matrix_zero (.ofProblem p)
  cases h with
  | kept =>
    have hb := System.blank_of_grid hM (Vec.length_zeros _) hzero
    exact ⟨hb, fun _ => hb.symm hM fun _ _ _ _ => rfl⟩
  | damped xr ur =>
    have hd : (System.zero (.ofProblem p) : System α).diagonal =
        (Layout.ofProblem p).increments.map fun _ => 0 := by
      simp [System.zero, Vec.zeros]
    have hM' := System.matrix_damp hM hd xr ur
    have hb := System.blank_of_grid hM' (Vec.length_zeros _)
      fun σ τ => System.weightedEntry_uncoupled xr ur hzero
    exact ⟨hb, fun _ => hb.symm hM' fun σ _ τ _ => System.weightedEntry_symm xr ur rfl⟩
  | assembled hA =>
    obtain ⟨xs, us, ks, xr, ur, hks, rfl⟩ := hA
    have hM := System.matrix_damp (s := System.assemble (.ofProblem p) ks (p.gaps ks xs)) rfl
      System.assemble_diagonal xr ur
    have hr : (System.assemble (.ofProblem p) ks (p.gaps ks xs)).residual.length =
        (Layout.ofProblem p).size := by
      rw [System.assemble, List.length_map, Layout.length_slots_eq]
    have hb := System.blank_of_grid hM hr
      fun σ τ => System.weightedEntry_uncoupled xr ur fun _ _ => System.matrixEntry_uncoupled ks
    refine ⟨hb, fun hp => hb.symm hM fun σ hσ τ hτ => ?_⟩
    exact System.weightedEntry_symm xr ur
      (System.matrixEntry_symm_slots (System.symmetric_slopesAt hp hks) hσ hτ)

/-- The system that the records of the knots prescribe under given weights, block by block. The entry
`i` of a block stands at the offset of the block plus `i`. -/
structure System.Prescribed (p : Problem α) (ks : Knots α) (xs : List (Vec α))
    (xreg ureg : Weight α) (A : System α) : Prop where
  rows : A.matrix.length = p.layout.size
  columns : ∀ row ∈ A.matrix, row.length = p.layout.size
  length : A.residual.length = p.layout.size
  covered : ∀ k < p.layout.size,
    ∃ σ : Slot, σ.index < p.layout.extent σ.block ∧ k = p.layout.start σ.block + σ.index
  state_state : ∀ t i r j, i < p.layout.ndxs.getD t 0 → j < p.layout.ndxs.getD r 0 →
    A.matrix.entry (p.layout.xOffsets.getD t 0 + i) (p.layout.xOffsets.getD r 0 + j) =
      if t = r then
        if i = j then (slopesAt ks t).lxx.entry i j + xreg.addend else (slopesAt ks t).lxx.entry i j
      else 0
  state_control : ∀ t i r j, i < p.layout.ndxs.getD t 0 → j < p.layout.nus.getD r 0 →
    A.matrix.entry (p.layout.xOffsets.getD t 0 + i)
      (p.layout.ndx + p.layout.uOffsets.getD r 0 + j) =
        if t = r then (slopesAt ks t).lxu.entry i j else 0
  control_state : ∀ t i r j, i < p.layout.nus.getD t 0 → j < p.layout.ndxs.getD r 0 →
    A.matrix.entry (p.layout.ndx + p.layout.uOffsets.getD t 0 + i)
      (p.layout.xOffsets.getD r 0 + j) = if t = r then (slopesAt ks t).lxu.entry j i else 0
  control_control : ∀ t i r j, i < p.layout.nus.getD t 0 → j < p.layout.nus.getD r 0 →
    A.matrix.entry (p.layout.ndx + p.layout.uOffsets.getD t 0 + i)
      (p.layout.ndx + p.layout.uOffsets.getD r 0 + j) =
        if t = r then
          if i = j then (slopesAt ks t).luu.entry i j + ureg.addend
          else (slopesAt ks t).luu.entry i j
        else 0
  costate_state : ∀ t i r j, i < p.layout.ndxs.getD t 0 → j < p.layout.ndxs.getD r 0 →
    A.matrix.entry (p.layout.nprimal + p.layout.xOffsets.getD t 0 + i)
      (p.layout.xOffsets.getD r 0 + j) =
        if t = r then if i = j then 1 else 0
        else if t = r + 1 then -(slopesAt ks r).fx.entry i j else 0
  costate_control : ∀ t i r j, i < p.layout.ndxs.getD t 0 → j < p.layout.nus.getD r 0 →
    A.matrix.entry (p.layout.nprimal + p.layout.xOffsets.getD t 0 + i)
      (p.layout.ndx + p.layout.uOffsets.getD r 0 + j) =
        if t = r + 1 then -(slopesAt ks r).fu.entry i j else 0
  transpose : ∀ i j, i < p.layout.nprimal → p.layout.nprimal ≤ j →
    A.matrix.entry i j = A.matrix.entry j i
  corner : ∀ i j, p.layout.nprimal ≤ i → p.layout.nprimal ≤ j → A.matrix.entry i j = 0
  state_gradient : ∀ t i, i < p.layout.ndxs.getD t 0 →
    A.residual.getD (p.layout.xOffsets.getD t 0 + i) 0 = (slopesAt ks t).lx.getD i 0
  control_gradient : ∀ t i, i < p.layout.nus.getD t 0 →
    A.residual.getD (p.layout.ndx + p.layout.uOffsets.getD t 0 + i) 0 = (slopesAt ks t).lu.getD i 0
  initial_gap : ∀ m i, p.running[0]? = some m → i < p.layout.ndxs.getD 0 0 →
    A.residual.getD (p.layout.nprimal + p.layout.xOffsets.getD 0 0 + i) 0 =
      (m.state.diff p.x0 (xs.getD 0 [])).getD i 0
  dynamics_gap : ∀ t m k i, p.running[t]? = some m → ks.running[t]? = some k →
    i < p.layout.ndxs.getD (t + 1) 0 →
      A.residual.getD (p.layout.nprimal + p.layout.xOffsets.getD (t + 1) 0 + i) 0 =
        (m.next.diff k.xnext (xs.getD (t + 1) [])).getD i 0

theorem System.prescribed {p : Problem α} {ks : Knots α} {xs us : List (Vec α)}
    (hf : p.Fits ks xs us) (xreg ureg : Weight α) :
    ((System.assemble p.layout ks (p.gaps ks xs)).damp p.layout.ndx xreg ureg).Prescribed
      p ks xs xreg ureg := by
  set A := (System.assemble p.layout ks (p.gaps ks xs)).damp p.layout.ndx xreg ureg
  have hM : A.matrix = Mat.grid _ _ (System.weightedEntry xreg ureg (System.matrixEntry ks)) :=
    System.matrix_damp rfl System.assemble_diagonal xreg ureg
  have hr : A.residual = p.layout.slots.map (System.residualEntry ks (p.gaps ks xs)) := rfl
  have hb : A.Blank p.layout :=
    System.blank_of_grid hM (by rw [hr, List.length_map, Layout.length_slots_eq])
      fun σ τ => System.weightedEntry_uncoupled xreg ureg fun _ _ => System.matrixEntry_uncoupled ks
  have hentry (σ τ : Slot) (hσ : σ.index < p.layout.extent σ.block)
      (hτ : τ.index < p.layout.extent τ.block) :
      A.matrix.entry (p.layout.position σ) (p.layout.position τ) =
        System.weightedEntry xreg ureg (System.matrixEntry ks) σ τ := by
    rw [hM, Mat.entry_slots _ (Layout.mem_slots.mpr hσ) (Layout.mem_slots.mpr hτ)]
  have hgrad (σ : Slot) (hσ : σ.index < p.layout.extent σ.block) :
      A.residual.getD (p.layout.position σ) 0 = System.residualEntry ks (p.gaps ks xs) σ :=
    Vec.getD_slots _ (Layout.mem_slots.mpr hσ)
  refine
    { rows := hb.rows
      columns := hb.columns
      length := hb.residual
      covered := ?covered
      state_state := ?state_state
      state_control := fun t i r j hi hj => hentry (.state t i) (.control r j) hi hj
      control_state := fun t i r j hi hj => hentry (.control t i) (.state r j) hi hj
      control_control := ?control_control
      costate_state := fun t i r j hi hj => hentry (.costate t i) (.state r j) hi hj
      costate_control := fun t i r j hi hj => hentry (.costate t i) (.control r j) hi hj
      transpose := ?transpose
      corner := fun i j hi hj => hb.corner hi hj
      state_gradient := fun t i hi => hgrad (.state t i) hi
      control_gradient := fun t i hi => hgrad (.control t i) hi
      initial_gap := ?initial_gap
      dynamics_gap := ?dynamics_gap }
  case covered =>
    intro k hk
    obtain ⟨σ, hσ, rfl⟩ := Layout.exists_position hk
    exact ⟨σ, Layout.mem_slots.mp hσ, rfl⟩
  case state_state =>
    intro t i r j hi hj
    refine (hentry (.state t i) (.state r j) hi hj).trans ?_
    simp only [System.weightedEntry, Slot.state.injEq, Slot.damp, System.matrixEntry]
    grind
  case control_control =>
    intro t i r j hi hj
    refine (hentry (.control t i) (.control r j) hi hj).trans ?_
    simp only [System.weightedEntry, Slot.control.injEq, Slot.damp, System.matrixEntry]
    grind
  case transpose =>
    intro i j hi hj
    rcases Nat.lt_or_ge j p.layout.size with hj' | hj'
    · obtain ⟨σ, hσ, rfl⟩ := Layout.exists_position (hi.trans (hj.trans_lt hj'))
      obtain ⟨r, b, hτ, rfl⟩ := Layout.exists_position_costate hj hj'
      rw [hentry _ _ (Layout.mem_slots.mp hσ) (Layout.mem_slots.mp hτ),
        hentry _ _ (Layout.mem_slots.mp hτ) (Layout.mem_slots.mp hσ)]
      apply System.weightedEntry_symm
      cases σ <;> rfl
    · rw [hb.entry_eq_zero (.inr hj'), hb.entry_eq_zero (.inl hj')]
  case initial_gap =>
    intro m i hm hi
    rw [← hf.gaps_zero hm]
    exact hgrad (.costate 0 i) hi
  case dynamics_gap =>
    intro t m k i hm hk hi
    rw [← hf.gaps_succ hm hk]
    exact hgrad (.costate (t + 1) i) hi

namespace Solver

/-- After a linearization the system is what the values and derivatives of the models along the
current trajectory prescribe under the current weights, and it comes out when that is written in
place, over the system that the solver held before. Before and after, the system is zero where
multipliers meet, and equal to its transpose if the second derivatives are. -/
theorem prescribed_of_linearize (p : Problem α) (o : Options α) (past : List (Operation α)) :
    let s := (create p o).after past
    (∀ s' c, s.linearize = (s', .ok c) →
      p.LinearizedAt s.candidate.xs s.candidate.us s'.knots ∧
      s'.system.Prescribed p s'.knots s.candidate.xs s.xreg s.ureg ∧
      s'.system =
        (s.system.overwrite p.layout s'.knots (p.gaps s'.knots s.candidate.xs)).damp p.layout.ndx
          s.xreg s.ureg) ∧
    (∀ i j, p.layout.nprimal ≤ i → p.layout.nprimal ≤ j → s.system.matrix.entry i j = 0) ∧
    (p.SymmetricHessians → ∀ i j, s.system.matrix.entry i j = s.system.matrix.entry j i) := by
  intro s
  have hf : s.Fits := fits_after past
  have hp : s.problem = p := problem_after past
  obtain ⟨hb, hsymm⟩ := Problem.Rewrites.blank (((create p o).preserved_after past).system
    (fits_create p o))
  refine ⟨?_, fun i j hi hj => hb.corner hi hj, hsymm⟩
  intro s' c h
  rw [Fits, hp] at hf
  unfold Solver.linearize layout at h
  rw [hp] at h
  split at h
  · cases h
  · rename_i ks c' hl
    cases h
    have hks := (hf.linearize_ok hl).1
    have hlen := Problem.length_linearize p s.knots s.candidate.xs s.candidate.us
    rw [hl] at hlen
    have hf' : p.Fits ks s.candidate.xs s.candidate.us :=
      ⟨hlen.trans hf.knots, hf.states, hf.controls⟩
    refine ⟨hks, System.prescribed hf' _ _, ?_⟩
    rw [System.overwrite_eq_assemble (Layout.length_ndxs_eq p) hb]

theorem prescribed_of_linearize_integrator :
    let s := (create (Problem.integrator [(1 : ℝ)] 1) .lenient).after
      [.linearize, .setWeights (some 1) none]
    ∃ s' c, s.linearize = (s', .ok c) ∧
      s'.system.Prescribed (Problem.integrator [1] 1) s'.knots s.candidate.xs (some 1) none ∧
      ∀ i j, s.system.matrix.entry i j = s.system.matrix.entry j i := by
  obtain ⟨hlin, -, hsymm⟩ := prescribed_of_linearize (Problem.integrator [(1 : ℝ)] 1) .lenient
    [.linearize, .setWeights (some 1) none]
  have hp := @Problem.symmetricHessians_integrator ℝ _ [1] 1
  exact ⟨_, _, rfl, (hlin _ _ rfl).2.1, hsymm hp⟩

end Solver
end Shooting
