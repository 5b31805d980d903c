import Mathlib.Algebra.BigOperators.Intervals
import Mathlib.Data.List.GetD
import Shooting.Proofs.Dense
import Shooting.Layout

/-! # Slots and sums over knots

The stacked vector read through its slots. A sum over positions is a double sum over knots and
entries, and cutting a vector into pieces reads every entry at its own slot.
-/

namespace Shooting

open Matrix

theorem map_length_eq {α β : Type} {vs : List (Vec α)} {ms : List β} {f : β → ℕ}
    (hlen : vs.length = ms.length)
    (h : ∀ (t : ℕ) m, ms[t]? = some m → (vs.getD t []).length = f m) :
    vs.map List.length = ms.map f := by
  apply List.ext_getElem?
  intro t
  rw [List.getElem?_map, List.getElem?_map]
  rcases Nat.lt_or_ge t ms.length with ht | ht
  · have hm := List.getElem?_eq_getElem ht
    have hv := List.getElem?_eq_getElem (hlen.symm ▸ ht)
    have := h t _ hm
    rw [List.getD_eq_getElem?_getD, hv, Option.getD_some] at this
    rw [hm, hv, Option.map_some, Option.map_some, this]
  · rw [List.getElem?_eq_none ht, List.getElem?_eq_none (hlen.symm ▸ ht)]
    rfl

theorem length_getD {α : Type} {dims : List ℕ} {vs : List (Vec α)}
    (h : vs.map List.length = dims) (t : ℕ) :
    (vs.getD t []).length = dims.getD t 0 := by
  rw [← h, List.getD_eq_getElem?_getD, List.getD_eq_getElem?_getD, List.getElem?_map]
  cases vs[t]? <;> rfl

theorem Vec.map_getD_range {α : Type} [Scalar α] {v : Vec α} {n : ℕ} (h : v.length = n) :
    (List.range n).map (fun i => v.getD i 0) = v := by
  apply List.ext_getElem (by simp [h])
  intro i hi hi'
  rw [List.getElem_map, List.getElem_range, List.getD_eq_getElem _ _ hi']

namespace Layout

variable {K : Type} [ExactScalar K]

theorem positions_cons (d : ℕ) (ds : List ℕ) :
    positions (d :: ds) =
      (List.range d).map (fun i => (0, i)) ++ (positions ds).map fun p => (p.1 + 1, p.2) := by
  have htail : ds.mapIdx (fun t d => (List.range d).map fun i => (t + 1, i)) =
      (ds.mapIdx fun t d => (List.range d).map fun i => (t, i)).map
        (List.map fun p => (p.1 + 1, p.2)) :=
    List.ext_getElem (by simp) fun t ht ht' => by simp
  rw [positions, List.mapIdx_cons, List.flatten_cons, positions, htail, List.map_flatten]

@[simp] theorem length_positions (dims : List ℕ) : (positions dims).length = total dims := by
  induction dims with
  | nil => rfl
  | cons d ds ih => simp [positions_cons, ih, total]

theorem mem_positions {dims : List ℕ} {t i : ℕ} :
    (t, i) ∈ positions dims ↔ t < dims.length ∧ i < dims.getD t 0 := by
  induction dims generalizing t with
  | nil => simp [positions]
  | cons d ds ih =>
    rw [positions_cons, List.mem_append]
    cases t with
    | zero => simp
    | succ t => simp [ih]

theorem nodup_positions (dims : List ℕ) : (positions dims).Nodup := by
  induction dims with
  | nil => simp [positions]
  | cons d ds ih =>
    rw [positions_cons]
    refine List.nodup_append.mpr ⟨?_, ?_, ?_⟩
    · exact List.nodup_range.map fun i j h => (Prod.mk.inj h).2
    · apply ih.map
      intro p q h
      obtain ⟨h₁, h₂⟩ := Prod.mk.inj h
      exact Prod.ext (Nat.succ_injective h₁) h₂
    · simp only [List.mem_map, List.mem_range]
      rintro _ ⟨i, _, rfl⟩ _ ⟨p, _, rfl⟩ h
      exact absurd (Prod.mk.inj h).1 (Nat.succ_ne_zero _).symm

theorem sum_positions (dims : List ℕ) (f : ℕ × ℕ → K) :
    ((positions dims).map f).sum =
      ∑ t ∈ Finset.range dims.length, ∑ i ∈ Finset.range (dims.getD t 0), f (t, i) := by
  induction dims generalizing f with
  | nil => simp [positions]
  | cons d ds ih =>
    have hhead : ((List.range d).map fun i => f (0, i)).sum = ∑ i ∈ Finset.range d, f (0, i) := by
      induction d with
      | zero => rfl
      | succ d ih' => simp [List.range_succ, Finset.sum_range_succ, ih']
    simp [positions_cons, Finset.sum_range_succ', Function.comp_def, ih, hhead, add_comm]

omit [ExactScalar K] in
theorem lengths_split {dims : List ℕ} {v : Vec K} (h : v.length = total dims) :
    (split dims v).map List.length = dims := by
  induction dims generalizing v with
  | nil => rfl
  | cons d ds ih =>
    simp only [total, List.foldr_cons] at h
    have hd : (v.drop d).length = total ds := by
      rw [List.length_drop, h, Nat.add_sub_cancel_left]
      rfl
    rw [split, List.map_cons, ih hd, List.length_take, h, Nat.min_eq_left (Nat.le_add_right _ _)]

theorem map_positions_split {dims : List ℕ} {v : Vec K} (h : v.length = total dims) :
    ((positions dims).map fun p => ((split dims v).getD p.1 []).getD p.2 0) = v := by
  induction dims generalizing v with
  | nil => simpa [positions, total, eq_comm] using h
  | cons d ds ih =>
    have hd : (v.drop d).length = total ds := by
      simp only [List.length_drop, h, total, List.foldr_cons]
      omega
    have hlen : (v.take d).length = d := by
      simp only [List.length_take, h, total, List.foldr_cons]
      omega
    rw [positions_cons, List.map_append, List.map_map, List.map_map, split]
    conv_rhs => rw [← List.take_append_drop d v, ← Vec.map_getD_range hlen, ← ih hd]
    rfl

def increments (l : Layout) : List Slot :=
  (positions l.ndxs).map (fun (t, i) => .state t i) ++
    (positions l.nus).map fun (t, i) => .control t i

def multipliers (l : Layout) : List Slot := (positions l.ndxs).map fun (t, i) => .costate t i

variable (l : Layout)

theorem slots_eq : l.slots = l.increments ++ l.multipliers := rfl

@[simp] theorem length_increments : l.increments.length = l.nprimal := by
  simp [increments, nprimal, ndx, nu]

@[simp] theorem length_multipliers : l.multipliers.length = l.ndx := by
  simp [multipliers, ndx]

theorem length_slots : l.slots.length = l.nprimal + l.ndx := by simp [slots_eq]

variable {l}

theorem mem_increments {σ : Slot} : σ ∈ l.increments ↔
    (∃ t i, t < l.ndxs.length ∧ i < l.ndxs.getD t 0 ∧ σ = .state t i) ∨
      ∃ t i, t < l.nus.length ∧ i < l.nus.getD t 0 ∧ σ = .control t i := by
  simp only [increments, List.mem_append, List.mem_map, Prod.exists, mem_positions,
    eq_comm (a := σ), and_assoc]

theorem mem_multipliers {σ : Slot} : σ ∈ l.multipliers ↔
    ∃ t i, t < l.ndxs.length ∧ i < l.ndxs.getD t 0 ∧ σ = .costate t i := by
  simp only [multipliers, List.mem_map, Prod.exists, mem_positions, eq_comm (a := σ), and_assoc]

theorem nodup_slots (l : Layout) : l.slots.Nodup := by
  have hx := nodup_positions l.ndxs
  have hu := nodup_positions l.nus
  have hs : l.increments.Nodup := by
    refine List.nodup_append.mpr ⟨hx.map fun p q h => ?_, hu.map fun p q h => ?_, ?_⟩
    · simpa [Prod.ext_iff] using h
    · simpa [Prod.ext_iff] using h
    · simp only [List.mem_map]
      rintro _ ⟨p, _, rfl⟩ _ ⟨q, _, rfl⟩ h
      cases h
  refine List.nodup_append.mpr ⟨hs, hx.map fun p q h => ?_, ?_⟩
  · simpa [Prod.ext_iff] using h
  · intro σ hσ τ hτ h
    obtain ⟨t, i, -, -, rfl⟩ := mem_multipliers.mp hτ
    rcases mem_increments.mp hσ with ⟨s, j, -, -, rfl⟩ | ⟨s, j, -, -, rfl⟩ <;> cases h

theorem sum_increments (l : Layout) (f : Slot → K) :
    (l.increments.map f).sum =
      ∑ t ∈ Finset.range l.ndxs.length, ∑ i ∈ Finset.range (l.ndxs.getD t 0), f (.state t i) +
        ∑ t ∈ Finset.range l.nus.length, ∑ i ∈ Finset.range (l.nus.getD t 0), f (.control t i) := by
  rw [increments, List.map_append, List.sum_append, List.map_map, List.map_map, sum_positions,
    sum_positions]
  rfl

theorem sum_multipliers (l : Layout) (f : Slot → K) :
    (l.multipliers.map f).sum =
      ∑ t ∈ Finset.range l.ndxs.length, ∑ i ∈ Finset.range (l.ndxs.getD t 0), f (.costate t i) := by
  rw [multipliers, List.map_map, sum_positions]
  rfl

end Layout

/-- The entry for a slot among vectors that are given knot by knot. -/
def Slot.value {K : Type} [ExactScalar K] (dxs dus lambdas : List (Vec K)) : Slot → K
  | .state t i => (dxs.getD t []).getD i 0
  | .control t i => (dus.getD t []).getD i 0
  | .costate t i => (lambdas.getD t []).getD i 0

namespace Layout

variable {K : Type} [ExactScalar K] {l : Layout}

omit [ExactScalar K] in
theorem length_take_ndx {p : Vec K} (h : p.length = l.nprimal) :
    (p.take l.ndx).length = total l.ndxs := by
  simp only [List.length_take, h, nprimal, ndx]
  omega

omit [ExactScalar K] in
theorem length_drop_ndx {p : Vec K} (h : p.length = l.nprimal) :
    (p.drop l.ndx).length = total l.nus := by
  simp only [List.length_drop, h, nprimal, nu]
  omega

/-- The increments, cut into knots and read slot by slot, are what they were. -/
theorem map_value_increments {p : Vec K} (h : p.length = l.nprimal) (lambdas : List (Vec K)) :
    l.increments.map
      (Slot.value (split l.ndxs (p.take l.ndx)) (split l.nus (p.drop l.ndx)) lambdas) = p := by
  conv_rhs => rw [← List.take_append_drop l.ndx p, ← map_positions_split (length_take_ndx h),
    ← map_positions_split (length_drop_ndx h)]
  rw [increments, List.map_append, List.map_map, List.map_map]
  rfl

theorem map_value_multipliers {d : Vec K} (h : d.length = l.ndx) (dxs dus : List (Vec K)) :
    l.multipliers.map (Slot.value dxs dus (split l.ndxs d)) = d := by
  conv_rhs => rw [← map_positions_split h]
  rw [multipliers, List.map_map]
  rfl

end Layout

namespace Layout

variable {α : Type} (p : Problem α)

theorem length_ndxs : (ofProblem p).ndxs.length = p.horizon + 1 := by
  simp [ofProblem, Problem.models, Problem.horizon]

theorem length_nus : (ofProblem p).nus.length = p.horizon := List.length_map _

theorem length_ndxs_eq : (ofProblem p).ndxs.length = (ofProblem p).horizon + 1 :=
  (length_ndxs p).trans (congrArg (· + 1) (length_nus p).symm)

variable {p} {t : ℕ}

theorem getD_past (ht : p.horizon < t) :
    (ofProblem p).ndxs.getD t 0 = 0 ∧ (ofProblem p).nus.getD t 0 = 0 := by
  constructor
  · exact List.getD_eq_default _ _ ((length_ndxs p).trans_le ht)
  · exact List.getD_eq_default _ _ ((length_nus p).trans_le ht.le)

theorem getD_ndxs {m : Model α} (h : p.models[t]? = some m) :
    (ofProblem p).ndxs.getD t 0 = m.state.ndx := by
  simp [ofProblem, h]

theorem getD_nus {m : Model α} (h : p.running[t]? = some m) :
    (ofProblem p).nus.getD t 0 = m.nu := by
  simp [ofProblem, h]

end Layout
end Shooting
