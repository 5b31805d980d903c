import Shooting.Proofs.System

/-! # Where blocks stand

The slots of one knot and one kind form a block of consecutive positions. Blocks do not overlap, so
that writing one leaves all entries of the others as they were.
-/

namespace Shooting

/-- The slots of one kind at one knot. -/
inductive Block
  | state (t : ℕ)
  | control (t : ℕ)
  | costate (t : ℕ)
deriving DecidableEq

namespace Slot

def block : Slot → Block
  | .state t _ => .state t
  | .control t _ => .control t
  | .costate t _ => .costate t

def index : Slot → ℕ
  | .state _ i | .control _ i | .costate _ i => i

end Slot

def Block.slot : Block → ℕ → Slot
  | .state t, i => .state t i
  | .control t, i => .control t i
  | .costate t, i => .costate t i

@[simp] theorem Block.block_slot (b : Block) (i : ℕ) : (b.slot i).block = b := by cases b <;> rfl

@[simp] theorem Block.index_slot (b : Block) (i : ℕ) : (b.slot i).index = i := by cases b <;> rfl

namespace Layout

def start (l : Layout) : Block → ℕ
  | .state t => l.xOffsets.getD t 0
  | .control t => l.ndx + l.uOffsets.getD t 0
  | .costate t => l.nprimal + l.xOffsets.getD t 0

def extent (l : Layout) : Block → ℕ
  | .state t | .costate t => l.ndxs.getD t 0
  | .control t => l.nus.getD t 0

def position (l : Layout) (σ : Slot) : ℕ := l.start σ.block + σ.index

theorem lt_length_of_lt_getD {dims : List ℕ} {t i : ℕ} (hi : i < dims.getD t 0) :
    t < dims.length := by
  by_contra ht
  rw [List.getD_eq_default _ _ (not_lt.mp ht)] at hi
  exact absurd hi (Nat.not_lt_zero i)

theorem getD_offsets_succ {dims : List ℕ} {t : ℕ} (d : ℕ) (ht : t < dims.length) :
    (offsets (d :: dims)).getD (t + 1) 0 = d + (offsets dims).getD t 0 := by
  simp [offsets, ht]

theorem getElem?_positions {dims : List ℕ} {t i : ℕ} (hi : i < dims.getD t 0) :
    (positions dims)[(offsets dims).getD t 0 + i]? = some (t, i) := by
  induction dims generalizing t with
  | nil => simp at hi
  | cons d ds ih =>
    rw [positions_cons]
    cases t with
    | zero =>
      have hi' : i < d := by simpa using hi
      simp [offsets, hi', List.getElem?_append_left]
    | succ t =>
      have ht : t < ds.length := lt_length_of_lt_getD (by simpa using hi)
      have hge : ((List.range d).map fun i => (0, i)).length ≤ d + ((offsets ds).getD t 0 + i) := by
        simp
      rw [getD_offsets_succ d ht, Nat.add_assoc, List.getElem?_append_right hge, List.length_map, List.length_range,
        Nat.add_sub_cancel_left, List.getElem?_map, ih (by simpa using hi)]
      rfl

theorem offset_lt {dims : List ℕ} {t i : ℕ} (hi : i < dims.getD t 0) :
    (offsets dims).getD t 0 + i < total dims := by
  rw [← length_positions]
  exact (List.getElem?_eq_some_iff.mp (getElem?_positions hi)).1

variable {l : Layout}

theorem mem_slots {σ : Slot} : σ ∈ l.slots ↔ σ.index < l.extent σ.block := by
  have hlt (dims : List ℕ) (t i : ℕ) : t < dims.length ∧ i < dims.getD t 0 ↔ i < dims.getD t 0 :=
    and_iff_right_of_imp lt_length_of_lt_getD
  rw [slots_eq, List.mem_append, mem_increments, mem_multipliers]
  simp only [← and_assoc, hlt]
  cases σ <;> simp [Slot.index, Slot.block, extent, ← and_assoc]

theorem mem_slots_costate {t i : ℕ} : .costate t i ∈ l.slots ↔ .state t i ∈ l.slots := by
  rw [mem_slots, mem_slots]
  rfl

theorem state_lt {t i : ℕ} (h : .state t i ∈ l.slots) : t < l.ndxs.length :=
  lt_length_of_lt_getD (mem_slots.mp h)

theorem control_lt {t i : ℕ} (h : .control t i ∈ l.slots) : t < l.nus.length :=
  lt_length_of_lt_getD (mem_slots.mp h)

theorem size_eq (l : Layout) : l.size = l.nprimal + l.ndx := by
  rw [nprimal, size]
  omega

theorem length_slots_eq (l : Layout) : l.slots.length = l.size := by
  rw [length_slots, size_eq]

theorem position_control (l : Layout) (t i : ℕ) :
    l.position (.control t i) = l.ndx + ((offsets l.nus).getD t 0 + i) := Nat.add_assoc ..

theorem position_costate (l : Layout) (t i : ℕ) :
    l.position (.costate t i) = l.nprimal + ((offsets l.ndxs).getD t 0 + i) := Nat.add_assoc ..

/-- States come first, controls second and costates last. -/
theorem position_state_lt {t i : ℕ} (h : .state t i ∈ l.slots) : l.position (.state t i) < l.ndx :=
  offset_lt (mem_slots.mp h)

theorem position_control_lt {t i : ℕ} (h : .control t i ∈ l.slots) :
    l.position (.control t i) < l.nprimal := by
  have hlt : (offsets l.nus).getD t 0 + i < l.nu := offset_lt (mem_slots.mp h)
  rw [position_control, nprimal]
  omega

theorem getElem?_slots {σ : Slot} (h : σ ∈ l.slots) : l.slots[l.position σ]? = some σ := by
  have hi := mem_slots.mp h
  have hinc : l.increments.length = l.nprimal := l.length_increments
  rw [slots_eq]
  cases σ with
  | state t i =>
    have hlt := position_state_lt h
    have hle : l.ndx ≤ l.nprimal := Nat.le_add_right _ _
    rw [List.getElem?_append_left (by omega), increments,
      List.getElem?_append_left (by simpa [ndx] using hlt), List.getElem?_map]
    exact congrArg (Option.map _) (getElem?_positions hi)
  | control t i =>
    have hlt := position_control_lt h
    rw [List.getElem?_append_left (by omega), position_control, increments,
      List.getElem?_append_right (by simp [ndx]), List.length_map, length_positions, ndx,
      Nat.add_sub_cancel_left, List.getElem?_map]
    exact congrArg (Option.map _) (getElem?_positions hi)
  | costate t i =>
    rw [position_costate, List.getElem?_append_right (by omega), hinc, Nat.add_sub_cancel_left,
      multipliers, List.getElem?_map]
    exact congrArg (Option.map _) (getElem?_positions hi)

theorem position_lt {σ : Slot} (h : σ ∈ l.slots) : l.position σ < l.slots.length :=
  (List.getElem?_eq_some_iff.mp (getElem?_slots h)).1

theorem getElem_position {σ : Slot} (h : σ ∈ l.slots) (hlt : l.position σ < l.slots.length) :
    l.slots[l.position σ] = σ :=
  (List.getElem?_eq_some_iff.mp (getElem?_slots h)).2

theorem position_getElem {k : ℕ} (hk : k < l.slots.length) : l.position l.slots[k] = k := by
  have hσ : l.slots[k] ∈ l.slots := List.getElem_mem hk
  exact (List.Nodup.getElem_inj_iff l.nodup_slots).mp (getElem_position hσ (position_lt hσ))

theorem exists_position {k : ℕ} (hk : k < l.size) : ∃ σ ∈ l.slots, l.position σ = k := by
  have hk' : k < l.slots.length := l.length_slots_eq ▸ hk
  exact ⟨l.slots[k], List.getElem_mem hk', position_getElem hk'⟩

theorem exists_position_costate {k : ℕ} (hk : l.nprimal ≤ k) (hk' : k < l.size) :
    ∃ t i, Slot.costate t i ∈ l.slots ∧ l.position (.costate t i) = k := by
  obtain ⟨σ, hσ, rfl⟩ := exists_position hk'
  have hle : l.ndx ≤ l.nprimal := Nat.le_add_right _ _
  cases σ with
  | state t i => exact absurd (position_state_lt hσ) (not_lt.mpr (hle.trans hk))
  | control t i => exact absurd (position_control_lt hσ) (not_lt.mpr hk)
  | costate t i => exact ⟨t, i, hσ, rfl⟩

/-- Blocks do not overlap. -/
theorem block_eq_iff {σ : Slot} (h : σ ∈ l.slots) (b : Block) :
    l.start b ≤ l.position σ ∧ l.position σ < l.start b + l.extent b ↔ σ.block = b := by
  constructor
  · rintro ⟨hge, hlt⟩
    have hτ : b.slot (l.position σ - l.start b) ∈ l.slots := by
      rw [mem_slots, Block.index_slot, Block.block_slot]
      omega
    have hpos : l.position (b.slot (l.position σ - l.start b)) = l.position σ := by
      rw [position, Block.index_slot, Block.block_slot]
      omega
    have hget := getElem?_slots hτ
    rw [hpos, getElem?_slots h] at hget
    rw [Option.some.inj hget, Block.block_slot]
  · rintro rfl
    have hi := mem_slots.mp h
    unfold position
    omega

theorem position_sub_start (σ : Slot) : l.position σ - l.start σ.block = σ.index :=
  Nat.add_sub_cancel_left ..

theorem position_inj {σ τ : Slot} (hσ : σ ∈ l.slots) (hτ : τ ∈ l.slots) :
    l.position σ = l.position τ ↔ σ = τ := by
  constructor
  · intro h
    have := getElem?_slots hσ
    rw [h, getElem?_slots hτ] at this
    exact (Option.some.inj this).symm
  · rintro rfl
    rfl

end Layout

variable {α : Type} {l : Layout}

namespace Vec

def write (v : Vec α) (j n : ℕ) (f : ℕ → α) : Vec α :=
  v.mapIdx fun k a => if j ≤ k ∧ k < j + n then f (k - j) else a

def put (l : Layout) (b : Block) (f : ℕ → α) (v : Vec α) : Vec α :=
  v.write (l.start b) (l.extent b) f

theorem write_slots (g : Slot → α) (j n : ℕ) (f : ℕ → α) :
    write (l.slots.map g) j n f = l.slots.map fun σ =>
      if j ≤ l.position σ ∧ l.position σ < j + n then f (l.position σ - j) else g σ := by
  apply List.ext_getElem (by simp [write])
  intro k hk hk'
  have hs : k < l.slots.length := by simpa using hk'
  simp [write, Layout.position_getElem hs]

/-- A block is written, and nothing besides. -/
theorem put_slots (g : Slot → α) (b : Block) (f : ℕ → α) :
    put l b f (l.slots.map g) = l.slots.map fun σ => if σ.block = b then f σ.index else g σ := by
  rw [put, write_slots]
  apply List.map_congr_left
  intro σ hσ
  simp only [Layout.block_eq_iff hσ]
  split
  · rename_i h
    rw [← h, Layout.position_sub_start]
  · rfl

end Vec

namespace Mat

def write (M : Mat α) (i m j n : ℕ) (f : ℕ → ℕ → α) : Mat α :=
  M.mapIdx fun k row => if i ≤ k ∧ k < i + m then Vec.write row j n (f (k - i)) else row

def put (l : Layout) (b c : Block) (f : ℕ → ℕ → α) (M : Mat α) : Mat α :=
  M.write (l.start b) (l.extent b) (l.start c) (l.extent c) f

theorem grid_congr {ι κ : Type} {rows : List ι} {cols : List κ} {f g : ι → κ → α}
    (h : ∀ i ∈ rows, ∀ j ∈ cols, f i j = g i j) : grid rows cols f = grid rows cols g :=
  List.map_congr_left fun i hi => List.map_congr_left fun j hj => h i hi j hj

theorem write_grid (g : Slot → Slot → α) (i m j n : ℕ) (f : ℕ → ℕ → α) :
    (grid l.slots l.slots g).write i m j n f = grid l.slots l.slots fun σ τ =>
      if (i ≤ l.position σ ∧ l.position σ < i + m) ∧ j ≤ l.position τ ∧ l.position τ < j + n then
        f (l.position σ - i) (l.position τ - j)
      else g σ τ := by
  apply List.ext_getElem (by simp [write, grid])
  intro k hk hk'
  have hs : k < l.slots.length := by simpa [grid] using hk'
  simp only [write, grid, List.getElem_mapIdx, List.getElem_map, Layout.position_getElem hs]
  split
  · rename_i h
    rw [Vec.write_slots]
    simp only [h, and_self, true_and]
  · rename_i h
    simp only [h, false_and, if_false]

/-- The entries where two blocks meet are written, and nothing besides. -/
theorem put_grid (g : Slot → Slot → α) (b c : Block) (f : ℕ → ℕ → α) :
    put l b c f (grid l.slots l.slots g) = grid l.slots l.slots fun σ τ =>
      if σ.block = b ∧ τ.block = c then f σ.index τ.index else g σ τ := by
  rw [put, write_grid]
  apply grid_congr
  intro σ hσ τ hτ
  simp only [Layout.block_eq_iff hσ, Layout.block_eq_iff hτ]
  split
  · rename_i h
    rw [← h.1, ← h.2, Layout.position_sub_start, Layout.position_sub_start]
  · rfl

theorem entry_slots [Scalar α] (f : Slot → Slot → α) {σ τ : Slot} (hσ : σ ∈ l.slots)
    (hτ : τ ∈ l.slots) : (grid l.slots l.slots f).entry (l.position σ) (l.position τ) = f σ τ := by
  rw [entry_grid f (Layout.position_lt hσ) (Layout.position_lt hτ), Layout.getElem_position hσ _,
    Layout.getElem_position hτ _]

/-- Every square matrix of the right size is one over slots. -/
theorem eq_grid [Scalar α] {M : Mat α} (hrows : M.length = l.size)
    (hcols : ∀ row ∈ M, row.length = l.size) :
    M = grid l.slots l.slots fun σ τ => M.entry (l.position σ) (l.position τ) := by
  have hlen := l.length_slots_eq
  apply List.ext_getElem (by simp [grid, hrows, hlen])
  intro i hi hi'
  have hi'' : i < l.slots.length := by omega
  have hrow : (M[i]).length = l.size := hcols _ (List.getElem_mem hi)
  apply List.ext_getElem (by simp [grid, hrow, hlen])
  intro j hj hj'
  have hj'' : j < l.slots.length := by omega
  simp only [grid, List.getElem_map, Layout.position_getElem hi'', Layout.position_getElem hj'']
  simp [entry_eq, hi, hj]

end Mat

theorem Vec.eq_slots [Scalar α] {v : Vec α} (h : v.length = l.size) :
    v = l.slots.map fun σ => v.getD (l.position σ) 0 := by
  have hlen := l.length_slots_eq
  apply List.ext_getElem (by simp [h, hlen])
  intro i hi hi'
  have hi'' : i < l.slots.length := by omega
  simp [Layout.position_getElem hi'', hi]

theorem Vec.getD_slots [Scalar α] (g : Slot → α) {σ : Slot} (hσ : σ ∈ l.slots) :
    (l.slots.map g).getD (l.position σ) 0 = g σ := by
  rw [List.getD_eq_getElem?_getD, List.getElem?_map, Layout.getElem?_slots hσ]
  rfl

end Shooting
