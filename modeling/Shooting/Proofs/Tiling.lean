import Mathlib.Algebra.Order.BigOperators.Group.List
import Shooting.Proofs.Shapes

/-! # Slices of the stacked vector

Offsets are running sums of dimensions. So the slices that start there fill all positions, knot after
knot and none twice, also where a knot has no controls. Blocks that are written into their slices are
what is read from them, and a vector is made up of its slices.
-/

namespace Shooting
namespace Layout

variable {dims : List ℕ} {t i k : ℕ}

theorem getD_offsets (ht : t < dims.length) : (offsets dims).getD t 0 = (dims.take t).sum := by
  induction dims generalizing t with
  | nil => cases ht
  | cons d ds ih =>
    cases t with
    | zero => rfl
    | succ t =>
      have ht' : t < ds.length := Nat.lt_of_succ_lt_succ ht
      rw [getD_offsets_succ d ht', ih ht', List.take_succ_cons, List.sum_cons]

theorem offset_add (ht : t < dims.length) :
    (offsets dims).getD t 0 + dims.getD t 0 = (dims.take (t + 1)).sum := by
  rw [getD_offsets ht, List.getD_eq_getElem _ _ ht, List.sum_take_succ]

theorem offsets_eq_scanl (h : dims ≠ []) : offsets dims = dims.dropLast.scanl (· + ·) 0 := by
  have hpos := List.length_pos_iff.mpr h
  apply List.ext_getElem (by simp; omega)
  intro t ht _
  have ht' : t < dims.length := by simpa using ht
  have htake : dims.dropLast.take t = dims.take t := by
    rw [List.dropLast_eq_take, List.take_take, Nat.min_eq_left (by omega)]
  rw [← List.getD_eq_getElem _ 0 ht, getD_offsets ht', List.getElem_scanl, htake,
    List.sum_eq_foldl]

example : offsets [2, 0, 3] = [0, 2, 2] := by decide

theorem getElem?_positions_iff : (positions dims)[k]? = some (t, i) ↔
    i < dims.getD t 0 ∧ k = (offsets dims).getD t 0 + i := by
  constructor
  · intro h
    obtain ⟨hk, hget⟩ := List.getElem?_eq_some_iff.mp h
    have hi : i < dims.getD t 0 := (mem_positions.mp (hget ▸ List.getElem_mem hk)).2
    refine ⟨hi, (List.getElem?_inj hk (nodup_positions dims)).mp ?_⟩
    rw [h, getElem?_positions hi]
  · rintro ⟨hi, rfl⟩
    exact getElem?_positions hi

theorem existsUnique_offset (hk : k < total dims) : ∃! t, t < dims.length ∧
    (offsets dims).getD t 0 ≤ k ∧ k < (offsets dims).getD t 0 + dims.getD t 0 := by
  rw [← length_positions] at hk
  obtain ⟨⟨t, i⟩, hget⟩ : ∃ p, (positions dims)[k]? = some p := ⟨_, List.getElem?_eq_getElem hk⟩
  obtain ⟨hi, rfl⟩ := getElem?_positions_iff.mp hget
  refine ⟨t, ⟨lt_length_of_lt_getD hi, by omega, by omega⟩, ?_⟩
  rintro r ⟨-, hle, hlt⟩
  obtain ⟨j, hj⟩ := Nat.exists_eq_add_of_le hle
  have hr : (positions dims)[(offsets dims).getD t 0 + i]? = some (r, j) :=
    getElem?_positions_iff.mpr ⟨by omega, hj⟩
  exact (Prod.mk.inj (Option.some.inj (hr.symm.trans hget))).1

/-- The slices of the knots, which start at the given offsets from a common base, fill the positions
from there up to a limit. -/
structure Fills (offs dims : List ℕ) (base limit : ℕ) : Prop where
  within : ∀ t < offs.length, base + offs.getD t 0 + dims.getD t 0 ≤ limit
  covers : ∀ k, base ≤ k → k < limit →
    ∃! t, t < offs.length ∧ base + offs.getD t 0 ≤ k ∧ k < base + offs.getD t 0 + dims.getD t 0
  ordered : ∀ s t, s < t → t < offs.length → offs.getD s 0 + dims.getD s 0 ≤ offs.getD t 0

theorem fills_offsets (dims : List ℕ) (base : ℕ) :
    Fills (offsets dims) dims base (base + total dims) where
  within t ht := by
    rw [length_offsets] at ht
    have hle : (dims.take (t + 1)).sum ≤ (dims.take dims.length).sum :=
      List.monotone_sum_take dims ht
    rw [List.take_length] at hle
    rw [Nat.add_assoc, offset_add ht]
    exact Nat.add_le_add_left hle base
  covers k hk hlt := by
    obtain ⟨j, rfl⟩ := Nat.exists_eq_add_of_le hk
    simp only [length_offsets, Nat.add_assoc, Nat.add_le_add_iff_left, Nat.add_lt_add_iff_left]
    exact existsUnique_offset (Nat.lt_of_add_lt_add_left hlt)
  ordered s t hst ht := by
    rw [length_offsets] at ht
    rw [offset_add (hst.trans ht), getD_offsets ht]
    exact List.monotone_sum_take dims hst

end Layout

namespace Vec

variable {α : Type}

def slice (v : Vec α) (j n : ℕ) : Vec α := (v.drop j).take n

def block (l : Layout) (b : Block) (v : Vec α) : Vec α := v.slice (l.start b) (l.extent b)

theorem slice_append_left {v : Vec α} {j n : ℕ} (h : j + n ≤ v.length) (w : Vec α) :
    slice (v ++ w) j n = slice v j n := by
  have hn : n ≤ (v.drop j).length := by simp; omega
  rw [slice, List.drop_append_of_le_length (by omega), List.take_append_of_le_length hn, slice]

theorem slice_append_right (v w : Vec α) (j n : ℕ) :
    slice (v ++ w) (v.length + j) n = slice w j n := by simp [slice, List.drop_length_add_append]

end Vec

namespace Layout

variable {α : Type} {l : Layout} {x u c z : Vec α} {k : ℕ}

theorem split_eq (dims : List ℕ) (v : Vec α) : split dims v =
    (List.range dims.length).map fun t => v.slice ((offsets dims).getD t 0) (dims.getD t 0) := by
  induction dims generalizing v with
  | nil => rfl
  | cons d ds ih =>
    rw [split, ih, List.length_cons, List.range_succ_eq_map, List.map_cons, List.map_map]
    congr 1
    apply List.map_congr_left
    intro t ht
    simp only [Function.comp_apply, Nat.succ_eq_add_one, List.getD_cons_succ, Vec.slice,
      List.drop_drop, getD_offsets_succ d (List.mem_range.mp ht)]

theorem split_eq_around {dims : List ℕ} (hu : u.length = total dims) (x c : Vec α) :
    split dims u = (List.range dims.length).map fun t =>
      (x ++ (u ++ c)).slice (x.length + (offsets dims).getD t 0) (dims.getD t 0) := by
  rw [split_eq]
  apply List.map_congr_left
  intro t ht
  have hwithin := (fills_offsets dims 0).within t (by simpa using ht)
  rw [Vec.slice_append_right, Vec.slice_append_left (by omega)]

def blocks (l : Layout) : List Block :=
  (List.range l.ndxs.length).map .state ++ (List.range l.nus.length).map .control ++
    (List.range l.ndxs.length).map .costate

theorem block_mem_blocks {σ : Slot} (h : σ ∈ l.slots) : σ.block ∈ l.blocks := by
  cases σ with
  | state t i => simp [blocks, Slot.block, state_lt h]
  | control t i => simp [blocks, Slot.block, control_lt h]
  | costate t i => simp [blocks, Slot.block, state_lt (mem_slots_costate.mp h)]

/-- Every position lies in the slice of one block, of whatever kind, and in no other. -/
theorem existsUnique_block (hk : k < l.size) :
    ∃! b, b ∈ l.blocks ∧ l.start b ≤ k ∧ k < l.start b + l.extent b := by
  obtain ⟨σ, hσ, rfl⟩ := exists_position hk
  refine ⟨σ.block, ⟨block_mem_blocks hσ, (block_eq_iff hσ _).mpr rfl⟩, ?_⟩
  rintro b ⟨-, hb⟩
  exact ((block_eq_iff hσ b).mp hb).symm

theorem map_block_state (hx : x.length = l.ndx) (v : Vec α) :
    (List.range l.ndxs.length).map (fun t => Vec.block l (.state t) (x ++ v)) = split l.ndxs x := by
  rw [split_eq_around hx [] v]
  simp only [List.nil_append, List.length_nil, Nat.zero_add]
  rfl

theorem map_block_control (hx : x.length = l.ndx) (hu : u.length = l.nu) (c : Vec α) :
    (List.range l.nus.length).map (fun t => Vec.block l (.control t) (x ++ (u ++ c))) =
      split l.nus u := by
  rw [split_eq_around hu x c, hx]
  rfl

theorem map_block_costate (hz : z.length = l.nprimal) (hc : c.length = l.ndx) :
    (List.range l.ndxs.length).map (fun t => Vec.block l (.costate t) (z ++ c)) = split l.ndxs c := by
  rw [split_eq_around hc z [], hz, List.append_nil]
  rfl

theorem flatten_blocks (hz : z.length = l.size) :
    (l.blocks.map fun b => Vec.block l b z).flatten = z := by
  obtain ⟨x, u, c, rfl, hx, hu, hc⟩ : ∃ x u c : Vec α, z = x ++ (u ++ c) ∧
      x.length = l.ndx ∧ u.length = l.nu ∧ c.length = l.ndx := by
    refine ⟨z.take l.ndx, (z.drop l.ndx).take l.nu, (z.drop l.ndx).drop l.nu, ?_, ?_⟩
    · simp
    · simp only [List.length_take, List.length_drop, hz, size]
      omega
  have hprimal : (x ++ u).length = l.nprimal := by simp [hx, hu, nprimal]
  have hcostates := map_block_costate hprimal hc
  rw [List.append_assoc] at hcostates
  simp only [blocks, List.map_append, List.map_map, Function.comp_def, List.flatten_append,
    map_block_state hx, map_block_control hx hu, hcostates]
  rw [flatten_split hx, flatten_split hu, flatten_split hc, List.append_assoc]

end Layout

variable {α : Type} {l : Layout}

theorem Vec.block_slots (g : Slot → α) (b : Block) :
    block l b (l.slots.map g) = (List.range (l.extent b)).map fun i => g (b.slot i) := by
  apply List.ext_getElem?
  intro i
  rw [block, slice, List.getElem?_take, List.getElem?_drop, List.getElem?_map, List.getElem?_map]
  split
  · rename_i hi
    have hσ : b.slot i ∈ l.slots := by
      rwa [Layout.mem_slots, Block.index_slot, Block.block_slot]
    have hget := Layout.getElem?_slots hσ
    rw [Layout.position, Block.block_slot, Block.index_slot] at hget
    rw [hget, List.getElem?_range hi]
    rfl
  · rename_i hi
    rw [List.getElem?_eq_none (by simpa using hi)]
    rfl

variable [Scalar α]

namespace Vec

def putAll (l : Layout) (vs : Block → Vec α) (bs : List Block) (v : Vec α) : Vec α :=
  bs.foldl (fun v b => v.put l b ((vs b).getD · 0)) v

theorem length_putAll (vs : Block → Vec α) (bs : List Block) (v : Vec α) :
    (putAll l vs bs v).length = v.length := by
  induction bs generalizing v with
  | nil => rfl
  | cons b bs ih => exact (ih _).trans List.length_mapIdx

theorem putAll_slots (vs : Block → Vec α) (bs : List Block) (g : Slot → α) :
    putAll l vs bs (l.slots.map g) = l.slots.map fun σ =>
      if σ.block ∈ bs then (vs σ.block).getD σ.index 0 else g σ := by
  induction bs generalizing g with
  | nil => simp [putAll]
  | cons b bs ih =>
    rw [putAll, List.foldl_cons, put_slots]
    refine (ih _).trans (List.map_congr_left fun σ _ => ?_)
    by_cases hb : σ.block = b <;> simp [hb]

variable {vs : Block → Vec α} {bs : List Block} {v : Vec α}

/-- A block that is written is what is read, and every other is what it was. -/
theorem block_putAll (hv : v.length = l.size) (h : ∀ b ∈ bs, (vs b).length = l.extent b)
    (b : Block) : block l b (putAll l vs bs v) = if b ∈ bs then vs b else block l b v := by
  rw [eq_slots hv, putAll_slots, block_slots, block_slots]
  simp only [Block.block_slot, Block.index_slot]
  split
  · rename_i hb
    exact map_getD_range (h b hb)
  · rfl

/-- Once all blocks are written, nothing is left of what was there. -/
theorem putAll_blocks (hv : v.length = l.size) (h : ∀ b ∈ l.blocks, (vs b).length = l.extent b) :
    putAll l vs l.blocks v = (l.blocks.map vs).flatten := by
  rw [← Layout.flatten_blocks ((length_putAll vs l.blocks v).trans hv)]
  congr 1
  apply List.map_congr_left
  intro b hb
  rw [block_putAll hv h, if_pos hb]

end Vec

def System.part (ks : Knots α) (gaps : List (Vec α)) : Block → Vec α
  | .state t => (slopesAt ks t).lx
  | .control t => (slopesAt ks t).lu
  | .costate t => gaps.getD t []

theorem System.residual_assemble_eq_putAll {v : Vec α} (hv : v.length = l.size) (ks : Knots α)
    (gaps : List (Vec α)) :
    (assemble l ks gaps).residual = Vec.putAll l (part ks gaps) l.blocks v := by
  rw [Vec.eq_slots hv, Vec.putAll_slots]
  apply List.map_congr_left
  intro σ hσ
  rw [if_pos (Layout.block_mem_blocks hσ)]
  cases σ <;> rfl

/-- How the layout of a problem divides a stacked vector among the knots, and how the solver writes
and reads such vectors. -/
structure Problem.Tiled (p : Problem α) : Prop where
  length_xOffsets : p.layout.xOffsets.length = p.horizon + 1
  length_uOffsets : p.layout.uOffsets.length = p.horizon
  xOffsets : p.layout.xOffsets = p.layout.ndxs.dropLast.scanl (· + ·) 0
  uOffsets : p.layout.uOffsets = p.layout.nus.dropLast.scanl (· + ·) 0
  ndx : p.layout.ndx = p.ndx ∧
    p.ndx = total (p.running.map (·.state.ndx)) + p.terminal.state.ndx
  nu : p.layout.nu = p.nu
  states : Layout.Fills p.layout.xOffsets p.layout.ndxs 0 p.layout.ndx
  controls : Layout.Fills p.layout.uOffsets p.layout.nus p.layout.ndx p.layout.nprimal
  costates : Layout.Fills p.layout.xOffsets p.layout.ndxs p.layout.nprimal p.layout.size
  unique : ∀ k < p.layout.size, ∃! b, b ∈ p.layout.blocks ∧ p.layout.start b ≤ k ∧
    k < p.layout.start b + p.layout.extent b
  written : ∀ (vs : Block → Vec α) (bs : List Block) (v : Vec α), v.length = p.layout.size →
    (∀ b ∈ bs, (vs b).length = p.layout.extent b) → ∀ b,
      Vec.block p.layout b (Vec.putAll p.layout vs bs v) =
        if b ∈ bs then vs b else Vec.block p.layout b v
  overwritten : ∀ (vs : Block → Vec α) (v : Vec α), v.length = p.layout.size →
    (∀ b ∈ p.layout.blocks, (vs b).length = p.layout.extent b) →
      Vec.putAll p.layout vs p.layout.blocks v = (p.layout.blocks.map vs).flatten
  joined : ∀ v : Vec α, v.length = p.layout.size →
    (p.layout.blocks.map fun b => Vec.block p.layout b v).flatten = v
  assembled : ∀ (ks : Knots α) (gaps : List (Vec α)) (v : Vec α), v.length = p.layout.size →
    (System.assemble p.layout ks gaps).residual =
      Vec.putAll p.layout (System.part ks gaps) p.layout.blocks v
  extracted : ∀ (s : Solver α) (z : Vec α), s.problem = p →
    s.direction.primal.length = p.layout.nprimal → s.direction.dual.length = p.layout.ndx →
    z = s.direction.primal ++ s.direction.dual →
      s.splitDirection.direction.dxs =
          (List.range (p.horizon + 1)).map (fun t => Vec.block p.layout (.state t) z) ∧
        s.splitDirection.direction.dus =
          (List.range p.horizon).map (fun t => Vec.block p.layout (.control t) z) ∧
        s.splitDirection.direction.lambdas =
          (List.range (p.horizon + 1)).map (fun t => Vec.block p.layout (.costate t) z)

/-- The slices of a problem fill the stacked vector, whatever the dimensions of its knots. What is
written into them is read from them, and what is read makes up the vector. -/
theorem Problem.tiled (p : Problem α) (h : 0 < p.horizon) : p.Tiled where
  length_xOffsets := (Layout.length_offsets _).trans (Layout.length_ndxs p)
  length_uOffsets := (Layout.length_offsets _).trans (Layout.length_nus p)
  xOffsets := by
    apply Layout.offsets_eq_scanl
    rw [← List.length_pos_iff, Layout.length_ndxs]
    exact Nat.succ_pos _
  uOffsets := by
    apply Layout.offsets_eq_scanl
    rwa [← List.length_pos_iff, Layout.length_nus]
  ndx := by
    refine ⟨rfl, ?_⟩
    rw [ndx, models, List.map_append]
    exact List.sum_append
  nu := rfl
  states := by
    have hfills := Layout.fills_offsets p.layout.ndxs 0
    rwa [Nat.zero_add] at hfills
  controls := Layout.fills_offsets p.layout.nus p.layout.ndx
  costates := by
    rw [Layout.size_eq]
    exact Layout.fills_offsets p.layout.ndxs p.layout.nprimal
  unique _ hk := Layout.existsUnique_block hk
  written _ _ _ hv hlen := Vec.block_putAll hv hlen
  overwritten _ _ hv hlen := Vec.putAll_blocks hv hlen
  joined _ hv := Layout.flatten_blocks hv
  assembled ks gaps _ hv := System.residual_assemble_eq_putAll hv ks gaps
  extracted := by
    rintro s z rfl hprimal hdual rfl
    have hx := Layout.length_take_ndx hprimal
    have hu := Layout.length_drop_ndx hprimal
    have hjoin : s.direction.primal ++ s.direction.dual =
        s.direction.primal.take s.problem.layout.ndx ++
          (s.direction.primal.drop s.problem.layout.ndx ++ s.direction.dual) := by
      rw [← List.append_assoc, List.take_append_drop]
    refine ⟨?_, ?_, ?_⟩
    · rw [hjoin, ← Layout.length_ndxs]
      exact (Layout.map_block_state hx _).symm
    · rw [hjoin, ← Layout.length_nus]
      exact (Layout.map_block_control hx hu _).symm
    · rw [← Layout.length_ndxs]
      exact (Layout.map_block_costate hprimal hdual).symm

theorem Problem.tiled_uneven :
    let m : Model ℝ := { Model.resting 2 with next := .euclidean 1 }
    let p : Problem ℝ := { x0 := [0, 0], running := [m, .integrator 1], terminal := .resting 1 }
    build (.ofVec [0, 0]) [m, .integrator 1] (.resting 1) = .ok p ∧ 0 < p.horizon ∧
      p.layout.xOffsets = [0, 2, 3] ∧ p.layout.uOffsets = [0, 0] ∧
      (∃! t, t < 2 ∧ 4 + [0, 0].getD t 0 ≤ 4 ∧ 4 < 4 + [0, 0].getD t 0 + [0, 1].getD t 0) ∧
      ∀ v : Vec ℝ, v.length = 9 →
        Vec.block p.layout (.control 1)
            (Vec.putAll p.layout (fun _ => [7]) [.control 1] v) = [7] ∧
          (p.layout.blocks.map fun b => Vec.block p.layout b v).flatten = v := by
  intro m p
  have hpos : 0 < p.horizon := Nat.succ_pos _
  have htiled := tiled p hpos
  refine ⟨rfl, hpos, rfl, rfl, htiled.controls.covers 4 le_rfl (by decide), fun v hv => ⟨?_, ?_⟩⟩
  · have hlen : ∀ b ∈ [Block.control 1], ([7] : Vec ℝ).length = p.layout.extent b := by
      rintro b hb
      rw [List.mem_singleton.mp hb]
      rfl
    exact (htiled.written _ _ v hv hlen _).trans (if_pos (List.mem_singleton.mpr rfl))
  · exact htiled.joined v hv

end Shooting
