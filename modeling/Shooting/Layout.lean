import Shooting.Problem

/-! # Block layout

How the increments and multipliers of all knots are stacked into one vector: first the state
increments, then the control increments, then the multipliers, which are ordered like the states.
Knots may differ in their dimensions.
-/

namespace Shooting

/-- The meaning of one position in the stacked vector: a knot and an entry there. -/
inductive Slot
  | state (t i : Nat)
  | control (t i : Nat)
  | costate (t i : Nat)
deriving DecidableEq

structure Layout where
  ndxs : List Nat
  nus : List Nat
deriving DecidableEq

namespace Layout

def ofProblem {α : Type} (p : Problem α) : Layout where
  ndxs := p.models.map (·.state.ndx)
  nus := p.running.map (·.nu)

/-- Where each block starts when blocks of the given sizes stand side by side. -/
def offsets : List Nat → List Nat
  | [] => []
  | d :: ds => 0 :: (offsets ds).map (d + ·)

def split {α : Type} : List Nat → List α → List (List α)
  | [], _ => []
  | d :: ds, v => v.take d :: split ds (v.drop d)

def xOffsets (l : Layout) : List Nat := offsets l.ndxs

def uOffsets (l : Layout) : List Nat := offsets l.nus

def ndx (l : Layout) : Nat := total l.ndxs

def nu (l : Layout) : Nat := total l.nus

def horizon (l : Layout) : Nat := l.nus.length

def nprimal (l : Layout) : Nat := l.ndx + l.nu

def size (l : Layout) : Nat := 2 * l.ndx + l.nu

def positions (dims : List Nat) : List (Nat × Nat) :=
  (dims.mapIdx fun t d => (List.range d).map fun i => (t, i)).flatten

def slots (l : Layout) : List Slot :=
  (positions l.ndxs).map (fun (t, i) => .state t i) ++
  (positions l.nus).map (fun (t, i) => .control t i) ++
  (positions l.ndxs).map (fun (t, i) => .costate t i)

@[simp] theorem length_offsets (dims : List Nat) : (offsets dims).length = dims.length := by
  induction dims with
  | nil => rfl
  | cons d ds ih => simp [offsets, ih]

@[simp] theorem length_split {α : Type} (dims : List Nat) (v : List α) :
    (split dims v).length = dims.length := by
  induction dims generalizing v with
  | nil => rfl
  | cons d ds ih => simp [split, ih]

theorem flatten_split {α : Type} {dims : List Nat} {v : List α} (h : v.length = total dims) :
    (split dims v).flatten = v := by
  induction dims generalizing v with
  | nil => simpa [split, total, eq_comm] using h
  | cons d ds ih =>
    have hd : (v.drop d).length = total ds := by
      simp only [List.length_drop, h, total, List.foldr_cons]
      omega
    simp [split, ih hd]

theorem split_flatten {α : Type} (vs : List (List α)) : split (vs.map List.length) vs.flatten = vs := by
  induction vs with
  | nil => rfl
  | cons v vs ih => simp [split, ih]

end Layout
end Shooting
