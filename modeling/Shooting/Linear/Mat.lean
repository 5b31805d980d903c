import Shooting.Linear.Vec

/-! # Matrices

Matrices are lists of rows. Entries outside the rows read as zero.
-/

namespace Shooting

abbrev Mat (α : Type) := List (List α)

namespace Mat
variable {α : Type} [Scalar α]

def ofFn (m n : Nat) (f : Nat → Nat → α) : Mat α :=
  (List.range m).map fun i => (List.range n).map (f i)

def zeros (m n : Nat) : Mat α := ofFn m n fun _ _ => 0

def identity (n : Nat) : Mat α := ofFn n n fun i j => if i = j then 1 else 0

def entry (M : Mat α) (i j : Nat) : α := (M.getD i []).getD j 0

/-- The rows from `i` on, at most `m` of them, each cut to the columns from `j` on, at most `n`. -/
def block (M : Mat α) (i m j n : Nat) : Mat α :=
  ((M.drop i).take m).map fun row => (row.drop j).take n

def mulVec (M : Mat α) (v : Vec α) : Vec α := M.map fun row => Vec.dot row v

def combine (n : Nat) (M : Mat α) (coeffs : Vec α) : Vec α :=
  (List.zipWith Vec.scale coeffs M).foldr Vec.add (Vec.zeros n)

def diagonal (M : Mat α) (n : Nat) : Vec α := (List.range n).map fun i => entry M i i

def setDiagonal (M : Mat α) (d : Vec α) : Mat α :=
  M.mapIdx fun i row => match d[i]? with
    | some a => row.set i a
    | none => row

omit [Scalar α] in
@[simp] theorem length_ofFn (m n : Nat) (f : Nat → Nat → α) : (ofFn m n f).length = m := by
  simp [ofFn]

theorem entry_ofFn {m n i j : Nat} (f : Nat → Nat → α) (hi : i < m) (hj : j < n) :
    entry (ofFn m n f) i j = f i j := by
  simp [entry, ofFn, hi, hj]

@[simp] theorem length_mulVec (M : Mat α) (v : Vec α) : (mulVec M v).length = M.length :=
  List.length_map _

theorem length_combine {n : Nat} {M : Mat α} (h : ∀ row ∈ M, row.length = n) (c : Vec α) :
    (combine n M c).length = n := by
  induction M generalizing c with
  | nil => simp [combine]
  | cons row M ih =>
    cases c with
    | nil => simp [combine]
    | cons a c =>
      have hr : row.length = n := h row (by simp)
      have hc : combine n (row :: M) (a :: c) = Vec.add (Vec.scale a row) (combine n M c) := rfl
      rw [hc, Vec.length_add, Vec.length_scale, ih (fun r hm => h r (by simp [hm])), hr, Nat.min_self]

omit [Scalar α] in
@[simp] theorem length_setDiagonal (M : Mat α) (d : Vec α) : (setDiagonal M d).length = M.length :=
  List.length_mapIdx

end Mat
end Shooting
