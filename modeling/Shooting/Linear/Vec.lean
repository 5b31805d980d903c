import Shooting.Scalar

/-! # Vectors

Vectors are lists of scalars. Two operands are matched entry by entry, and the shorter one decides
the length of the result.
-/

namespace Shooting

abbrev Vec (α : Type) := List α

namespace Vec
variable {α : Type} [Scalar α]

def zeros (n : Nat) : Vec α := List.replicate n 0

def add (v w : Vec α) : Vec α := List.zipWith (· + ·) v w

def sub (v w : Vec α) : Vec α := List.zipWith (· - ·) v w

def neg (v : Vec α) : Vec α := v.map (- ·)

def scale (a : α) (v : Vec α) : Vec α := v.map (a * ·)

def dot (v w : Vec α) : α := (List.zipWith (· * ·) v w).sum

def normSq (v : Vec α) : α := (v.map fun a => a * a).sum

def allFinite (v : Vec α) : Bool := v.all Scalar.isFinite

/-- Entry `i`; a position past the end reads the last entry. -/
def coord (v : Vec α) (i : Nat) : α := v.getD i (v.getLastD 0)

@[simp] theorem length_zeros (n : Nat) : (zeros n : Vec α).length = n := List.length_replicate

@[simp] theorem length_add (v w : Vec α) : (add v w).length = min v.length w.length :=
  List.length_zipWith

@[simp] theorem length_sub (v w : Vec α) : (sub v w).length = min v.length w.length :=
  List.length_zipWith

@[simp] theorem length_neg (v : Vec α) : (neg v).length = v.length := List.length_map _

@[simp] theorem length_scale (a : α) (v : Vec α) : (scale a v).length = v.length :=
  List.length_map _

theorem coord_eq_getElem {v : Vec α} {i : Nat} (h : i < v.length) : v.coord i = v[i] := by
  simp [coord, h]

end Vec
end Shooting
