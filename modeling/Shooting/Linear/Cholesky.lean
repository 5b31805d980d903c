import Shooting.Linear.Mat

/-! # Cholesky factorization

A symmetric matrix is factored row by row. A factor is the list of the rows of a lower triangular
matrix, row `i` holding its `i + 1` entries up to the diagonal.
-/

namespace Shooting.Cholesky
variable {α : Type} [Scalar α]

def forward (L : Mat α) (b : Vec α) : Vec α :=
  (L.zip b).foldl (fun y (row, c) => y ++ [(c - Vec.dot row y) / row.getLastD 0]) []

/-- Solves `Lᵀ x = b` from the last unknown on; the rows of `L` are given last first. -/
def backwardRev : Mat α → Vec α → Vec α
  | [], _ => []
  | row :: above, b =>
    let n := above.length
    let x := b.getD n 0 / row.getD n 0
    backwardRev above (List.zipWith (fun c l => c - x * l) (b.take n) row) ++ [x]

def backward (L : Mat α) (b : Vec α) : Vec α := backwardRev L.reverse b

def solve (L : Mat α) (b : Vec α) : Vec α := backward L (forward L b)

/-- Appends one row to a factor, given that row of the matrix up to and with its diagonal entry.
There is none unless the pivot is positive. -/
def extend? (L : Mat α) (row : Vec α) : Option (Mat α) :=
  let l := forward L row
  let pivot := row.getD L.length 0 - Vec.dot l l
  if Scalar.lt 0 pivot then some (L ++ [l ++ [Scalar.sqrt pivot]]) else none

/-- The factor of the symmetric matrix with the given lower triangle; what stands above the
diagonal is not read. -/
def factor? (M : Mat α) : Option (Mat α) :=
  M.foldlM (fun L row => extend? L (row.take (L.length + 1))) []

@[simp] theorem length_backwardRev (L : Mat α) (b : Vec α) : (backwardRev L b).length = L.length := by
  induction L generalizing b with
  | nil => rfl
  | cons row above ih => simp [backwardRev, ih]

@[simp] theorem length_solve (L : Mat α) (b : Vec α) : (solve L b).length = L.length := by
  simp [solve, backward]

theorem length_of_extend? {L L' : Mat α} {row : Vec α} (h : extend? L row = some L') :
    L'.length = L.length + 1 := by
  simp only [extend?, Option.ite_none_right_eq_some, Option.some.injEq] at h
  obtain ⟨-, rfl⟩ := h
  simp

theorem length_of_factor? {M L : Mat α} (h : factor? M = some L) : L.length = M.length := by
  have hfold (M L₀ L : Mat α) (h : M.foldlM (fun L row => extend? L (row.take (L.length + 1))) L₀ =
      some L) : L.length = L₀.length + M.length := by
    induction M generalizing L₀ with
    | nil =>
      cases h
      rfl
    | cons row M ih =>
      rw [List.foldlM_cons] at h
      obtain ⟨L₁, hL₁, h⟩ := Option.bind_eq_some_iff.mp h
      rw [ih L₁ h, length_of_extend? hL₁, List.length_cons]
      omega
  simpa using hfold M [] L h

end Shooting.Cholesky
