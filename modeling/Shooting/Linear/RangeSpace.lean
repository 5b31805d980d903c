import Shooting.Linear.Cholesky

/-! # Range-space solution of an equality constrained quadratic program

For a matrix `[H Aᵀ; A *]` and a right-hand side `(g, c)`, the step `p` and the multipliers `l` with
`H p + Aᵀ l = -g` and `A p = -c` come from two factorizations, of `H` and of `A H⁻¹ Aᵀ`.
-/

namespace Shooting.RangeSpace
variable {α : Type} [Scalar α]

def gram (A W : Mat α) : Mat α :=
  (A.zip W).map fun (a, w) => (A.zip W).map fun (b, v) =>
    Scalar.half * (Vec.dot a v + Vec.dot b w)

/-- The step and the multipliers, unless a factorization fails or leaves the finite numbers. Of the
matrix only the lower triangle of `H` and the block `A` are read. -/
def solve? (matrix : Mat α) (rhs : Vec α) (nprimal : Nat) : Option (Vec α × Vec α) := do
  let A : Mat α := (matrix.drop nprimal).map (·.take nprimal)
  let g := rhs.take nprimal
  let c := rhs.drop nprimal
  let LH ← Cholesky.factor? (matrix.take nprimal)
  let W := A.map (Cholesky.solve LH)
  let h := Cholesky.solve LH g
  let LS ← Cholesky.factor? (gram A W)
  let dual := Cholesky.solve LS (Vec.sub c (Mat.mulVec A h))
  let primal := Vec.sub (Vec.neg h) (Mat.combine nprimal W dual)
  if LH.all Vec.allFinite && LS.all Vec.allFinite && Vec.allFinite primal then
    some (primal, dual)
  else none

theorem length_of_solve? {matrix : Mat α} {rhs : Vec α} {nprimal : Nat} {primal dual : Vec α}
    (h : solve? matrix rhs nprimal = some (primal, dual)) (hn : nprimal ≤ matrix.length) :
    primal.length = nprimal := by
  unfold solve? at h
  obtain ⟨LH, hLH, h⟩ := Option.bind_eq_some_iff.mp h
  obtain ⟨LS, hLS, h⟩ := Option.bind_eq_some_iff.mp h
  have hlen : LH.length = nprimal := by
    rw [Cholesky.length_of_factor? hLH, List.length_take, Nat.min_eq_left hn]
  have hcomb (A : Mat α) (c : Vec α) :
      (Mat.combine nprimal (A.map (Cholesky.solve LH)) c).length = nprimal := by
    apply Mat.length_combine
    intro row hrow
    obtain ⟨a, -, rfl⟩ := List.mem_map.mp hrow
    rw [Cholesky.length_solve, hlen]
  dsimp only at h
  split at h
  · cases h
    rw [Vec.length_sub, Vec.length_neg, Cholesky.length_solve, hlen, hcomb, Nat.min_self]
  · cases h

theorem length_dual_of_solve? {matrix : Mat α} {rhs : Vec α} {nprimal : Nat} {primal dual : Vec α}
    (h : solve? matrix rhs nprimal = some (primal, dual)) :
    dual.length = matrix.length - nprimal := by
  unfold solve? at h
  obtain ⟨LH, hLH, h⟩ := Option.bind_eq_some_iff.mp h
  obtain ⟨LS, hLS, h⟩ := Option.bind_eq_some_iff.mp h
  dsimp only at h
  split at h
  · cases h
    rw [Cholesky.length_solve, Cholesky.length_of_factor? hLS]
    simp [gram]
  · cases h

/-- First and second order terms of the decrease that the quadratic model predicts for a step. -/
def improvement (matrix : Mat α) (rhs primal : Vec α) : α × α :=
  let n := primal.length
  (Vec.dot (Vec.neg (rhs.take n)) primal,
    Vec.dot (Vec.neg (Mat.mulVec (Mat.block matrix 0 n 0 n) primal)) primal)

end Shooting.RangeSpace
