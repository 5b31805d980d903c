import Mathlib.LinearAlgebra.Matrix.Rank
import Shooting.Proofs.RangeSpace

/-! # Saddle-point systems of any size

The kernel solves a system `[H Aᵀ; A *]` exactly if `H` is positive definite and `A` has full row
rank, and what it finds is the one solution. It sees the matrix only through the lower triangle of
`H` and through `A`, so neither what is above the diagonal nor what is to the right of `A` makes a
difference.
-/

namespace Shooting

open Matrix

variable {K : Type} [ExactScalar K] {m n : ℕ}

theorem independentRows_iff_rank_eq {A : Matrix (Fin m) (Fin n) K} :
    IndependentRows A ↔ A.rank = m := by
  have hlinear : IndependentRows A ↔ LinearIndependent K A.row := by
    rw [← vecMul_injective_iff, ← coe_vecMulLinear, ← LinearMap.ker_eq_bot, LinearMap.ker_eq_bot']
    simp only [IndependentRows, mulVec_transpose, vecMulLinear_apply]
  rw [hlinear, linearIndependent_iff_card_eq_finrank_span, Fintype.card_fin,
    rank_eq_finrank_span_row, Set.finrank, eq_comm]

namespace Mat

theorem ext_entry {M M' : Mat K} (hlen : M.length = M'.length)
    (hrows : ∀ i (hi : i < M.length), M[i].length = M'[i].length)
    (h : ∀ i (hi : i < M.length), ∀ j < M[i].length, M.entry i j = M'.entry i j) : M = M' := by
  apply List.ext_getElem hlen
  intro i hi hi'
  apply List.ext_getElem (hrows i hi)
  intro j hj hj'
  simpa [entry_eq, hi, hi', hj, hj'] using h i hi j hj

/-- The rows, each up to and with its diagonal entry. -/
def lowerRows {α : Type} (M : Mat α) : Mat α := M.mapIdx fun i row => row.take (i + 1)

theorem lowerRows_eq {M M' : Mat K} (hM : M.length = n) (hM' : M'.length = n)
    (hrows : ∀ row ∈ M, n ≤ row.length) (hrows' : ∀ row ∈ M', n ≤ row.length)
    (h : lower n M = lower n M') : lowerRows M = lowerRows M' := by
  have hlength {N : Mat K} (hN : N.length = n) (hNrows : ∀ row ∈ N, n ≤ row.length) {i : ℕ}
      (hi : i < (lowerRows N).length) : (lowerRows N)[i].length = i + 1 := by
    have hi' : i < N.length := by simpa [lowerRows] using hi
    have hle := hNrows N[i] (List.getElem_mem hi')
    simp only [lowerRows, List.getElem_mapIdx, List.length_take]
    omega
  have hentry {N : Mat K} (hN : N.length = n) {i j : ℕ} (hi : i < n) (hj : j ≤ i) :
      (lowerRows N).entry i j = lower n N ⟨i, hi⟩ ⟨j, hj.trans_lt hi⟩ := by
    have hlt : i < N.length := hN ▸ hi
    simp [lowerRows, entry_eq, lower, hj, hlt, List.getElem?_take_of_lt (Nat.lt_succ_of_le hj)]
  have hlen : (lowerRows M).length = (lowerRows M').length := by simp [lowerRows, hM, hM']
  apply ext_entry hlen
  · intro i hi
    rw [hlength hM hrows, hlength hM' hrows' (hlen ▸ hi)]
  · intro i hi j hj
    have hi' : i < n := by simpa [lowerRows, hM] using hi
    rw [hlength hM hrows] at hj
    rw [hentry hM hi' (Nat.le_of_lt_succ hj), hentry hM' hi' (Nat.le_of_lt_succ hj), h]

end Mat

namespace Cholesky

theorem factor?_lowerRows (M : Mat K) : factor? (Mat.lowerRows M) = factor? M := by
  induction M using List.reverseRecOn with
  | nil => rfl
  | append_singleton M row ih =>
    have hsnoc : Mat.lowerRows (M ++ [row]) = Mat.lowerRows M ++ [row.take (M.length + 1)] :=
      List.mapIdx_concat
    rw [hsnoc, factor?_snoc, factor?_snoc, ih]
    cases hL : factor? M with
    | none => rfl
    | some L =>
      rw [Option.bind_some, Option.bind_some, length_of_factor? hL, List.take_take, min_self]

end Cholesky

namespace RangeSpace

variable {matrix matrix' : Mat K} {rhs : Vec K}

theorem constraintRows_eq (hlen : matrix.length = n + m) (hlen' : matrix'.length = n + m)
    (hrow : ∀ row ∈ matrix, n ≤ row.length) (hrow' : ∀ row ∈ matrix', n ≤ row.length)
    (h : Mat.toMatrix m n (constraintRows matrix n) = Mat.toMatrix m n (constraintRows matrix' n)) :
    constraintRows matrix n = constraintRows matrix' n := by
  obtain ⟨hm, hn⟩ := length_constraintRows hlen hrow
  obtain ⟨hm', hn'⟩ := length_constraintRows hlen' hrow'
  apply Mat.ext_entry (hm.trans hm'.symm)
  · intro i hi
    rw [hn _ (List.getElem_mem hi), hn' _ (List.getElem_mem _)]
  · intro i hi j hj
    rw [hn _ (List.getElem_mem hi)] at hj
    exact congrFun (congrFun h ⟨i, hm ▸ hi⟩) ⟨j, hj⟩

/-- The kernel reads the two blocks only. -/
theorem solve?_congr (hlen : matrix.length = n + m) (hlen' : matrix'.length = n + m)
    (hrow : ∀ row ∈ matrix, n ≤ row.length) (hrow' : ∀ row ∈ matrix', n ≤ row.length)
    (hH : Mat.lower n matrix = Mat.lower n matrix')
    (hA : Mat.toMatrix m n (constraintRows matrix n) = Mat.toMatrix m n (constraintRows matrix' n))
    (rhs : Vec K) : solve? matrix rhs n = solve? matrix' rhs n := by
  have hfactor : Cholesky.factor? (matrix.take n) = Cholesky.factor? (matrix'.take n) := by
    rw [← Cholesky.factor?_lowerRows, ← Cholesky.factor?_lowerRows (matrix'.take n)]
    congr 1
    refine Mat.lowerRows_eq (n := n) (by simp [hlen]) (by simp [hlen'])
      (fun row hr => hrow row (List.mem_of_mem_take hr))
      (fun row hr => hrow' row (List.mem_of_mem_take hr)) ?_
    rw [lower_take, lower_take, hH]
  have hconstraint := constraintRows_eq hlen hlen' hrow hrow' hA
  unfold constraintRows at hconstraint
  unfold solve?
  rw [hfactor, hconstraint]

theorem toMatrix_drop (matrix : Mat K) (m n : ℕ) :
    Mat.toMatrix m n (matrix.drop n) = Mat.toMatrix m n (constraintRows matrix n) := by
  rw [toMatrix_constraintRows]
  ext i j
  simp [Mat.entry_eq]

/-- A solution is found exactly if the Hessian block is positive definite and the constraint block
has full row rank. It is then the one solution of the system, and no other entry of the matrix
matters for it. -/
theorem solves_saddlePoint (hlen : matrix.length = n + m) (hrow : ∀ row ∈ matrix, n ≤ row.length)
    (hrhs : rhs.length = n + m) :
    ((solve? matrix rhs n).isSome ↔
      PositiveDefinite (Mat.lower n matrix) ∧ (Mat.toMatrix m n (matrix.drop n)).rank = m) ∧
    (∀ p l, solve? matrix rhs n = some (p, l) → p.length = n ∧ l.length = m ∧
      ∀ (q : Fin n → K) (k : Fin m → K),
        Stationary (Mat.lower n matrix) (Mat.toMatrix m n (matrix.drop n)) (Vec.toFun n rhs)
          (Vec.toFun m (rhs.drop n)) q k ↔ q = Vec.toFun n p ∧ k = Vec.toFun m l) ∧
    ∀ matrix' : Mat K, matrix'.length = n + m → (∀ row ∈ matrix', n ≤ row.length) →
      Mat.lower n matrix' = Mat.lower n matrix →
      Mat.toMatrix m n (matrix'.drop n) = Mat.toMatrix m n (matrix.drop n) →
        solve? matrix' rhs n = solve? matrix rhs n := by
  have hA := toMatrix_drop matrix m n
  have hsome : (solve? matrix rhs n).isSome ↔ PositiveDefinite (Mat.lower n matrix) ∧
      IndependentRows (Mat.toMatrix m n (matrix.drop n)) := hA ▸ isSome_solve?_iff hlen hrow
  refine ⟨by rw [hsome, independentRows_iff_rank_eq], fun p l hpl => ?_, fun matrix' => ?_⟩
  · obtain ⟨hp, hl, hst⟩ := stationary_of_solve? hlen hrow hrhs hpl
    obtain ⟨hpos, hind⟩ := hsome.mp (by rw [hpl]; rfl)
    rw [← hA] at hst
    refine ⟨hp, hl, fun q k => ⟨fun hqk => ?_, ?_⟩⟩
    · exact hqk.unique hst (Mat.lower_transpose n matrix) hpos hind
    · rintro ⟨rfl, rfl⟩
      exact hst
  · intro hlen' hrow' hH hA'
    rw [toMatrix_drop, hA] at hA'
    exact solve?_congr hlen' hlen hrow' hrow hH hA' rhs

theorem solves_saddlePoint_two :
    let matrix : Mat ℝ := [[2, 7, 1], [1, 2, 0], [1, 0, 5]]
    let rhs : Vec ℝ := [1, 2, 3]
    (∃ p l, solve? matrix rhs 2 = some (p, l) ∧ p.length = 2 ∧ l.length = 1) ∧
      solve? [[2, 0, 0], [1, 2, 9], [1, 0, 4]] rhs 2 = solve? matrix rhs 2 := by
  intro matrix rhs
  have hrow : ∀ row ∈ matrix, 2 ≤ row.length := by simp [matrix]
  have hlen : matrix.length = 2 + 1 := rfl
  have hrhs : rhs.length = 2 + 1 := rfl
  obtain ⟨hsome, hunique, hcongr⟩ := solves_saddlePoint hlen hrow hrhs
  have hH : Mat.lower 2 matrix = !![2, 1; 1, 2] := by
    ext i j
    fin_cases i <;> fin_cases j <;> rfl
  have hA : Mat.toMatrix 1 2 (matrix.drop 2) = !![1, 0] := by
    ext i j
    fin_cases i
    fin_cases j <;> rfl
  have hpos : PositiveDefinite (Mat.lower 2 matrix) := by
    rw [hH]
    intro v hv
    have hform : v ⬝ᵥ !![2, 1; 1, 2] *ᵥ v = v 0 ^ 2 + v 1 ^ 2 + (v 0 + v 1) ^ 2 := by
      simp [mulVec, dotProduct, Fin.sum_univ_two]
      ring
    rw [hform]
    have hsum := sq_nonneg (v 0 + v 1)
    by_cases h₀ : v 0 = 0
    · have h₁ : v 1 ≠ 0 := fun h₁ => hv (funext (Fin.forall_fin_two.mpr ⟨h₀, h₁⟩))
      positivity
    · positivity
  have hrank : (Mat.toMatrix 1 2 (matrix.drop 2)).rank = 1 := by
    rw [← independentRows_iff_rank_eq, hA]
    intro y hy
    have hy₀ := congrFun hy 0
    simp [mulVec, dotProduct] at hy₀
    exact funext (Fin.forall_fin_one.mpr hy₀)
  constructor
  · obtain ⟨⟨p, l⟩, hpl⟩ := Option.isSome_iff_exists.mp (hsome.mpr ⟨hpos, hrank⟩)
    obtain ⟨hp, hl, -⟩ := hunique p l hpl
    exact ⟨p, l, hpl, hp, hl⟩
  · refine hcongr _ rfl (by simp) ?_ ?_
    · rw [hH]
      ext i j
      fin_cases i <;> fin_cases j <;> rfl
    · rw [hA]
      ext i j
      fin_cases i
      fin_cases j <;> rfl

end RangeSpace
end Shooting
