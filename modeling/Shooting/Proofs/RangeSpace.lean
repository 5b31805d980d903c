import Mathlib.Tactic.Abel
import Shooting.Proofs.Cholesky
import Shooting.Linear.RangeSpace

/-! # The range-space solution over exact scalars

The two factorizations succeed exactly if the Hessian block is positive definite and the constraint
block has independent rows. The step and the multipliers are then the one solution of the optimality
system, and the step is the one minimizer of the quadratic program.
-/

namespace Shooting

open Matrix

variable {K : Type} [ExactScalar K] {m n : ℕ}

/-- A step and multipliers that satisfy the optimality conditions of the quadratic program with
Hessian `H`, gradient `g` and constraint `A p + c = 0`. -/
structure Stationary (H : Matrix (Fin n) (Fin n) K) (A : Matrix (Fin m) (Fin n) K) (g : Fin n → K)
    (c : Fin m → K) (p : Fin n → K) (l : Fin m → K) : Prop where
  gradient : H *ᵥ p + Aᵀ *ᵥ l = -g
  constraint : A *ᵥ p = -c

def IndependentRows (A : Matrix (Fin m) (Fin n) K) : Prop := ∀ y : Fin m → K, Aᵀ *ᵥ y = 0 → y = 0

def quadratic (H : Matrix (Fin n) (Fin n) K) (g p : Fin n → K) : K :=
  1 / 2 * (p ⬝ᵥ H *ᵥ p) + g ⬝ᵥ p

structure UniqueMinimizer (H : Matrix (Fin n) (Fin n) K) (A : Matrix (Fin m) (Fin n) K)
    (g : Fin n → K) (c : Fin m → K) (p : Fin n → K) : Prop where
  constraint : A *ᵥ p = -c
  lt : ∀ q, A *ᵥ q = -c → q ≠ p → quadratic H g p < quadratic H g q

section Abstract

variable {H : Matrix (Fin n) (Fin n) K} {A : Matrix (Fin m) (Fin n) K} {g : Fin n → K}
  {c : Fin m → K} {p q : Fin n → K} {l k : Fin m → K}

theorem dotProduct_mulVec_symm (hH : Hᵀ = H) (v w : Fin n → K) : v ⬝ᵥ H *ᵥ w = w ⬝ᵥ H *ᵥ v := by
  rw [dotProduct_mulVec, ← mulVec_transpose, hH, dotProduct_comm]

theorem quadratic_add (hH : Hᵀ = H) (g p q : Fin n → K) :
    quadratic H g (p + q) = quadratic H g p + (H *ᵥ p + g) ⬝ᵥ q + 1 / 2 * (q ⬝ᵥ H *ᵥ q) := by
  have hs := dotProduct_mulVec_symm hH p q
  have hc : H *ᵥ p ⬝ᵥ q = q ⬝ᵥ H *ᵥ p := dotProduct_comm _ _
  simp only [quadratic, mulVec_add, dotProduct_add, add_dotProduct, hc, hs]
  ring

/-- At a stationary step the quadratic model exceeds its value by half the quadratic form, on every
step that meets the same constraint. -/
theorem Stationary.quadratic_eq (h : Stationary H A g c p l) (hH : Hᵀ = H) (hq : A *ᵥ q = -c) :
    quadratic H g q = quadratic H g p + 1 / 2 * ((q - p) ⬝ᵥ H *ᵥ (q - p)) := by
  have hker : A *ᵥ (q - p) = 0 := by rw [mulVec_sub, hq, h.constraint, sub_self]
  have hgrad : (H *ᵥ p + g) ⬝ᵥ (q - p) = 0 := by
    have hg : H *ᵥ p + g = -(Aᵀ *ᵥ l) := by
      rw [eq_neg_iff_add_eq_zero, add_right_comm, h.gradient, neg_add_cancel]
    rw [hg, neg_dotProduct, dotProduct_comm, dotProduct_mulVec, ← mulVec_transpose,
      transpose_transpose, hker, zero_dotProduct, neg_zero]
  have := quadratic_add hH g p (q - p)
  rw [add_sub_cancel, hgrad, add_zero] at this
  exact this

/-- A stationary step of a convex program is its one minimizer. -/
theorem Stationary.uniqueMinimizer (h : Stationary H A g c p l) (hH : Hᵀ = H)
    (hp : PositiveDefinite H) : UniqueMinimizer H A g c p := by
  constructor
  · exact h.constraint
  · intro q hq hne
    have hpos := hp (q - p) (sub_ne_zero.mpr hne)
    rw [h.quadratic_eq hH hq]
    linarith

/-- Along a stationary step the cost falls as fast as it curves, but for what the constraints are worth
at the multipliers. -/
theorem Stationary.gradient_dotProduct_eq (h : Stationary H A g c p l) :
    g ⬝ᵥ p = l ⬝ᵥ c - p ⬝ᵥ H *ᵥ p := by
  have hdual : p ⬝ᵥ Aᵀ *ᵥ l = -(l ⬝ᵥ c) := by
    rw [dotProduct_mulVec, vecMul_transpose, h.constraint, neg_dotProduct, dotProduct_comm]
  have hg : p ⬝ᵥ (H *ᵥ p + Aᵀ *ᵥ l) = p ⬝ᵥ -g := by rw [h.gradient]
  rw [dotProduct_add, hdual, dotProduct_neg, dotProduct_comm p g] at hg
  linarith

theorem Stationary.gradient_dotProduct (h : Stationary H A g c p l) (hc : c = 0) :
    g ⬝ᵥ p = -(p ⬝ᵥ H *ᵥ p) := by
  rw [h.gradient_dotProduct_eq, hc, dotProduct_zero, zero_sub]

theorem Stationary.gradient_iff (h : Stationary H A g c p l) (hA : IndependentRows A) :
    H *ᵥ p + Aᵀ *ᵥ k = -g ↔ k = l := by
  constructor
  · intro hk
    rw [← sub_eq_zero]
    refine hA _ ?_
    rw [mulVec_sub, sub_eq_zero]
    exact add_left_cancel (hk.trans h.gradient.symm)
  · rintro rfl
    exact h.gradient

theorem Stationary.unique (h : Stationary H A g c p l) (h' : Stationary H A g c q k) (hH : Hᵀ = H)
    (hp : PositiveDefinite H) (hA : IndependentRows A) : p = q ∧ l = k := by
  obtain rfl : p = q := by
    by_contra hne
    have h₁ := (h.uniqueMinimizer hH hp).lt q h'.constraint (Ne.symm hne)
    have h₂ := (h'.uniqueMinimizer hH hp).lt p h.constraint hne
    exact lt_asymm h₁ h₂
  exact ⟨rfl, (h'.gradient_iff hA).mp h.gradient⟩

end Abstract

namespace RangeSpace

section Schur

variable {H : Matrix (Fin n) (Fin n) K} {A W : Matrix (Fin m) (Fin n) K}

theorem schur_eq (hH : Hᵀ = H) (hW : H * Wᵀ = Aᵀ) : A * Wᵀ = W * H * Wᵀ := by
  have hA : A = W * H := by
    rw [← transpose_transpose A, ← hW, transpose_mul, transpose_transpose, hH]
  rw [← hA]

theorem schur_transpose (hH : Hᵀ = H) (hW : H * Wᵀ = Aᵀ) : (A * Wᵀ)ᵀ = A * Wᵀ := by
  rw [schur_eq hH hW, transpose_mul, transpose_mul, transpose_transpose, hH, Matrix.mul_assoc]

/-- The Schur complement of a positive definite block is positive definite exactly if the rows of
the constraint are independent. -/
theorem positiveDefinite_schur_iff (hH : Hᵀ = H) (hp : PositiveDefinite H) (hW : H * Wᵀ = Aᵀ) :
    PositiveDefinite (A * Wᵀ) ↔ IndependentRows A := by
  have hform (y : Fin m → K) : y ⬝ᵥ (A * Wᵀ) *ᵥ y = Wᵀ *ᵥ y ⬝ᵥ H *ᵥ (Wᵀ *ᵥ y) := by
    rw [schur_eq hH hW, ← mulVec_mulVec, ← mulVec_mulVec, dotProduct_mulVec, ← mulVec_transpose]
  have hA (y : Fin m → K) : Aᵀ *ᵥ y = H *ᵥ (Wᵀ *ᵥ y) := by rw [← hW, mulVec_mulVec]
  constructor
  · intro hS y hy
    refine hS.eq_zero ?_
    have hz : Wᵀ *ᵥ y = 0 := hp.eq_zero ((hA y).symm.trans hy)
    rw [← mulVec_mulVec, hz, mulVec_zero]
  · intro hi y hy
    rw [hform]
    refine hp _ fun hz => hy (hi y ?_)
    rw [hA, hz, mulVec_zero]

theorem stationary_of_eliminated {g h : Fin n → K} {c d : Fin m → K} (hW : H * Wᵀ = Aᵀ)
    (hh : H *ᵥ h = g) (hd : (A * Wᵀ) *ᵥ d = c - A *ᵥ h) :
    Stationary H A g c (-h - Wᵀ *ᵥ d) d where
  gradient := by rw [mulVec_sub, mulVec_neg, hh, mulVec_mulVec, hW, sub_add_cancel]
  constraint := by
    rw [mulVec_sub, mulVec_neg, mulVec_mulVec, hd]
    abel

end Schur

section Solve

variable {matrix : Mat K} {rhs : Vec K}

theorem entry_gram {A W : Mat K} (hlen : W.length = A.length) {i j : ℕ} (hi : i < A.length)
    (hj : j < A.length) :
    (gram A W).entry i j =
      1 / 2 * (Vec.dot (A.getD i []) (W.getD j []) + Vec.dot (A.getD j []) (W.getD i [])) := by
  have hi' : i < W.length := hlen ▸ hi
  have hj' : j < W.length := hlen ▸ hj
  simp [Mat.entry_eq, gram, hi, hj, hi', hj']

theorem length_gram {A W : Mat K} (hlen : W.length = A.length) :
    (gram A W).length = A.length ∧ ∀ row ∈ gram A W, row.length = A.length := by
  constructor
  · simp [gram, hlen]
  · intro row hrow
    obtain ⟨_, _, rfl⟩ := List.mem_map.mp hrow
    simp [hlen]

theorem lower_gram {A W : Mat K} {H : Matrix (Fin n) (Fin n) K} (hA : A.length = m)
    (hAn : ∀ row ∈ A, row.length = n) (hlen : W.length = m) (hH : Hᵀ = H)
    (hW : H * (Mat.toMatrix m n W)ᵀ = (Mat.toMatrix m n A)ᵀ) :
    Mat.lower m (gram A W) = Mat.toMatrix m n A * (Mat.toMatrix m n W)ᵀ := by
  have hdot (i j : Fin m) : Vec.dot (A.getD i []) (W.getD j []) =
      (Mat.toMatrix m n A * (Mat.toMatrix m n W)ᵀ) i j := by
    have hi : (i : ℕ) < A.length := hA ▸ i.isLt
    have hle : (A.getD i []).length ≤ n := by
      rw [List.getD_eq_getElem _ _ hi]
      exact (hAn _ (List.getElem_mem hi)).le
    rw [Vec.dot_eq (.inl hle)]
    rfl
  have hsymm (i j : Fin m) : (Mat.toMatrix m n A * (Mat.toMatrix m n W)ᵀ) i j =
      (Mat.toMatrix m n A * (Mat.toMatrix m n W)ᵀ) j i :=
    congrFun (congrFun (schur_transpose hH hW) j) i
  have hentry (i j : Fin m) : (gram A W).entry i j =
      (Mat.toMatrix m n A * (Mat.toMatrix m n W)ᵀ) i j := by
    rw [entry_gram (hlen.trans hA.symm) (hA ▸ i.isLt) (hA ▸ j.isLt), hdot, hdot, hsymm j i]
    ring
  ext i j
  rw [Mat.lower, of_apply]
  split
  · exact hentry i j
  · rw [hentry j i, hsymm]

def constraintRows (matrix : Mat K) (n : ℕ) : Mat K := (matrix.drop n).map (·.take n)

theorem solve?_eq {LH : Mat K} (hLH : Cholesky.factor? (matrix.take n) = some LH) (rhs : Vec K) :
    solve? matrix rhs n =
      let A := constraintRows matrix n
      let W := A.map (Cholesky.solve LH)
      let h := Cholesky.solve LH (rhs.take n)
      (Cholesky.factor? (gram A W)).map fun LS =>
        let dual := Cholesky.solve LS (Vec.sub (rhs.drop n) (Mat.mulVec A h))
        (Vec.sub (Vec.neg h) (Mat.combine n W dual), dual) := by
  have hfin (L : Mat K) : L.all Vec.allFinite = true := by simp [List.all_eq_true]
  simp only [solve?, constraintRows, hLH, Option.bind_eq_bind, Option.bind_some, hfin,
    Vec.allFinite_eq, Bool.and_self, if_true, Option.map_eq_bind]
  rfl

theorem lower_take (matrix : Mat K) (n : ℕ) : Mat.lower n (matrix.take n) = Mat.lower n matrix := by
  ext i j
  simp only [Mat.lower, of_apply, Mat.entry_eq, List.getD_eq_getElem?_getD,
    List.getElem?_take_of_lt i.isLt, List.getElem?_take_of_lt j.isLt]

theorem toMatrix_constraintRows (matrix : Mat K) (m n : ℕ) :
    Mat.toMatrix m n (constraintRows matrix n) = .of fun i j => matrix.entry (n + i) j := by
  ext i j
  rcases lt_or_ge (n + i) matrix.length with hi | hi
  · have hi' : (i : ℕ) < matrix.length - n := by omega
    simp [constraintRows, Mat.entry_eq, hi, hi']
  · have hi' : matrix.length - n ≤ (i : ℕ) := by omega
    simp [constraintRows, Mat.entry_eq, hi, hi']

variable (hlen : matrix.length = n + m) (hrow : ∀ row ∈ matrix, n ≤ row.length)
  (hrhs : rhs.length = n + m)

include hlen hrow

omit [ExactScalar K] in
theorem length_constraintRows :
    (constraintRows matrix n).length = m ∧ ∀ row ∈ constraintRows matrix n, row.length = n := by
  constructor
  · simp [constraintRows, hlen]
  · intro row hr
    obtain ⟨r, hr', rfl⟩ := List.mem_map.mp hr
    have := hrow r (List.mem_of_mem_drop hr')
    simpa using this

theorem factors_take {LH : Mat K} (hLH : Cholesky.factor? (matrix.take n) = some LH) :
    Cholesky.Factors LH (matrix.take n) :=
  Cholesky.factors_of_factor? (fun row hr => by
    have := hrow row (List.mem_of_mem_take hr)
    simp only [List.length_take]
    omega) hLH

theorem isSome_factor?_take :
    (Cholesky.factor? (matrix.take n)).isSome ↔ PositiveDefinite (Mat.lower n matrix) := by
  rw [Cholesky.isSome_factor?_iff (n := n) (by simp [hlen])
    fun row hr => hrow row (List.mem_of_mem_take hr), lower_take]

omit hrow in
theorem mulVec_solve_take {LH : Mat K} {b : Vec K} (hLH : Cholesky.Factors LH (matrix.take n))
    (hb : b.length = n) : (Cholesky.solve LH b).length = n ∧
      Mat.lower n matrix *ᵥ Vec.toFun n (Cholesky.solve LH b) = Vec.toFun n b := by
  have htake : (matrix.take n).length = n := by simp [hlen]
  have hLHn : LH.length = n := hLH.length_eq.trans htake
  have hsolve := hLH.mulVec_solve htake hb
  rw [lower_take] at hsolve
  exact ⟨(Cholesky.length_solve _ _).trans hLHn, hsolve⟩

omit hrow in
theorem mul_transpose_solve {LH A : Mat K} (hLH : Cholesky.Factors LH (matrix.take n))
    (hA : ∀ row ∈ A, row.length = n) (hm : A.length = m) :
    Mat.lower n matrix * (Mat.toMatrix m n (A.map (Cholesky.solve LH)))ᵀ =
      (Mat.toMatrix m n A)ᵀ := by
  ext j i
  have hi : (i : ℕ) < A.length := hm ▸ i.isLt
  obtain ⟨-, hrow⟩ := mulVec_solve_take hlen hLH (hA _ (List.getElem_mem hi))
  have hW : Mat.toMatrix m n (A.map (Cholesky.solve LH)) i =
      Vec.toFun n (Cholesky.solve LH A[(i : ℕ)]) := by
    rw [Mat.toMatrix_row]
    simp [hi]
  calc (Mat.lower n matrix * (Mat.toMatrix m n (A.map (Cholesky.solve LH)))ᵀ) j i
      = (Mat.lower n matrix *ᵥ Mat.toMatrix m n (A.map (Cholesky.solve LH)) i) j := rfl
    _ = Vec.toFun n A[(i : ℕ)] j := by rw [hW, hrow]
    _ = (Mat.toMatrix m n A)ᵀ j i := by simp [Mat.entry_eq, hi]

theorem mulVec_solve_gram {LH LS : Mat K} {v : Vec K}
    (hLH : Cholesky.factor? (matrix.take n) = some LH)
    (hLS : Cholesky.factor? (gram (constraintRows matrix n)
      ((constraintRows matrix n).map (Cholesky.solve LH))) = some LS) (hv : v.length = m) :
    (Cholesky.solve LS v).length = m ∧
      (Mat.toMatrix m n (constraintRows matrix n) *
        (Mat.toMatrix m n ((constraintRows matrix n).map (Cholesky.solve LH)))ᵀ) *ᵥ
          Vec.toFun m (Cholesky.solve LS v) = Vec.toFun m v := by
  obtain ⟨hm, hA⟩ := length_constraintRows hlen hrow
  have hW := mul_transpose_solve hlen (factors_take hlen hrow hLH) hA hm
  obtain ⟨hG, hG'⟩ := length_gram (A := constraintRows matrix n)
    (W := (constraintRows matrix n).map (Cholesky.solve LH)) (by simp)
  have hF := Cholesky.factors_of_factor? (fun row hr => by rw [hG, hG' row hr]) hLS
  have hLSm : LS.length = m := hF.length_eq.trans (hG.trans hm)
  have hsolve := hF.mulVec_solve (hG.trans hm) hv
  rw [lower_gram hm hA (by simp [hm]) (Mat.lower_transpose n matrix) hW] at hsolve
  exact ⟨(Cholesky.length_solve _ _).trans hLSm, hsolve⟩

/-- The second factorization cannot fail unless the rows of the constraint block depend on each
other. -/
theorem isSome_factor?_gram_iff {LH : Mat K} (hLH : Cholesky.factor? (matrix.take n) = some LH) :
    (Cholesky.factor? (gram (constraintRows matrix n)
      ((constraintRows matrix n).map (Cholesky.solve LH)))).isSome ↔
      IndependentRows (Mat.toMatrix m n (constraintRows matrix n)) := by
  obtain ⟨hm, hA⟩ := length_constraintRows hlen hrow
  have hF := factors_take hlen hrow hLH
  have hW := mul_transpose_solve hlen hF hA hm
  have hp : PositiveDefinite (Mat.lower n matrix) :=
    (isSome_factor?_take hlen hrow).mp (by rw [hLH]; rfl)
  obtain ⟨hg, hg'⟩ := length_gram (A := constraintRows matrix n)
    (W := (constraintRows matrix n).map (Cholesky.solve LH)) (by simp)
  rw [Cholesky.isSome_factor?_iff (n := m) (hg.trans hm) fun row hr => (hm ▸ hg' row hr).ge,
    lower_gram hm hA (by simp [hm]) (Mat.lower_transpose n matrix) hW,
    positiveDefinite_schur_iff (Mat.lower_transpose n matrix) hp hW]

/-- The kernel succeeds exactly if the Hessian block is positive definite and the rows of the
constraint block are independent. -/
theorem isSome_solve?_iff :
    (solve? matrix rhs n).isSome ↔
      PositiveDefinite (Mat.lower n matrix) ∧
        IndependentRows (Mat.toMatrix m n (constraintRows matrix n)) := by
  rw [← isSome_factor?_take hlen hrow]
  cases hLH : Cholesky.factor? (matrix.take n) with
  | none => simp [solve?, hLH]
  | some LH =>
    rw [solve?_eq hLH, Option.isSome_map, isSome_factor?_gram_iff hlen hrow hLH]
    simp

include hrhs

/-- What the kernel returns satisfies the optimality conditions. -/
theorem stationary_of_solve? {p l : Vec K} (hpl : solve? matrix rhs n = some (p, l)) :
    p.length = n ∧ l.length = m ∧
      Stationary (Mat.lower n matrix) (Mat.toMatrix m n (constraintRows matrix n))
        (Vec.toFun n rhs) (Vec.toFun m (rhs.drop n)) (Vec.toFun n p) (Vec.toFun m l) := by
  obtain ⟨hm, hA⟩ := length_constraintRows hlen hrow
  have hLH' : (Cholesky.factor? (matrix.take n)).isSome := by
    rw [isSome_factor?_take hlen hrow]
    exact ((isSome_solve?_iff hlen hrow).mp (by rw [hpl]; rfl)).1
  obtain ⟨LH, hLH⟩ := Option.isSome_iff_exists.mp hLH'
  have hF := factors_take hlen hrow hLH
  have hW := mul_transpose_solve hlen hF hA hm
  rw [solve?_eq hLH] at hpl
  obtain ⟨LS, hLS, hpl⟩ := Option.map_eq_some_iff.mp hpl
  obtain ⟨rfl, rfl⟩ := Prod.mk.inj hpl
  set A := constraintRows matrix n
  set W := A.map (Cholesky.solve LH)
  have hWn : ∀ row ∈ W, row.length = n := by
    intro row hr
    obtain ⟨a, ha, rfl⟩ := List.mem_map.mp hr
    exact (mulVec_solve_take hlen hF (hA a ha)).1
  obtain ⟨hhn, hh⟩ := mulVec_solve_take hlen hF (b := rhs.take n) (by simp [hrhs])
  rw [Vec.toFun_take] at hh
  set h := Cholesky.solve LH (rhs.take n)
  obtain ⟨hdn, hd⟩ := mulVec_solve_gram hlen hrow hLH hLS
    (v := Vec.sub (rhs.drop n) (Mat.mulVec A h)) (by simp [hrhs, hm, A])
  rw [Vec.toFun_sub (by simp [hrhs, hm, A]), Mat.toFun_mulVec hhn.le] at hd
  have hcomb := Mat.length_combine hWn (Cholesky.solve LS (Vec.sub (rhs.drop n) (Mat.mulVec A h)))
  have hneg : (Vec.neg h).length = n := (Vec.length_neg h).trans hhn
  refine ⟨?_, hdn, ?_⟩
  · rw [Vec.length_sub, hneg, hcomb, min_self]
  · rw [Vec.toFun_sub (hneg.trans hcomb.symm), Vec.toFun_neg,
      Mat.toFun_combine hWn (m := m) (.inl hdn.le)]
    exact stationary_of_eliminated hW hh hd

end Solve

end RangeSpace

end Shooting
