import Mathlib.Data.List.GetD
import Mathlib.LinearAlgebra.Matrix.DotProduct
import Mathlib.Tactic.FieldSimp
import Mathlib.Tactic.LinearCombination
import Shooting.Proofs.Dense
import Shooting.Linear.Cholesky

/-! # Cholesky factorization over exact scalars

A factorization succeeds exactly on positive definite matrices, its factor multiplies out to the
matrix, and the triangular solves invert it. All inductions append the last row.
-/

namespace Shooting

open Matrix

variable {K : Type} [ExactScalar K]

def PositiveDefinite {n : ℕ} (H : Matrix (Fin n) (Fin n) K) : Prop :=
  ∀ v : Fin n → K, v ≠ 0 → 0 < v ⬝ᵥ H *ᵥ v

theorem PositiveDefinite.eq_zero {n : ℕ} {H : Matrix (Fin n) (Fin n) K} (h : PositiveDefinite H)
    {v : Fin n → K} (hv : H *ᵥ v = 0) : v = 0 := by
  by_contra hne
  have := h v hne
  rw [hv, dotProduct_zero] at this
  exact lt_irrefl _ this

namespace Mat

/-- The symmetric matrix with the given lower triangle. -/
def lower (n : ℕ) (M : Mat K) : Matrix (Fin n) (Fin n) K :=
  .of fun i j => if j ≤ i then M.entry i j else M.entry j i

theorem lower_eq_toMatrix {n : ℕ} {M : Mat K}
    (h : ∀ i < n, ∀ j < n, M.entry i j = M.entry j i) : lower n M = toMatrix n n M := by
  ext i j
  simp only [lower, of_apply, toMatrix_apply]
  split
  · rfl
  · exact h j j.isLt i i.isLt

theorem lower_transpose (n : ℕ) (M : Mat K) : (lower n M)ᵀ = lower n M := by
  ext i j
  simp only [lower, transpose_apply, of_apply]
  rcases lt_trichotomy i j with h | rfl | h
  · simp [h.le, h.not_ge]
  · rfl
  · simp [h.le, h.not_ge]

theorem entry_snoc_lt {M : Mat K} {row : Vec K} {i : ℕ} (h : i < M.length) (j : ℕ) :
    entry (M ++ [row]) i j = M.entry i j := by
  simp [entry_eq, h, List.getElem?_append_left h]

theorem entry_snoc_length (M : Mat K) (row : Vec K) (j : ℕ) :
    entry (M ++ [row]) M.length j = row.getD j 0 := by
  simp [entry_eq]

end Mat

namespace Cholesky

/-- The rows of a lower triangular matrix with a positive diagonal. -/
inductive IsFactor : Mat K → Prop
  | nil : IsFactor []
  | snoc {L : Mat K} {l : Vec K} {a : K} : IsFactor L → l.length = L.length → 0 < a →
      IsFactor (L ++ [l ++ [a]])

theorem IsFactor.length_row_le {L : Mat K} (h : IsFactor L) : ∀ row ∈ L, row.length ≤ L.length := by
  induction h with
  | nil => simp
  | @snoc L l a _ hl _ ih =>
    intro row hrow
    rcases List.mem_append.mp hrow with hr | hr
    · have := ih row hr
      simp only [List.length_append, List.length_singleton]
      omega
    · obtain rfl := List.mem_singleton.mp hr
      simp [hl]

theorem IsFactor.length_getD_le {L : Mat K} (h : IsFactor L) (i : ℕ) :
    (L.getD i []).length ≤ L.length := by
  rcases lt_or_ge i L.length with hi | hi
  · rw [List.getD_eq_getElem?_getD, List.getElem?_eq_getElem hi]
    exact h.length_row_le _ (List.getElem_mem hi)
  · simp [hi]

theorem IsFactor.mulVec_snoc {L : Mat K} (h : IsFactor L) {l v : Vec K}
    (hl : l.length = L.length) (hv : v.length = L.length) (a w : K) :
    Mat.mulVec (L ++ [l ++ [a]]) (v ++ [w]) = Mat.mulVec L v ++ [Vec.dot l v + a * w] := by
  have hold : Mat.mulVec L (v ++ [w]) = Mat.mulVec L v := by
    apply List.map_congr_left
    intro row hr
    rw [Vec.dot_comm, Vec.dot_append_left (hv ▸ h.length_row_le row hr), Vec.dot_comm]
  rw [Mat.mulVec, List.map_append, ← Mat.mulVec, hold, List.map_singleton,
    Vec.dot_append (hl.trans hv.symm)]
  simp [Vec.dot]

theorem forward_snoc {L : Mat K} {l b : Vec K} (hb : b.length = L.length)
    (hy : (forward L b).length = l.length) (a c : K) :
    forward (L ++ [l ++ [a]]) (b ++ [c]) =
      forward L b ++ [(c - Vec.dot l (forward L b)) / a] := by
  have hs : forward (L ++ [l ++ [a]]) (b ++ [c]) =
      forward L b ++ [(c - Vec.dot (l ++ [a]) (forward L b)) / (l ++ [a]).getLastD 0] := by
    simp [forward, List.zip_append hb.symm]
  rw [hs, Vec.dot_append_left hy.le, List.getLastD_concat]

theorem forward_take (L : Mat K) (b : Vec K) : forward L (b.take L.length) = forward L b := by
  have hz : L.zip (b.take L.length) = L.zip b := by
    conv_rhs => rw [← List.take_of_length_le (l := L.zip b) (i := L.length) (by simp)]
    rw [List.zip_eq_zipWith, List.zip_eq_zipWith, List.take_zipWith, List.take_length]
  rw [forward, forward, hz]

theorem IsFactor.forward_spec {L : Mat K} (h : IsFactor L) {b : Vec K} (hb : b.length = L.length) :
    (forward L b).length = L.length ∧ Mat.mulVec L (forward L b) = b := by
  induction h generalizing b with
  | nil => simpa [forward, Mat.mulVec, eq_comm] using hb
  | @snoc L l a hL hl ha ih =>
    obtain rfl | ⟨b, c, rfl⟩ := List.eq_nil_or_concat' b
    · simp at hb
    have hb' : b.length = L.length := by simpa using hb
    obtain ⟨hlen, hsol⟩ := ih hb'
    rw [forward_snoc hb' (hlen.trans hl.symm), hL.mulVec_snoc hl hlen, hsol,
      mul_div_cancel₀ _ ha.ne', add_sub_cancel]
    exact ⟨by simp [hlen], rfl⟩

theorem backward_snoc {L : Mat K} {l b : Vec K} (hl : l.length = L.length)
    (hb : b.length = L.length) (a c : K) :
    backward (L ++ [l ++ [a]]) (b ++ [c]) =
      backward L (Vec.sub b (Vec.scale (c / a) l)) ++ [c / a] := by
  have hx : (b ++ [c]).getD L.length 0 / (l ++ [a]).getD L.length 0 = c / a := by
    simp [← hb, hl]
  have hs : List.zipWith (fun c' l => c' - c / a * l) b (l ++ [a]) =
      Vec.sub b (Vec.scale (c / a) l) := by
    conv_lhs => rw [← List.append_nil b, List.zipWith_append (hb.trans hl.symm)]
    simp [Vec.sub, Vec.scale, List.zipWith_map_right]
  rw [← hs, ← hx]
  simp [backward, backwardRev, List.take_left' hb]

/-- Substitution from the last unknown on solves the transposed system, which is said here by the
products with the images under the matrix itself. -/
theorem IsFactor.backward_spec {L : Mat K} (h : IsFactor L) {b : Vec K} (hb : b.length = L.length) :
    (backward L b).length = L.length ∧ ∀ v : Vec K, v.length = L.length →
      Vec.dot (backward L b) (Mat.mulVec L v) = Vec.dot b v := by
  induction h generalizing b with
  | nil => exact ⟨rfl, fun v hv => by simp_all [backward, backwardRev, Vec.dot]⟩
  | @snoc L l a hL hl ha ih =>
    obtain rfl | ⟨b, c, rfl⟩ := List.eq_nil_or_concat' b
    · simp at hb
    have hb' : b.length = L.length := by simpa using hb
    obtain ⟨hlen, hsol⟩ := ih (b := Vec.sub b (Vec.scale (c / a) l)) (by simp [hb', hl])
    rw [backward_snoc hl hb']
    constructor
    · simp [hlen]
    · intro v hv
      obtain rfl | ⟨v, w, rfl⟩ := List.eq_nil_or_concat' v
      · simp at hv
      have hv' : v.length = L.length := by simpa using hv
      have hone (x y : K) : Vec.dot [x] [y] = x * y := by simp [Vec.dot]
      rw [hL.mulVec_snoc hl hv', Vec.dot_append (by simp [hlen]), hsol v hv',
        Vec.dot_append (by omega), Vec.dot_sub (by simp [hb', hl]), Vec.dot_scale, hone, hone]
      field_simp
      ring

theorem IsFactor.eq_zero_of_transpose {L : Mat K} {n : ℕ} (h : IsFactor L) (hn : L.length = n)
    {v : Fin n → K} (hv : (Mat.toMatrix n n L)ᵀ *ᵥ v = 0) : v = 0 := by
  obtain ⟨hlen, hsol⟩ := h.forward_spec (b := List.ofFn v) (by simp [hn])
  have hy := congrArg (Vec.toFun n) hsol
  rw [Mat.toFun_mulVec (n := n) (by omega), Vec.toFun_ofFn] at hy
  rw [← dotProduct_self_eq_zero]
  calc v ⬝ᵥ v = v ⬝ᵥ Mat.toMatrix n n L *ᵥ Vec.toFun n (forward L (List.ofFn v)) := by rw [hy]
    _ = (Mat.toMatrix n n L)ᵀ *ᵥ v ⬝ᵥ Vec.toFun n (forward L (List.ofFn v)) := by
      rw [dotProduct_mulVec, mulVec_transpose]
    _ = 0 := by rw [hv, zero_dotProduct]

theorem IsFactor.transpose_mulVec_backward {L : Mat K} {n : ℕ} (h : IsFactor L)
    (hn : L.length = n) {b : Vec K} (hb : b.length = L.length) :
    (Mat.toMatrix n n L)ᵀ *ᵥ Vec.toFun n (backward L b) = Vec.toFun n b := by
  obtain ⟨hlen, hsol⟩ := h.backward_spec hb
  apply dotProduct_eq _ _
  intro v
  have hv := hsol (List.ofFn v) (by simp [hn])
  rw [Vec.dot_eq (n := n) (.inl (by omega)), Vec.dot_eq (n := n) (.inl (by omega)),
    Mat.toFun_mulVec (n := n) (by simp), Vec.toFun_ofFn] at hv
  rw [← hv, dotProduct_mulVec, mulVec_transpose]

theorem IsFactor.mulVec_solve {L : Mat K} {n : ℕ} (h : IsFactor L) (hn : L.length = n) {b : Vec K}
    (hb : b.length = n) :
    (Mat.toMatrix n n L * (Mat.toMatrix n n L)ᵀ) *ᵥ Vec.toFun n (solve L b) = Vec.toFun n b := by
  subst hn
  obtain ⟨hlen, hsol⟩ := h.forward_spec hb
  rw [← mulVec_mulVec, solve, h.transpose_mulVec_backward rfl hlen, ← Mat.toFun_mulVec hlen.le,
    hsol]

/-- The products of the rows of `L` are the entries of the lower triangle of `M`. -/
structure Factors (L M : Mat K) : Prop where
  isFactor : IsFactor L
  length_eq : L.length = M.length
  dot_rows : ∀ i < M.length, ∀ j ≤ i, Vec.dot (L.getD i []) (L.getD j []) = M.entry i j

theorem Factors.mul_transpose {L M : Mat K} (h : Factors L M) {n : ℕ} (hn : M.length = n) :
    Mat.toMatrix n n L * (Mat.toMatrix n n L)ᵀ = Mat.lower n M := by
  subst hn
  have hdot (i j : Fin M.length) :
      (Mat.toMatrix M.length M.length L * (Mat.toMatrix M.length M.length L)ᵀ) i j =
        Vec.dot (L.getD i []) (L.getD j []) := by
    rw [Vec.dot_eq (.inl ((h.isFactor.length_getD_le i).trans h.length_eq.le))]
    rfl
  ext i j
  rw [hdot, Mat.lower, of_apply]
  split
  · exact h.dot_rows i i.isLt j ‹_›
  · rw [Vec.dot_comm]
    exact h.dot_rows j j.isLt i (not_le.mp ‹_›).le

theorem Factors.positiveDefinite {L M : Mat K} (h : Factors L M) {n : ℕ} (hn : M.length = n) :
    PositiveDefinite (Mat.lower n M) := by
  intro v hv
  set T := (Mat.toMatrix n n L)ᵀ with hT
  have hsq : v ⬝ᵥ Mat.lower n M *ᵥ v = T *ᵥ v ⬝ᵥ T *ᵥ v := by
    rw [← h.mul_transpose hn, ← mulVec_mulVec, dotProduct_mulVec, ← mulVec_transpose]
  have hne : T *ᵥ v ≠ 0 := fun h0 => hv (h.isFactor.eq_zero_of_transpose (h.length_eq.trans hn) h0)
  rw [hsq]
  exact lt_of_le_of_ne (Finset.sum_nonneg fun i _ => mul_self_nonneg _)
    fun h0 => hne (dotProduct_self_eq_zero.mp h0.symm)

theorem Factors.mulVec_solve {L M : Mat K} (h : Factors L M) {n : ℕ} (hn : M.length = n) {b : Vec K}
    (hb : b.length = n) :
    Mat.lower n M *ᵥ Vec.toFun n (solve L b) = Vec.toFun n b := by
  rw [← h.mul_transpose hn]
  exact h.isFactor.mulVec_solve (h.length_eq.trans hn) hb

theorem extend?_eq {L : Mat K} {r : Vec K} (hr : r.length = L.length) (d : K) :
    extend? L (r ++ [d]) =
      if 0 < d - Vec.dot (forward L r) (forward L r) then
        some (L ++ [forward L r ++
          [ExactScalar.sqrt (d - Vec.dot (forward L r) (forward L r))]])
      else none := by
  have hf : forward L (r ++ [d]) = forward L r := by
    rw [← forward_take, List.take_left' hr]
  have hd : (r ++ [d]).getD L.length 0 = d := by simp [← hr]
  rw [extend?, hf, hd]
  exact if_congr ExactScalar.lt_iff rfl rfl

theorem Factors.snoc {L M : Mat K} (h : Factors L M) {r : Vec K} (hr : r.length = L.length)
    {d : K} (hd : 0 < d - Vec.dot (forward L r) (forward L r)) {row : Vec K}
    (hrow : row.take (L.length + 1) = r ++ [d]) :
    Factors (L ++ [forward L r ++ [ExactScalar.sqrt (d - Vec.dot (forward L r) (forward L r))]])
      (M ++ [row]) := by
  obtain ⟨hlen, hsol⟩ := h.isFactor.forward_spec hr
  set l := forward L r
  set p := ExactScalar.sqrt (d - Vec.dot l l)
  refine ⟨.snoc h.isFactor hlen (ExactScalar.sqrt_pos hd), by simp [h.length_eq], ?_⟩
  have hentry (j : ℕ) (hj : j < L.length + 1) : row.getD j 0 = (r ++ [d]).getD j 0 := by
    rw [← hrow, List.getD_eq_getElem?_getD, List.getD_eq_getElem?_getD, List.getElem?_take_of_lt hj]
  have hold {i : ℕ} (hi : i < L.length) (x : Vec K) : (L ++ [x]).getD i [] = L.getD i [] := by
    simp [List.getElem?_append_left hi]
  have hnew (x : Vec K) : (L ++ [x]).getD L.length [] = x := by simp
  intro i hi j hj
  rcases Nat.lt_succ_iff_lt_or_eq.mp (show i < L.length + 1 by simpa [h.length_eq] using hi) with
    hi' | rfl
  · rw [hold hi', hold (hj.trans_lt hi'), Mat.entry_snoc_lt (h.length_eq ▸ hi')]
    exact h.dot_rows i (h.length_eq ▸ hi') j hj
  · have hrowj : Mat.entry (M ++ [row]) L.length j = (r ++ [d]).getD j 0 := by
      rw [h.length_eq, Mat.entry_snoc_length, hentry j (by omega)]
    rw [hrowj, hnew]
    rcases hj.lt_or_eq with hj' | rfl
    · have hle : (L.getD j []).length ≤ l.length := hlen ▸ h.isFactor.length_getD_le j
      rw [hold hj', Vec.dot_append_left hle, Vec.dot_comm, ← Mat.getD_mulVec, hsol]
      simp [List.getElem?_append_left (hr.symm ▸ hj')]
    · have hp : Vec.dot [p] [p] = d - Vec.dot l l := by
        rw [← ExactScalar.sqrt_mul_sqrt _ hd.le]
        simp [Vec.dot, p]
      rw [hnew, Vec.dot_append rfl, hp]
      simp [← hr]

theorem dotProduct_lower_snoc {M : Mat K} {n : ℕ} (hM : M.length = n) (row : Vec K) (v : Fin n → K)
    (a : K) :
    (Fin.snoc v a : Fin (n + 1) → K) ⬝ᵥ Mat.lower (n + 1) (M ++ [row]) *ᵥ (Fin.snoc v a) =
      v ⬝ᵥ Mat.lower n M *ᵥ v + 2 * a * (Vec.toFun n row ⬝ᵥ v) + row.getD n 0 * a ^ 2 := by
  have hold (i j : Fin n) : Mat.lower (n + 1) (M ++ [row]) i.castSucc j.castSucc =
      Mat.lower n M i j := by
    simp [Mat.lower, Mat.entry_snoc_lt (i.isLt.trans_eq hM.symm),
      Mat.entry_snoc_lt (j.isLt.trans_eq hM.symm)]
  have hrow (j : Fin n) :
      Mat.lower (n + 1) (M ++ [row]) (Fin.last n) j.castSucc = row.getD j 0 := by
    have := Mat.entry_snoc_length M row j
    rw [hM] at this
    simp [Mat.lower, this, Fin.le_last]
  have hcol (j : Fin n) :
      Mat.lower (n + 1) (M ++ [row]) j.castSucc (Fin.last n) = row.getD j 0 := by
    rw [← hrow, ← transpose_apply (Mat.lower _ _), Mat.lower_transpose]
  have hlast : Mat.lower (n + 1) (M ++ [row]) (Fin.last n) (Fin.last n) = row.getD n 0 := by
    have := Mat.entry_snoc_length M row n
    rw [hM] at this
    simp [Mat.lower, this]
  simp only [dotProduct, mulVec, Fin.sum_univ_castSucc, Fin.snoc_castSucc, Fin.snoc_last, hold, hrow,
    hcol, hlast, mul_add, Finset.sum_add_distrib, Vec.toFun_apply]
  have h₁ : ∑ i, v i * (row.getD i 0 * a) = a * ∑ i : Fin n, row.getD i 0 * v i := by
    rw [Finset.mul_sum]
    exact Finset.sum_congr rfl fun i _ => by ring
  rw [h₁]
  ring

/-- The pivot is the value of the quadratic form at the vector that eliminates the last row. -/
theorem Factors.pivot_pos {L M : Mat K} (h : Factors L M) {r : Vec K} (hr : r.length = L.length)
    {d : K} {row : Vec K} (hrow : row.take (L.length + 1) = r ++ [d])
    (hp : PositiveDefinite (Mat.lower (M.length + 1) (M ++ [row]))) :
    0 < d - Vec.dot (forward L r) (forward L r) := by
  obtain ⟨hlen, hsol⟩ := h.isFactor.forward_spec hr
  set l := forward L r
  obtain ⟨hlen', hsol'⟩ := h.isFactor.backward_spec hlen
  set x := backward L l
  set n := M.length
  have hn : L.length = n := h.length_eq
  have hentry (j : ℕ) (hj : j < n + 1) : row.getD j 0 = (r ++ [d]).getD j 0 := by
    rw [← hrow, List.getD_eq_getElem?_getD, List.getD_eq_getElem?_getD,
      List.getElem?_take_of_lt (hn ▸ hj)]
  have hr' : Vec.toFun n row = Vec.toFun n r := by
    funext j
    rw [Vec.toFun_apply, hentry j (by omega), List.getD_append _ _ _ _ (by omega)]
    rfl
  have hd' : row.getD n 0 = d := by
    rw [hentry n n.lt_succ_self]
    simp [← hn, ← hr]
  -- `x` solves the transposed system, so both products with it come out as `l · l`
  have hrx : Vec.toFun n r ⬝ᵥ Vec.toFun n x = Vec.dot l l := by
    rw [← Vec.dot_eq (.inl (hr.trans hn).le), Vec.dot_comm, ← hsol' l hlen, hsol]
  have hxx : Vec.toFun n x ⬝ᵥ Mat.lower n M *ᵥ Vec.toFun n x = Vec.dot l l := by
    rw [← h.mul_transpose rfl, ← mulVec_mulVec, dotProduct_mulVec, ← mulVec_transpose,
      h.isFactor.transpose_mulVec_backward hn hlen, ← Vec.dot_eq (.inl (hlen.trans hn).le)]
  have hpos := hp (Fin.snoc (-Vec.toFun n x) 1 : Fin (n + 1) → K) fun h0 => by
    have := congrFun h0 (Fin.last n)
    simp at this
  rw [dotProduct_lower_snoc rfl, hr', hd', neg_dotProduct, mulVec_neg, dotProduct_neg, neg_neg,
    hxx, dotProduct_neg, hrx] at hpos
  linarith

theorem positiveDefinite_of_snoc {M : Mat K} {row : Vec K}
    (h : PositiveDefinite (Mat.lower (M.length + 1) (M ++ [row]))) :
    PositiveDefinite (Mat.lower M.length M) := by
  intro v hv
  have hpos := h (Fin.snoc v 0 : Fin (M.length + 1) → K) fun h0 => hv <| funext fun i => by
    simpa using congrFun h0 i.castSucc
  rw [dotProduct_lower_snoc rfl] at hpos
  simpa using hpos

theorem factor?_snoc (M : Mat K) (row : Vec K) :
    factor? (M ++ [row]) =
      (factor? M).bind fun L => extend? L (row.take (L.length + 1)) := by
  simp [factor?, List.foldlM_append]

theorem take_succ_eq {row : Vec K} {n : ℕ} (h : n + 1 ≤ row.length) :
    row.take (n + 1) = row.take n ++ [row.getD n 0] := by
  rw [List.take_succ_eq_append_getElem (by omega)]
  simp [show n < row.length by omega]

omit [ExactScalar K] in
theorem length_le_of_snoc {M : Mat K} {row : Vec K}
    (h : ∀ r ∈ M ++ [row], (M ++ [row]).length ≤ r.length) :
    (∀ r ∈ M, M.length ≤ r.length) ∧ M.length + 1 ≤ row.length := by
  simp only [List.length_append, List.length_singleton] at h
  constructor
  · intro r hr
    exact (Nat.le_succ _).trans (h r (List.mem_append_left _ hr))
  · exact h row List.mem_concat_self

theorem factors_of_factor? {M L : Mat K} (hM : ∀ row ∈ M, M.length ≤ row.length)
    (h : factor? M = some L) : Factors L M := by
  induction M using List.reverseRecOn generalizing L with
  | nil =>
    obtain rfl : [] = L := by simpa [factor?] using h
    exact ⟨.nil, rfl, fun i hi => absurd hi (by simp)⟩
  | append_singleton M row ih =>
    obtain ⟨hlen, hrow⟩ := length_le_of_snoc hM
    obtain ⟨L', hL', hext⟩ := Option.bind_eq_some_iff.mp (factor?_snoc M row ▸ h)
    have hF := ih hlen hL'
    rw [← hF.length_eq] at hrow
    have hr : (row.take L'.length).length = L'.length := by
      rw [List.length_take]
      omega
    rw [take_succ_eq hrow, extend?_eq hr] at hext
    split at hext
    case isTrue hpos =>
      obtain rfl := Option.some.inj hext
      exact hF.snoc hr hpos (take_succ_eq hrow)
    case isFalse => simp at hext

/-- A factorization succeeds exactly on positive definite matrices. -/
theorem isSome_factor?_iff {M : Mat K} {n : ℕ} (hn : M.length = n)
    (hM : ∀ row ∈ M, n ≤ row.length) :
    (factor? M).isSome ↔ PositiveDefinite (Mat.lower n M) := by
  subst hn
  constructor
  · intro h
    obtain ⟨L, hL⟩ := Option.isSome_iff_exists.mp h
    exact (factors_of_factor? hM hL).positiveDefinite rfl
  · intro h
    induction M using List.reverseRecOn with
    | nil => rfl
    | append_singleton M row ih =>
      obtain ⟨hlen, hrow⟩ := length_le_of_snoc hM
      rw [List.length_append, List.length_singleton] at h
      obtain ⟨L, hL⟩ := Option.isSome_iff_exists.mp (ih hlen (positiveDefinite_of_snoc h))
      have hF := factors_of_factor? hlen hL
      rw [← hF.length_eq] at hrow
      have hr : (row.take L.length).length = L.length := by
        rw [List.length_take]
        omega
      have hpos := hF.pivot_pos hr (take_succ_eq hrow) h
      rw [factor?_snoc, hL, Option.bind_some, take_succ_eq hrow, extend?_eq hr, if_pos hpos]
      rfl

end Cholesky
end Shooting
