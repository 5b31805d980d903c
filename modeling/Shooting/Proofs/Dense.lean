import Mathlib.Algebra.BigOperators.Fin
import Mathlib.Data.Matrix.Mul
import Mathlib.Tactic.Ring
import Shooting.Proofs.Exact
import Shooting.Linear.Mat

/-! # Lists as vectors and matrices

A list of scalars is read as a function on positions and a list of rows as a matrix; positions past
the end read as zero. Over exact scalars the operations on lists are the usual ones.
-/

namespace Shooting

open Matrix

variable {K : Type} [ExactScalar K]

namespace Vec

def toFun (n : ℕ) (v : Vec K) : Fin n → K := fun i => v.getD i 0

@[simp] theorem toFun_apply (n : ℕ) (v : Vec K) (i : Fin n) : toFun n v i = v.getD i 0 := rfl

theorem toFun_eq_iff {n : ℕ} {v w : Vec K} (hv : v.length = n) (hw : w.length = n) :
    toFun n v = toFun n w ↔ v = w := by
  constructor
  · intro h
    apply List.ext_getElem (hv.trans hw.symm)
    intro i hi hi'
    simpa [hi, hi'] using congrFun h ⟨i, hv ▸ hi⟩
  · rintro rfl
    rfl

@[simp] theorem toFun_ofFn {n : ℕ} (v : Fin n → K) : toFun n (List.ofFn v) = v := by
  funext i
  simp

theorem ofFn_toFun {n : ℕ} {v : Vec K} (h : v.length = n) : List.ofFn (toFun n v) = v := by
  apply List.ext_getElem (by simp [h])
  intro i hi hi'
  simp [hi']

theorem toFun_take (n : ℕ) (v : Vec K) : toFun n (v.take n) = toFun n v := by
  ext i
  simp [List.getElem?_take_of_lt i.isLt]

theorem getD_zeros (n i : ℕ) : (zeros n : Vec K).getD i 0 = 0 := by
  simp only [zeros, List.getD_eq_getElem?_getD, List.getElem?_replicate]
  split <;> rfl

@[simp] theorem toFun_zeros (m n : ℕ) : toFun m (zeros n : Vec K) = 0 := by
  funext i
  exact getD_zeros n i

theorem toFun_eq_zero_iff {n : ℕ} {v : Vec K} (hv : v.length = n) :
    toFun n v = 0 ↔ ∀ a ∈ v, a = 0 := by
  constructor
  · intro h a ha
    obtain ⟨i, hi, rfl⟩ := List.mem_iff_getElem.mp ha
    simpa [hi] using congrFun h ⟨i, hv ▸ hi⟩
  · intro h
    funext i
    have hi : (i : ℕ) < v.length := hv ▸ i.isLt
    simpa [hi] using h _ (List.getElem_mem hi)

theorem getD_neg (v : Vec K) (i : ℕ) : (neg v).getD i 0 = -v.getD i 0 := by
  rcases lt_or_ge i v.length with h | h <;> simp [neg, h]

@[simp] theorem toFun_neg (n : ℕ) (v : Vec K) : toFun n (neg v) = -toFun n v := by
  funext i
  exact getD_neg v i

theorem getD_scale (a : K) (v : Vec K) (i : ℕ) : (scale a v).getD i 0 = a * v.getD i 0 := by
  rcases lt_or_ge i v.length with h | h <;> simp [scale, h]

@[simp] theorem toFun_scale (n : ℕ) (a : K) (v : Vec K) : toFun n (scale a v) = a • toFun n v := by
  funext i
  exact getD_scale a v i

theorem getD_add {v w : Vec K} (h : v.length = w.length) (i : ℕ) :
    (add v w).getD i 0 = v.getD i 0 + w.getD i 0 := by
  rcases lt_or_ge i w.length with hi | hi <;> simp [add, h, hi]

theorem toFun_add {v w : Vec K} (h : v.length = w.length) (n : ℕ) :
    toFun n (add v w) = toFun n v + toFun n w := by
  funext i
  exact getD_add h i

theorem getD_sub {v w : Vec K} (h : v.length = w.length) (i : ℕ) :
    (sub v w).getD i 0 = v.getD i 0 - w.getD i 0 := by
  rcases lt_or_ge i w.length with hi | hi <;> simp [sub, h, hi]

theorem toFun_sub {v w : Vec K} (h : v.length = w.length) (n : ℕ) :
    toFun n (sub v w) = toFun n v - toFun n w := by
  funext i
  exact getD_sub h i

/-- The product of two lists is a sum over as many positions as the shorter one has, or more. -/
theorem dot_eq {n : ℕ} {v w : Vec K} (h : v.length ≤ n ∨ w.length ≤ n) :
    dot v w = toFun n v ⬝ᵥ toFun n w := by
  induction v generalizing w n with
  | nil => simp [dot, dotProduct]
  | cons a v ih =>
    cases w with
    | nil => simp [dot, dotProduct]
    | cons b w =>
      obtain ⟨m, rfl⟩ : ∃ m, n = m + 1 := ⟨n - 1, by simp at h; omega⟩
      have hm : v.length ≤ m ∨ w.length ≤ m := by simpa using h
      have hs : dot (a :: v) (b :: w) = a * b + dot v w := by simp [dot]
      rw [hs, ih hm]
      simp [dotProduct, Fin.sum_univ_succ]

theorem dot_comm (v w : Vec K) : dot v w = dot w v := by
  rw [dot_eq (.inl le_rfl), dot_eq (n := v.length) (.inr le_rfl), dotProduct_comm]

theorem dot_append {v w : Vec K} (h : v.length = w.length) (v' w' : Vec K) :
    dot (v ++ v') (w ++ w') = dot v w + dot v' w' := by
  simp [dot, List.zipWith_append h]

theorem dot_append_left {v w : Vec K} (h : w.length ≤ v.length) (v' : Vec K) :
    dot (v ++ v') w = dot v w := by
  rw [dot_eq (n := w.length) (.inr le_rfl), dot_eq (n := w.length) (.inr le_rfl)]
  congr 1
  funext i
  simp [List.getElem?_append_left (i.isLt.trans_le h)]

theorem dot_sub {v w : Vec K} (h : v.length = w.length) (u : Vec K) :
    dot (sub v w) u = dot v u - dot w u := by
  rw [dot_eq (n := v.length) (.inl (by simp [h])), dot_eq (n := v.length) (.inl le_rfl),
    dot_eq (n := v.length) (.inl h.ge), toFun_sub h, sub_dotProduct]

theorem dot_scale (a : K) (v w : Vec K) : dot (scale a v) w = a * dot v w := by
  rw [dot_eq (n := v.length) (.inl (by simp)), dot_eq (n := v.length) (.inl le_rfl), toFun_scale,
    smul_dotProduct, smul_eq_mul]

theorem normSq_eq {n : ℕ} {v : Vec K} (h : v.length = n) : normSq v = toFun n v ⬝ᵥ toFun n v := by
  have hd : normSq v = dot v v := by
    simp [normSq, dot, List.zipWith_self]
  rw [hd, dot_eq (.inl h.le)]

@[simp] theorem allFinite_eq (v : Vec K) : allFinite v = true :=
  List.all_eq_true.mpr fun a _ => ExactScalar.isFinite_eq a

end Vec

namespace Mat

def toMatrix (m n : ℕ) (M : Mat K) : Matrix (Fin m) (Fin n) K := .of fun i j => M.entry i j

@[simp] theorem toMatrix_apply (m n : ℕ) (M : Mat K) (i : Fin m) (j : Fin n) :
    toMatrix m n M i j = M.entry i j := rfl

theorem entry_eq {α : Type} [Scalar α] (M : Mat α) (i j : ℕ) :
    M.entry i j = (M.getD i []).getD j 0 := rfl

theorem toMatrix_row (m n : ℕ) (M : Mat K) (i : Fin m) :
    toMatrix m n M i = Vec.toFun n (M.getD i []) := rfl

theorem getD_mulVec (M : Mat K) (v : Vec K) (i : ℕ) :
    (mulVec M v).getD i 0 = Vec.dot (M.getD i []) v := by
  rcases lt_or_ge i M.length with h | h <;> simp [mulVec, h, Vec.dot]

theorem toFun_mulVec {n : ℕ} {v : Vec K} (h : v.length ≤ n) (m : ℕ) (M : Mat K) :
    Vec.toFun m (mulVec M v) = toMatrix m n M *ᵥ Vec.toFun n v := by
  funext i
  rw [Vec.toFun_apply, getD_mulVec, Vec.dot_eq (.inr h)]
  rfl

theorem toFun_combine {n : ℕ} {M : Mat K} (h : ∀ row ∈ M, row.length = n) {m : ℕ} {c : Vec K}
    (hc : c.length ≤ m ∨ M.length ≤ m) :
    Vec.toFun n (combine n M c) = (toMatrix m n M)ᵀ *ᵥ Vec.toFun m c := by
  induction M generalizing c m with
  | nil =>
    have hz : combine n [] c = Vec.zeros n := by simp [combine]
    rw [hz, Vec.toFun_zeros]
    funext j
    simp [Matrix.mulVec, dotProduct, entry_eq]
  | cons row M ih =>
    cases c with
    | nil =>
      have hz : combine n (row :: M) [] = Vec.zeros n := by simp [combine]
      rw [hz, Vec.toFun_zeros]
      funext j
      simp [Matrix.mulVec, dotProduct]
    | cons a c =>
      obtain ⟨m, rfl⟩ : ∃ k, m = k + 1 := ⟨m - 1, by simp at hc; omega⟩
      have hr : row.length = n := h row (by simp)
      have hM : ∀ row ∈ M, row.length = n := fun r hm => h r (by simp [hm])
      have he : combine n (row :: M) (a :: c) = Vec.add (Vec.scale a row) (combine n M c) := rfl
      rw [he, Vec.toFun_add (by simp [length_combine hM, hr]), ih hM (m := m) (by simpa using hc)]
      funext j
      simp [Matrix.mulVec, dotProduct, Fin.sum_univ_succ, entry_eq, mul_comm a]

end Mat

section Labels

variable {ι κ : Type} {m n : ℕ} {rows : List ι} {cols : List κ}

theorem Vec.toFun_map_eq_iff (h : rows.length = n) {u v : ι → K} :
    Vec.toFun n (rows.map u) = Vec.toFun n (rows.map v) ↔ ∀ i ∈ rows, u i = v i := by
  rw [Vec.toFun_eq_iff (by simpa using h) (by simpa using h), List.map_inj_left]

theorem Vec.toFun_map_add (u v : ι → K) :
    Vec.toFun n (rows.map u) + Vec.toFun n (rows.map v) =
      Vec.toFun n (rows.map fun i => u i + v i) := by
  funext i
  rcases lt_or_ge (i : ℕ) rows.length with h | h <;> simp [h]

theorem Vec.neg_toFun_map (u : ι → K) :
    -Vec.toFun n (rows.map u) = Vec.toFun n (rows.map fun i => -u i) := by
  funext i
  rcases lt_or_ge (i : ℕ) rows.length with h | h <;> simp [h]

theorem Vec.dot_map (u v : ι → K) :
    Vec.dot (rows.map u) (rows.map v) = (rows.map fun i => u i * v i).sum := by
  simp [Vec.dot, List.zipWith_map, List.zipWith_self]

theorem Vec.dotProduct_map (h : rows.length = n) (u v : ι → K) :
    Vec.toFun n (rows.map u) ⬝ᵥ Vec.toFun n (rows.map v) = (rows.map fun i => u i * v i).sum := by
  rw [← Vec.dot_eq (.inl (by simp [h])), Vec.dot_map]

namespace Mat

/-- The matrix with a row for each label of a first list and a column for each of a second. -/
def grid (rows : List ι) (cols : List κ) (f : ι → κ → K) : Mat K :=
  rows.map fun i => cols.map (f i)

theorem entry_grid {α : Type} [Scalar α] (f : ι → κ → α) {i j : ℕ} (hi : i < rows.length)
    (hj : j < cols.length) : (grid rows cols f).entry i j = f rows[i] cols[j] := by
  simp [grid, entry_eq, hi, hj]

theorem grid_mulVec (h : cols.length = n) (f : ι → κ → K) (z : κ → K) :
    toMatrix m n (grid rows cols f) *ᵥ Vec.toFun n (cols.map z) =
      Vec.toFun m (rows.map fun i => (cols.map fun j => f i j * z j).sum) := by
  rw [← toFun_mulVec (by simp [h])]
  simp [grid, mulVec, Function.comp_def, Vec.dot_map]

theorem grid_transpose (hm : rows.length = m) (hn : cols.length = n) (f : ι → κ → K) :
    (toMatrix m n (grid rows cols f))ᵀ = toMatrix n m (grid cols rows fun j i => f i j) := by
  ext j i
  have hi : (i : ℕ) < rows.length := hm ▸ i.isLt
  have hj : (j : ℕ) < cols.length := hn ▸ j.isLt
  rw [transpose_apply, toMatrix_apply, toMatrix_apply, entry_grid f hi hj,
    entry_grid (fun j i => f i j) hj hi]

end Mat

end Labels

end Shooting
