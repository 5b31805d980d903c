import Shooting.Proofs.System
import Shooting.Proofs.Evaluation
import Shooting.Model.Symbolic

/-! # Symmetric second derivatives

The second derivatives of a cost form symmetric matrices. Models given by expressions take the
symmetric part of what they compute, so that theirs do whatever the expressions are, over any scalars
whose addition commutes.
-/

namespace Shooting

variable {α : Type} [Scalar α]

/-- The blocks of second derivatives equal their transposes, entry by entry. -/
structure Linearization.Symmetric (ndx nu : ℕ) (s : Linearization α) : Prop where
  lxx : ∀ i < ndx, ∀ j < ndx, s.lxx.entry i j = s.lxx.entry j i
  luu : ∀ i < nu, ∀ j < nu, s.luu.entry i j = s.luu.entry j i

def Model.SymmetricHessians (m : Model α) : Prop :=
  ∀ x u s, m.deriv x u = .ok s → s.Symmetric m.state.ndx m.nu

def Problem.SymmetricHessians (p : Problem α) : Prop := ∀ m ∈ p.models, m.SymmetricHessians

namespace Mat

theorem entry_ofFn_eq (m n : ℕ) (f : ℕ → ℕ → α) (i j : ℕ) :
    entry (ofFn m n f) i j = if i < m ∧ j < n then f i j else 0 := by
  split
  · rename_i h
    exact entry_ofFn f h.1 h.2
  · rename_i h
    rcases lt_or_ge i m with hi | hi
    · have hj : n ≤ j := not_lt.mp fun hj => h ⟨hi, hj⟩
      simp [entry_eq, ofFn, hi, hj]
    · simp [entry_eq, ofFn, hi]

theorem entry_block (M : Mat α) (i m j n a b : ℕ) :
    entry (block M i m j n) a b = if a < m ∧ b < n then M.entry (i + a) (j + b) else 0 := by
  have hrow (row : Vec α) :
      ((row.drop j).take n).getD b 0 = if b < n then row.getD (j + b) 0 else 0 := by
    simp only [List.getD_eq_getElem?_getD, List.getElem?_take, List.getElem?_drop]
    split <;> rfl
  simp only [entry_eq, block, List.getD_eq_getElem?_getD, List.getElem?_map, List.getElem?_take,
    List.getElem?_drop]
  by_cases ha : a < m
  · cases M[i + a]? with
    | none => simp [ha]
    | some row =>
      have := hrow row
      simp only [List.getD_eq_getElem?_getD] at this
      simp [ha, this]
  · simp [ha]

end Mat

namespace Model

section Commutative

variable (hadd : ∀ a b : α, a + b = b + a)
include hadd

theorem hessianAt_symm (n : ℕ) (second : List (List (Option (Expr α)))) (x u : Vec α)
    (i j : ℕ) : (hessianAt n second x u).entry i j = (hessianAt n second x u).entry j i := by
  simp only [hessianAt, Mat.entry_ofFn_eq, and_comm (a := i < n)]
  rw [hadd]

theorem symmetric_slopes (state next : Manifold) (nu : ℕ) (cost : Expr α)
    (dynamics : Option (List (Expr α))) (x u : Vec α) :
    (slopes state next nu cost dynamics x u).Symmetric state.ndx nu where
  lxx i _ j _ := by
    simp only [slopes, Mat.entry_block, and_comm (a := i < _)]
    rw [hessianAt_symm hadd]
  luu i _ j _ := by
    simp only [slopes, Mat.entry_block, and_comm (a := i < _)]
    rw [hessianAt_symm hadd]

/-- Models given by expressions have symmetric Hessians. -/
theorem symmetricHessians_of_ofExprs {state : Manifold} {cost : Expr α}
    {dynamics : Option (Dynamics α)} {nu : ℤ} {next : Option Manifold} {guard : Option (Guard α)}
    {m : Model α} (h : ofExprs state cost dynamics nu next guard = .ok m) :
    m.SymmetricHessians := by
  intro x u s hs
  unfold ofExprs at h
  split at h
  · cases h
  · split at h
    · cases h
    · split at h
      · cases h
      · cases h
        cases hs
        exact symmetric_slopes hadd state _ _ cost _ x u

end Commutative

end Model

theorem Linearization.symmetric_zero (s : Linearization α) : s.Symmetric 0 0 :=
  ⟨fun i hi => absurd hi (Nat.not_lt_zero i), fun i hi => absurd hi (Nat.not_lt_zero i)⟩

namespace System

theorem slopesAt_running {ks : Knots α} {t : ℕ} {k : Knot α} (h : ks.running[t]? = some k) :
    slopesAt ks t = k.slopes := by
  have ht : t < ks.running.length := (List.getElem?_eq_some_iff.mp h).1
  rw [slopesAt, List.getElem?_append_left ht, h]
  rfl

theorem slopesAt_terminal (ks : Knots α) : slopesAt ks ks.running.length = ks.terminal.slopes := by
  rw [slopesAt, List.getElem?_concat_length]
  rfl

theorem symmetric_slopesAt {p : Problem α} (hp : p.SymmetricHessians) {ks : Knots α}
    {xs us : List (Vec α)} (h : p.LinearizedAt xs us ks) (t : ℕ) :
    (slopesAt ks t).Symmetric ((Layout.ofProblem p).ndxs.getD t 0)
      ((Layout.ofProblem p).nus.getD t 0) := by
  have hlen := h.running.length_eq
  rcases lt_trichotomy t p.running.length with ht | rfl | ht
  · obtain ⟨m, hm⟩ : ∃ m, p.running[t]? = some m := ⟨_, List.getElem?_eq_getElem ht⟩
    obtain ⟨k, x, u, hk, -, -, -, hd⟩ := h.running.get hm
    have hm' : p.models[t]? = some m := by rw [Problem.models, List.getElem?_append_left ht, hm]
    rw [slopesAt_running hk, Layout.getD_ndxs hm', Layout.getD_nus hm]
    exact hp m (List.mem_of_getElem? hm') x u k.slopes hd
  · have hm : p.models[p.running.length]? = some p.terminal := List.getElem?_concat_length
    have hs := hp _ (List.mem_of_getElem? hm) _ _ _ h.terminal.2
    rw [← hlen, slopesAt_terminal, hlen, Layout.getD_ndxs hm]
    constructor
    · exact hs.lxx
    · intro i hi
      have hpast : (Layout.ofProblem p).nus.getD p.running.length 0 = 0 :=
        List.getD_eq_default _ _ (Layout.length_nus p).le
      rw [hpast] at hi
      exact absurd hi (Nat.not_lt_zero i)
  · obtain ⟨hx, hu⟩ := Layout.getD_past (p := p) ht
    rw [hx, hu]
    exact Linearization.symmetric_zero _

theorem matrixEntry_symm {l : Layout} {ks : Knots α}
    (h : ∀ t, (slopesAt ks t).Symmetric (l.ndxs.getD t 0) (l.nus.getD t 0)) {σ τ : Slot}
    (hσ : σ ∈ l.increments) (hτ : τ ∈ l.increments) : matrixEntry ks σ τ = matrixEntry ks τ σ := by
  rcases Layout.mem_increments.mp hσ with ⟨t, i, -, hi, rfl⟩ | ⟨t, i, -, hi, rfl⟩ <;>
    rcases Layout.mem_increments.mp hτ with ⟨s, j, -, hj, rfl⟩ | ⟨s, j, -, hj, rfl⟩ <;>
    simp only [matrixEntry] <;> rcases eq_or_ne t s with rfl | hne
  · rw [if_pos rfl, if_pos rfl, (h t).lxx i hi j hj]
  · rw [if_neg hne, if_neg hne.symm]
  · rfl
  · rw [if_neg hne, if_neg hne.symm]
  · rfl
  · rw [if_neg hne, if_neg hne.symm]
  · rw [if_pos rfl, if_pos rfl, (h t).luu i hi j hj]
  · rw [if_neg hne, if_neg hne.symm]

theorem dampedEntry_symm {K : Type} [ExactScalar K] {l : Layout} {ks : Knots K}
    (h : ∀ t, (slopesAt ks t).Symmetric (l.ndxs.getD t 0) (l.nus.getD t 0)) (xr ur : K) {σ τ : Slot}
    (hσ : σ ∈ l.increments) (hτ : τ ∈ l.increments) :
    dampedEntry ks xr ur σ τ = dampedEntry ks xr ur τ σ := by
  rw [dampedEntry, dampedEntry, matrixEntry_symm h hσ hτ]
  rcases eq_or_ne σ τ with rfl | hne
  · rfl
  · rw [if_neg hne, if_neg hne.symm]

end System
end Shooting
