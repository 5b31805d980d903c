import Shooting.Proofs.Curvature
import Shooting.Proofs.Optimality
import Shooting.Solver.Direction

/-! # Predicted decrease and residual

The two terms of the predicted decrease are products with the gradient and the Hessian block. The
costate terms, computed from one knot to the next, are the product of the multipliers with the
constraint block, so that the measure of convergence is the squared residual of the optimality
conditions.
-/

namespace Shooting

open Matrix Finset

variable {K : Type} [ExactScalar K]

theorem System.improvement_eq {l : Layout} {s : System K} {primal : Vec K}
    (hp : primal.length = l.nprimal) :
    RangeSpace.improvement s.matrix s.residual primal =
      (-(s.gradient l ⬝ᵥ Vec.toFun _ primal),
        -(Vec.toFun _ primal ⬝ᵥ s.hessian l *ᵥ Vec.toFun _ primal)) := by
  have hblock : Mat.toMatrix l.nprimal l.nprimal (Mat.block s.matrix 0 l.nprimal 0 l.nprimal) =
      s.hessian l := by
    ext i j
    rw [Mat.toMatrix_apply, Mat.entry_block, if_pos ⟨i.isLt, j.isLt⟩, Nat.zero_add, Nat.zero_add]
    rfl
  have htake : Vec.toFun l.nprimal (s.residual.take l.nprimal) = s.gradient l :=
    Vec.toFun_take _ _
  rw [RangeSpace.improvement, hp, Vec.dot_eq (.inr hp.le), Vec.dot_eq (.inr hp.le), Vec.toFun_neg,
    Vec.toFun_neg, htake, Mat.toFun_mulVec hp.le, hblock, neg_dotProduct, neg_dotProduct,
    dotProduct_comm (s.hessian l *ᵥ _)]

theorem Layout.flatten_eq {dims : List ℕ} {vs : List (Vec K)} {f : ℕ × ℕ → K}
    (hlen : vs.length = dims.length)
    (h : ∀ t < dims.length, (vs.getD t []).length = dims.getD t 0 ∧
      ∀ i < dims.getD t 0, (vs.getD t []).getD i 0 = f (t, i)) :
    vs.flatten = (positions dims).map f := by
  have hdims : vs.map List.length = dims := by
    apply List.ext_getElem (by simpa using hlen)
    intro t ht ht'
    have hrow := (h t ht').1
    rwa [List.getD_eq_getElem _ _ (by simpa using ht), List.getD_eq_getElem _ _ ht',
      ← List.getElem_map List.length] at hrow
  have htotal : vs.flatten.length = total dims := by
    rw [← hdims, List.length_flatten, List.sum_eq_foldr]
    rfl
  have hsplit : split dims vs.flatten = vs := hdims ▸ split_flatten vs
  rw [← map_positions_split htotal, hsplit]
  apply List.map_congr_left
  intro p hp
  obtain ⟨ht, hi⟩ := mem_positions.mp hp
  exact (h p.1 ht).2 p.2 hi

/-- A record for every running knot, with derivatives of the dynamics whose rows have an entry for
every coordinate. -/
structure Knots.Rows (l : Layout) (ks : Knots K) : Prop where
  count : ks.running.length = l.horizon
  fx : ∀ (t : ℕ) k, ks.running[t]? = some k → ∀ row ∈ k.slopes.fx, row.length = l.ndxAt t
  fu : ∀ (t : ℕ) k, ks.running[t]? = some k → ∀ row ∈ k.slopes.fu, row.length = l.nuAt t

theorem Knots.Rows.get {l : Layout} {ks : Knots K} (h : ks.Rows l) {t : ℕ} (ht : t < l.horizon) :
    ∃ k, ks.running[t]? = some k ∧ (ks.running.map (·.slopes))[t]? = some k.slopes ∧
      System.slopesAt ks t = k.slopes := by
  have hk := List.getElem?_eq_getElem (h.count.symm ▸ ht)
  refine ⟨_, hk, ?_, System.slopesAt_running hk⟩
  rw [List.getElem?_map, hk]
  rfl

omit [ExactScalar K] in
theorem Knots.Rows.congr {l : Layout} {ks ks' : Knots K} (h : ks.Rows l)
    (hs : ks'.running.map (·.slopes) = ks.running.map (·.slopes)) : ks'.Rows l := by
  have hget {t : ℕ} {k' : Knot K} (hk' : ks'.running[t]? = some k') :
      ∃ k, ks.running[t]? = some k ∧ k.slopes = k'.slopes := by
    have ht := congrArg (·[t]?) hs
    simp only [List.getElem?_map, hk', Option.map_some] at ht
    exact Option.map_eq_some_iff.mp ht.symm
  constructor
  · rw [← h.count]
    simpa using congrArg List.length hs
  · intro t k' hk'
    obtain ⟨k, hk, heq⟩ := hget hk'
    exact heq ▸ h.fx t k hk
  · intro t k' hk'
    obtain ⟨k, hk, heq⟩ := hget hk'
    exact heq ▸ h.fu t k hk

namespace Solver

variable {ss : List (Linearization K)} {ls : List (Vec K)} {t : ℕ}

theorem getD_costateStates {s : Linearization K} (hs : ss[t]? = some s)
    (hl : ls.length = ss.length + 1) :
    (costateStates ss ls).getD t [] =
      Vec.sub (ls.getD t []) (Mat.combine (ls.getD t []).length s.fx (ls.getD (t + 1) [])) := by
  induction ss generalizing ls t with
  | nil => simp at hs
  | cons s' ss ih =>
    obtain ⟨l, ls, rfl⟩ := List.exists_cons_of_length_eq_add_one hl
    obtain ⟨next, ls, rfl⟩ := List.exists_cons_of_length_eq_add_one (Nat.succ.inj hl)
    rw [costateStates]
    cases t with
    | zero =>
      obtain rfl : s' = s := by simpa using hs
      rfl
    | succ t => exact ih (by simpa using hs) (Nat.succ.inj hl)

theorem getD_costateStates_last (hl : ls.length = ss.length + 1) :
    (costateStates ss ls).getD ss.length [] = ls.getD ss.length [] := by
  induction ss generalizing ls with
  | nil =>
    obtain ⟨l, rfl⟩ := List.length_eq_one_iff.mp hl
    rfl
  | cons s ss ih =>
    obtain ⟨l, ls, rfl⟩ := List.exists_cons_of_length_eq_add_one hl
    obtain ⟨next, ls, rfl⟩ := List.exists_cons_of_length_eq_add_one (Nat.succ.inj hl)
    rw [costateStates]
    exact ih (Nat.succ.inj hl)

theorem length_costateStates (hl : ls.length = ss.length + 1) :
    (costateStates ss ls).length = ss.length + 1 := by
  induction ss generalizing ls with
  | nil =>
    obtain ⟨l, rfl⟩ := List.length_eq_one_iff.mp hl
    rfl
  | cons s ss ih =>
    obtain ⟨l, ls, rfl⟩ := List.exists_cons_of_length_eq_add_one hl
    obtain ⟨next, ls, rfl⟩ := List.exists_cons_of_length_eq_add_one (Nat.succ.inj hl)
    rw [costateStates, List.length_cons, ih (Nat.succ.inj hl), List.length_cons]

theorem getD_costateControls {ns : List ℕ} {s : Linearization K} (hs : ss[t]? = some s)
    (hn : ns.length = ss.length) (hl : ls.length = ss.length + 1) :
    (costateControls ns ss ls).getD t [] =
      Vec.neg (Mat.combine (ns.getD t 0) s.fu (ls.getD (t + 1) [])) := by
  induction ss generalizing ns ls t with
  | nil => simp at hs
  | cons s' ss ih =>
    obtain ⟨n, ns, rfl⟩ := List.exists_cons_of_length_eq_add_one hn
    obtain ⟨l, ls, rfl⟩ := List.exists_cons_of_length_eq_add_one hl
    obtain ⟨next, ls, rfl⟩ := List.exists_cons_of_length_eq_add_one (Nat.succ.inj hl)
    rw [costateControls]
    cases t with
    | zero =>
      obtain rfl : s' = s := by simpa using hs
      rfl
    | succ t => exact ih (by simpa using hs) (Nat.succ.inj hn) (Nat.succ.inj hl)

theorem length_costateControls {ns : List ℕ} (hn : ns.length = ss.length)
    (hl : ls.length = ss.length + 1) : (costateControls ns ss ls).length = ss.length := by
  induction ss generalizing ns ls with
  | nil =>
    obtain rfl := List.eq_nil_of_length_eq_zero hn
    rfl
  | cons s ss ih =>
    obtain ⟨n, ns, rfl⟩ := List.exists_cons_of_length_eq_add_one hn
    obtain ⟨l, ls, rfl⟩ := List.exists_cons_of_length_eq_add_one hl
    obtain ⟨next, ls, rfl⟩ := List.exists_cons_of_length_eq_add_one (Nat.succ.inj hl)
    rw [costateControls, List.length_cons, ih (Nat.succ.inj hn) (Nat.succ.inj hl), List.length_cons]

section Columns

variable {l : Layout} {ks : Knots K}

theorem getD_combine (hlen : ls.map List.length = l.ndxs) {n i : ℕ} {M : Mat K}
    (hM : ∀ row ∈ M, row.length = n) (hi : i < n) :
    (Mat.combine n M (ls.getD (t + 1) [])).getD i 0 =
      ∑ j ∈ range (l.ndxs.getD (t + 1) 0), M.entry j i * (ls.getD (t + 1) []).getD j 0 := by
  have hc := Mat.toFun_combine hM (.inl (length_getD hlen (t + 1)).le)
  rw [sum_range]
  exact congrFun hc ⟨i, hi⟩

variable (hl : l.ndxs.length = l.horizon + 1) (hks : ks.Rows l)
  (hlen : ls.map List.length = l.ndxs) (dxs dus : List (Vec K))

include hl hks hlen

theorem costateStates_eq : (costateStates (ks.running.map (·.slopes)) ls).flatten =
    (Layout.positions l.ndxs).map fun p => (l.multipliers.map fun τ =>
      System.matrixEntry ks τ (.state p.1 p.2) * Slot.value dxs dus ls τ).sum := by
  have hlast : (ks.running.map (·.slopes)).length = l.horizon := by
    rw [List.length_map, hks.count]
  have hcount : ls.length = (ks.running.map (·.slopes)).length + 1 := by
    rw [hlast, ← hl, ← hlen, List.length_map]
  apply Layout.flatten_eq (by rw [length_costateStates hcount, hlast, hl])
  intro t ht
  have hmult : (ls.getD t []).length = l.ndxAt t := length_getD hlen t
  rcases Nat.lt_succ_iff_lt_or_eq.mp (hl ▸ ht) with ht | rfl
  · obtain ⟨k, hk, hs, hat⟩ := hks.get ht
    have hcomb := Mat.length_combine (hks.fx t k hk) (ls.getD (t + 1) [])
    rw [getD_costateStates hs hcount, hmult]
    constructor
    · rw [Vec.length_sub, hmult, hcomb, min_self, Layout.ndxAt]
    · intro i hi
      rw [Vec.getD_sub (hmult.trans hcomb.symm), getD_combine hlen (hks.fx t k hk) hi,
        System.sum_state_column hi, hat]
      rfl
  · rw [← hlast, getD_costateStates_last hcount, hlast]
    constructor
    · exact hmult
    · intro i hi
      rw [System.sum_state_column hi, List.getD_eq_default (n := l.horizon + 1) _ _ hl.le, range_zero,
        sum_empty, sub_zero]
      rfl

theorem costateControls_eq :
    (costateControls l.nus (ks.running.map (·.slopes)) ls).flatten =
      (Layout.positions l.nus).map fun p => (l.multipliers.map fun τ =>
        System.matrixEntry ks τ (.control p.1 p.2) * Slot.value dxs dus ls τ).sum := by
  have hnus : l.nus.length = (ks.running.map (·.slopes)).length := by
    rw [List.length_map, hks.count]
    rfl
  have hcount : ls.length = (ks.running.map (·.slopes)).length + 1 := by
    rw [List.length_map, hks.count, ← hl, ← hlen, List.length_map]
  apply Layout.flatten_eq (by rw [length_costateControls hnus hcount, hnus])
  intro t ht
  obtain ⟨k, hk, hs, hat⟩ := hks.get ht
  rw [getD_costateControls hs hnus hcount]
  constructor
  · rw [Vec.length_neg]
    exact Mat.length_combine (hks.fu t k hk) _
  · intro i hi
    rw [Vec.getD_neg, System.sum_control_column, hat]
    exact congrArg Neg.neg (getD_combine hlen (hks.fu t k hk) hi)

/-- The costate terms are the product of the multipliers with the constraint block. -/
theorem costates_eq : (costateStates (ks.running.map (·.slopes)) ls).flatten ++
    (costateControls l.nus (ks.running.map (·.slopes)) ls).flatten =
      l.increments.map fun σ => (l.multipliers.map fun τ =>
        System.matrixEntry ks τ σ * Slot.value dxs dus ls τ).sum := by
  rw [costateStates_eq hl hks hlen dxs dus, costateControls_eq hl hks hlen dxs dus,
    Layout.increments, List.map_append, List.map_map, List.map_map]
  rfl

theorem length_costates : ((costateStates (ks.running.map (·.slopes)) ls).flatten ++
    (costateControls l.nus (ks.running.map (·.slopes)) ls).flatten).length = l.nprimal := by
  rw [costates_eq hl hks hlen [] [], List.length_map, Layout.length_increments]

theorem toFun_costates {s : System K} {f : Slot → Slot → K}
    (hm : s.matrix = Mat.grid l.slots l.slots f)
    (hf : ∀ τ ∈ l.multipliers, ∀ σ ∈ l.increments, f τ σ = System.matrixEntry ks τ σ) :
    Vec.toFun l.nprimal ((costateStates (ks.running.map (·.slopes)) ls).flatten ++
        (costateControls l.nus (ks.running.map (·.slopes)) ls).flatten) =
      (s.constraint l)ᵀ *ᵥ Vec.toFun _ ls.flatten := by
  have htotal : ls.flatten.length = l.ndx := by
    rw [List.length_flatten, hlen, List.sum_eq_foldr]
    rfl
  have hdual : l.multipliers.map (Slot.value [] [] ls) = ls.flatten := by
    have := Layout.map_value_multipliers htotal [] []
    rwa [← hlen, Layout.split_flatten] at this
  rw [costates_eq hl hks hlen [] [], ← hdual, System.constraint_eq hm,
    Mat.grid_transpose l.length_multipliers l.length_increments,
    Mat.grid_mulVec l.length_multipliers, Vec.toFun_map_eq_iff l.length_increments]
  intro σ hσ
  refine congrArg List.sum (List.map_congr_left ?_)
  intro τ hτ
  rw [hf τ hτ σ hσ]

end Columns

/-- The measure of convergence is the squared residual of the optimality conditions, at no increment
and the last multipliers. -/
theorem stop_measureStop {s : Solver K} {f : Slot → Slot → K}
    (hm : s.system.matrix = Mat.grid s.layout.slots s.layout.slots f)
    (hf : ∀ τ ∈ s.layout.multipliers, ∀ σ ∈ s.layout.increments,
      f τ σ = System.matrixEntry s.knots τ σ)
    (hr : s.system.residual.length = s.layout.nprimal + s.layout.ndx)
    (hks : s.knots.Rows s.layout)
    (hlen : s.direction.lambdas.map List.length = s.layout.ndxs) :
    let r := s.system.gradient s.layout +
      (s.system.constraint s.layout)ᵀ *ᵥ Vec.toFun _ s.direction.lambdas.flatten
    s.measureStop.stop =
      r ⬝ᵥ r + s.system.violation s.layout ⬝ᵥ s.system.violation s.layout := by
  intro r
  have hl : s.layout.ndxs.length = s.layout.horizon + 1 := Layout.length_ndxs_eq s.problem
  have hcount := length_costates hl hks hlen
  have htake : (s.system.residual.take s.layout.nprimal).length = s.layout.nprimal := by simp [hr]
  have hdrop : (s.system.residual.drop s.layout.nprimal).length = s.layout.ndx := by simp [hr]
  have hgradient : Vec.toFun s.layout.nprimal (s.system.residual.take s.layout.nprimal) =
      s.system.gradient s.layout := Vec.toFun_take _ _
  unfold measureStop
  dsimp only
  rw [Vec.normSq_eq (n := s.layout.nprimal) (by rw [Vec.length_add, htake, hcount, min_self]),
    Vec.toFun_add (htake.trans hcount.symm), hgradient, toFun_costates hl hks hlen hm hf,
    Vec.normSq_eq hdrop]
  rfl

end Solver
end Shooting
