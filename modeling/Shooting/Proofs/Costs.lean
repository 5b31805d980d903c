import Shooting.Proofs.Evaluation
import Shooting.Proofs.Trajectory

/-! # The cost of a trajectory

An evaluation goes from knot to knot. It ends at the first one that raises a fault, with that fault,
or else with the sum of the costs of all knots. Nothing in its outcome comes from the records that
the knots had before.
-/

namespace Shooting

variable {α : Type}

namespace Problem

def evalAt (ms : List (Model α)) (xs us : List (Vec α)) (t : ℕ) :
    Option (Except Fault (α × Vec α)) :=
  ms[t]?.map fun m => m.eval (xs.getD t []) (us.getD t [])

/-- A knot raises a fault, and none before it does. -/
structure RaisesAt (ms : List (Model α)) (xs us : List (Vec α)) (t : ℕ) (f : Fault) : Prop where
  fault : evalAt ms xs us t = some (.error f)
  earlier : ∀ i < t, ∃ r, evalAt ms xs us i = some (.ok r)

structure CostsAlong [Scalar α] (ms : List (Model α)) (xs us : List (Vec α)) (costs : List α) :
    Prop where
  length : costs.length = ms.length
  cost : ∀ t < ms.length, ∃ y, evalAt ms xs us t = some (.ok (costs.getD t 0, y))

variable {p : Problem α} {m : Model α} {ms : List (Model α)} {k : Knot α} {ks : List (Knot α)}
  {x u : Vec α} {xs us : List (Vec α)} {t t' : ℕ} {f f' : Fault} {costs costs' : List α} {c c' : α}

theorem RaisesAt.unique (h : RaisesAt ms xs us t f) (h' : RaisesAt ms xs us t' f') :
    t = t' ∧ f = f' := by
  rcases Nat.lt_trichotomy t t' with hlt | rfl | hlt
  · obtain ⟨r, hr⟩ := h'.earlier t hlt
    cases h.fault.symm.trans hr
  · cases h.fault.symm.trans h'.fault
    exact ⟨rfl, rfl⟩
  · obtain ⟨r, hr⟩ := h.earlier t' hlt
    cases h'.fault.symm.trans hr

theorem RaisesAt.zero (h : m.eval x u = .error f) : RaisesAt (m :: ms) (x :: xs) (u :: us) 0 f :=
  ⟨congrArg some h, nofun⟩

theorem RaisesAt.succ {r : α × Vec α} (hr : m.eval x u = .ok r) (h : RaisesAt ms xs us t f) :
    RaisesAt (m :: ms) (x :: xs) (u :: us) (t + 1) f := by
  refine ⟨h.fault, fun i hi => ?_⟩
  cases i with
  | zero => exact ⟨r, congrArg some hr⟩
  | succ i => exact h.earlier i (Nat.lt_of_succ_lt_succ hi)

variable [Scalar α]

theorem CostsAlong.not_raisesAt (h : CostsAlong ms xs us costs) : ¬ RaisesAt ms xs us t f := by
  rintro ⟨hf, -⟩
  have ht : t < ms.length := by
    by_contra hge
    rw [evalAt, List.getElem?_eq_none (Nat.not_lt.mp hge)] at hf
    cases hf
  obtain ⟨y, hy⟩ := h.cost t ht
  cases hf.symm.trans hy

theorem CostsAlong.unique (h : CostsAlong ms xs us costs) (h' : CostsAlong ms xs us costs') :
    costs = costs' := by
  apply List.ext_getElem (h.length.trans h'.length.symm)
  intro t ht ht'
  obtain ⟨y, hy⟩ := h.cost t (h.length ▸ ht)
  obtain ⟨y', hy'⟩ := h'.cost t (h.length ▸ ht)
  have hcost := congrArg Prod.fst (Except.ok.inj (Option.some.inj (hy.symm.trans hy')))
  simpa [List.getD_eq_getElem?_getD, ht, ht'] using hcost

theorem CostsAlong.cons {y : Vec α} (hc : m.eval x u = .ok (c, y)) (h : CostsAlong ms xs us costs) :
    CostsAlong (m :: ms) (x :: xs) (u :: us) (c :: costs) := by
  refine ⟨congrArg (· + 1) h.length, fun t ht => ?_⟩
  cases t with
  | zero => exact ⟨y, congrArg some hc⟩
  | succ t => exact h.cost t (Nat.lt_of_succ_lt_succ ht)

theorem exists_costsAlong (ha : Aligned ms ks xs us)
    (h : (evaluateRunning ms ks xs us c).2 = .ok c') :
    ∃ costs, CostsAlong ms xs us costs ∧ c' = costs.foldl (· + ·) c := by
  induction ha generalizing c with
  | nil =>
    cases h
    exact ⟨[], ⟨rfl, nofun⟩, rfl⟩
  | @cons m k x u ms ks xs us _ _ ih =>
    rw [evaluateRunning_cons] at h
    cases he : m.eval x u with
    | error f =>
      rw [he] at h
      cases h
    | ok r =>
      rw [he] at h
      obtain ⟨costs, hcosts, rfl⟩ := ih h
      exact ⟨r.1 :: costs, hcosts.cons he, rfl⟩

theorem exists_raisesAt (ha : Aligned ms ks xs us)
    (h : (evaluateRunning ms ks xs us c).2 = .error f) : ∃ t, RaisesAt ms xs us t f := by
  induction ha generalizing c with
  | nil => cases h
  | @cons m k x u ms ks xs us _ _ ih =>
    rw [evaluateRunning_cons] at h
    cases he : m.eval x u with
    | error f' =>
      rw [he] at h
      cases h
      exact ⟨0, .zero he⟩
    | ok r =>
      rw [he] at h
      obtain ⟨t, ht⟩ := ih h
      exact ⟨t + 1, ht.succ he⟩

/-- A last knot is passed after all others, and only if none of them has raised a fault. -/
theorem evaluateRunning_concat (ha : Aligned ms ks xs us) :
    (evaluateRunning (ms ++ [m]) (ks ++ [k]) (xs ++ [x]) (us ++ [u]) c).2 =
      (evaluateRunning ms ks xs us c).2.bind fun total => (m.eval x u).map (total + ·.1) := by
  induction ha generalizing c with
  | nil =>
    change (evaluateRunning [m] [k] [x] [u] c).2 = (m.eval x u).map (c + ·.1)
    rw [evaluateRunning_cons]
    cases m.eval x u <;> rfl
  | @cons m' k' x' u' ms ks xs us _ _ ih =>
    rw [List.cons_append, List.cons_append, List.cons_append, List.cons_append,
      evaluateRunning_cons, evaluateRunning_cons]
    cases m'.eval x' u' with
    | error f => rfl
    | ok r => exact ih

variable {K : Knots α}

theorem Fits.evaluate_models (h : p.Fits K xs us) :
    (p.evaluate K xs us).2 =
      (evaluateRunning p.models (K.running ++ [K.terminal]) xs (us ++ [[]]) 0).2 := by
  have hxs : xs.dropLast ++ [xs.getLastD []] = xs := by
    have hne : xs ≠ [] := List.ne_nil_of_length_eq_add_one h.states
    rw [List.getLastD_eq_getLast?, List.getLast?_eq_some_getLast hne, Option.getD_some,
      List.dropLast_append_getLast]
  conv_rhs => rw [← hxs]
  rw [h.evaluate_snd, models, evaluateRunning_concat h.aligned]

omit [Scalar α] in
theorem evalAt_concat_nil : evalAt ms xs (us ++ [[]]) = evalAt ms xs us := by
  funext t
  have hu : (us ++ [[]]).getD t [] = us.getD t [] := by
    rw [List.getD_eq_getElem?_getD, List.getD_eq_getElem?_getD]
    rcases Nat.lt_trichotomy t us.length with hlt | rfl | hlt
    · rw [List.getElem?_append_left hlt]
    · rw [List.getElem?_concat_length, List.getElem?_eq_none (Nat.le_refl _)]
      rfl
    · rw [List.getElem?_eq_none (by simpa using Nat.succ_le_of_lt hlt),
        List.getElem?_eq_none (Nat.le_of_lt hlt)]
  rw [evalAt, hu, evalAt]

omit [Scalar α] in
theorem Fits.aligned_models (h : p.Fits K xs us) :
    Aligned p.models (K.running ++ [K.terminal]) xs (us ++ [[]]) := by
  apply aligned_of_length
  · simp [h.knots]
  · simp [h.states]
  · simp [h.controls]

omit [Scalar α] in
theorem RaisesAt.of_concat_nil (h : RaisesAt ms xs (us ++ [[]]) t f) : RaisesAt ms xs us t f := by
  obtain ⟨hf, hearlier⟩ := h
  rw [evalAt_concat_nil] at hf hearlier
  exact ⟨hf, hearlier⟩

theorem CostsAlong.of_concat_nil (h : CostsAlong ms xs (us ++ [[]]) costs) :
    CostsAlong ms xs us costs := by
  obtain ⟨hlen, hcost⟩ := h
  rw [evalAt_concat_nil] at hcost
  exact ⟨hlen, hcost⟩

/-- An evaluation either raises the first fault along the trajectory or sums up its costs. -/
theorem Fits.evaluate_cases (h : p.Fits K xs us) :
    (∃ t f, RaisesAt p.models xs us t f ∧ (p.evaluate K xs us).2 = .error f) ∨
      ∃ costs, CostsAlong p.models xs us costs ∧
        (p.evaluate K xs us).2 = .ok (costs.foldl (· + ·) 0) := by
  rw [h.evaluate_models]
  cases he : (evaluateRunning p.models (K.running ++ [K.terminal]) xs (us ++ [[]]) 0).2 with
  | error f =>
    obtain ⟨t, ht⟩ := exists_raisesAt h.aligned_models he
    exact .inl ⟨t, f, ht.of_concat_nil, rfl⟩
  | ok c =>
    obtain ⟨costs, hcosts, rfl⟩ := exists_costsAlong h.aligned_models he
    exact .inr ⟨costs, hcosts.of_concat_nil, rfl⟩

theorem Fits.evaluate_error_iff (h : p.Fits K xs us) :
    (p.evaluate K xs us).2 = .error f ↔ ∃ t, RaisesAt p.models xs us t f := by
  obtain ⟨t, f', ht, he⟩ | ⟨costs, hcosts, he⟩ := h.evaluate_cases
  · rw [he]
    constructor
    · rintro ⟨⟩
      exact ⟨t, ht⟩
    · rintro ⟨t', ht'⟩
      rw [(ht.unique ht').2]
  · rw [he]
    constructor
    · rintro ⟨⟩
    · rintro ⟨t, ht⟩
      exact absurd ht hcosts.not_raisesAt

theorem Fits.evaluate_ok_iff (h : p.Fits K xs us) :
    (p.evaluate K xs us).2 = .ok c ↔
      ∃ costs, CostsAlong p.models xs us costs ∧ c = costs.foldl (· + ·) 0 := by
  obtain ⟨t, f, ht, he⟩ | ⟨costs, hcosts, he⟩ := h.evaluate_cases
  · rw [he]
    constructor
    · rintro ⟨⟩
    · rintro ⟨costs, hcosts, -⟩
      exact absurd ht hcosts.not_raisesAt
  · rw [he]
    constructor
    · rintro ⟨⟩
      exact ⟨costs, hcosts, rfl⟩
    · rintro ⟨costs', hcosts', rfl⟩
      rw [hcosts.unique hcosts']

end Problem
end Shooting
