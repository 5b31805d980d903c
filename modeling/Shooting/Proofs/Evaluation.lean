import Mathlib.Data.List.Basic
import Shooting.Problem

/-! # Evaluating and linearizing a problem

A linearization that succeeds leaves in every record the values and derivatives of its model at the
trajectory, whatever the records held before. Whether it succeeds does not depend on them either.
-/

namespace Shooting

variable {α : Type}

/-- The record holds the values of the model at a state and a control. -/
def Model.Evaluated (m : Model α) (k : Knot α) (x u : Vec α) : Prop :=
  m.eval x u = .ok (k.cost, k.xnext)

def Model.Linearized (m : Model α) (k : Knot α) (x u : Vec α) : Prop :=
  m.Evaluated k x u ∧ m.deriv x u = .ok k.slopes

theorem Model.Linearized.unique {m : Model α} {k k' : Knot α} {x u : Vec α}
    (h : m.Linearized k x u) (h' : m.Linearized k' x u) : k = k' := by
  obtain ⟨he, hd⟩ := h
  obtain ⟨he', hd'⟩ := h'
  obtain ⟨hc, hx⟩ := Prod.mk.inj (Except.ok.inj (he.symm.trans he'))
  have hs := Except.ok.inj (hd.symm.trans hd')
  cases k
  cases k'
  simp_all

namespace Problem

/-- A relation that holds at every knot of as many models, records, states and controls. -/
inductive AtKnots (R : Model α → Knot α → Vec α → Vec α → Prop) :
    List (Model α) → List (Knot α) → List (Vec α) → List (Vec α) → Prop
  | nil : AtKnots R [] [] [] []
  | cons {m k x u ms ks xs us} : R m k x u → AtKnots R ms ks xs us →
      AtKnots R (m :: ms) (k :: ks) (x :: xs) (u :: us)

theorem AtKnots.length_eq {R : Model α → Knot α → Vec α → Vec α → Prop} {ms ks xs us}
    (h : AtKnots R ms ks xs us) : ks.length = ms.length := by
  induction h with
  | nil => rfl
  | cons _ _ ih => simp [ih]

theorem AtKnots.get {R : Model α → Knot α → Vec α → Vec α → Prop} {ms ks xs us}
    (h : AtKnots R ms ks xs us) {t : ℕ} {m : Model α} (hm : ms[t]? = some m) :
    ∃ k x u, ks[t]? = some k ∧ xs[t]? = some x ∧ us[t]? = some u ∧ R m k x u := by
  induction h generalizing t with
  | nil => simp at hm
  | @cons m' k x u ms ks xs us hr _ ih =>
    cases t with
    | zero =>
      obtain rfl : m' = m := by simpa using hm
      exact ⟨k, x, u, rfl, rfl, rfl, hr⟩
    | succ t => exact ih (by simpa using hm)

theorem AtKnots.getD {R : Model α → Knot α → Vec α → Vec α → Prop} {ms ks us}
    {xs : List (Vec α)} (h : AtKnots R ms ks xs.dropLast us) (hx : xs.length = ms.length + 1) {t : ℕ} {m : Model α}
    (hm : ms[t]? = some m) : ∃ k, ks[t]? = some k ∧ R m k (xs.getD t []) (us.getD t []) := by
  obtain ⟨k, x, u, hk, hxt, hu, hr⟩ := h.get hm
  have ht : t < ms.length := (List.getElem?_eq_some_iff.mp hm).1
  have hx' : xs.getD t [] = x := by
    rw [List.getElem?_dropLast, if_pos (by rw [hx]; omega)] at hxt
    rw [List.getD_eq_getElem?_getD, hxt, Option.getD_some]
  have hu' : us.getD t [] = u := by rw [List.getD_eq_getElem?_getD, hu, Option.getD_some]
  exact ⟨k, hk, hx'.symm ▸ hu'.symm ▸ hr⟩

theorem AtKnots.unique {R : Model α → Knot α → Vec α → Vec α → Prop} {ms ks ks' xs us}
    (hR : ∀ m k k' x u, R m k x u → R m k' x u → k = k') (h : AtKnots R ms ks xs us)
    (h' : AtKnots R ms ks' xs us) : ks = ks' := by
  induction h generalizing ks' with
  | nil =>
    cases h'
    rfl
  | cons hr _ ih =>
    cases h' with
    | cons hr' h' => rw [hR _ _ _ _ _ hr hr', ih h']

abbrev Aligned (ms : List (Model α)) (ks : List (Knot α)) (xs us : List (Vec α)) : Prop :=
  AtKnots (fun _ _ _ _ => True) ms ks xs us

theorem aligned_of_length {ms : List (Model α)} {ks : List (Knot α)} {xs us : List (Vec α)}
    (hk : ks.length = ms.length) (hx : xs.length = ms.length) (hu : us.length = ms.length) :
    Aligned ms ks xs us := by
  induction ms generalizing ks xs us with
  | nil =>
    obtain rfl := List.eq_nil_of_length_eq_zero hk
    obtain rfl := List.eq_nil_of_length_eq_zero hx
    obtain rfl := List.eq_nil_of_length_eq_zero hu
    exact .nil
  | cons m ms ih =>
    obtain ⟨k, ks, rfl⟩ := List.exists_cons_of_length_eq_add_one hk
    obtain ⟨x, xs, rfl⟩ := List.exists_cons_of_length_eq_add_one hx
    obtain ⟨u, us, rfl⟩ := List.exists_cons_of_length_eq_add_one hu
    simp only [List.length_cons, Nat.add_right_cancel_iff] at hk hx hu
    exact .cons trivial (ih hk hx hu)

theorem AtKnots.of_forall {R : Model α → Knot α → Vec α → Vec α → Prop} {ms ks xs us}
    (ha : Aligned ms ks xs us) (h : ∀ (t : ℕ) m k x u, ms[t]? = some m → ks[t]? = some k →
      xs[t]? = some x → us[t]? = some u → R m k x u) : AtKnots R ms ks xs us := by
  induction ha with
  | nil => exact .nil
  | cons _ _ ih =>
    refine .cons (h 0 _ _ _ _ rfl rfl rfl rfl) (ih ?_)
    intro t m k x u hm hk hx hu
    exact h (t + 1) m k x u hm hk hx hu

section Pass

variable [Scalar α] {ms : List (Model α)} {ks ks' : List (Knot α)} {xs us : List (Vec α)} {c c' : α}

theorem evaluateRunning_cons (m : Model α) (ms : List (Model α)) (k : Knot α) (ks : List (Knot α))
    (x : Vec α) (xs : List (Vec α)) (u : Vec α) (us : List (Vec α)) (c : α) :
    evaluateRunning (m :: ms) (k :: ks) (x :: xs) (u :: us) c =
      match m.eval x u with
      | .error f => (k :: ks, .error f)
      | .ok (cost, xnext) =>
        let rest := evaluateRunning ms ks xs us (c + cost)
        ({ k with cost, xnext } :: rest.1, rest.2) := by
  rw [evaluateRunning, Model.evaluate]
  cases m.eval x u <;> rfl

omit [Scalar α] in
theorem linearizeRunning_cons (m : Model α) (ms : List (Model α)) (k : Knot α) (ks : List (Knot α))
    (x : Vec α) (xs : List (Vec α)) (u : Vec α) (us : List (Vec α)) :
    linearizeRunning (m :: ms) (k :: ks) (x :: xs) (u :: us) =
      match m.deriv x u with
      | .error f => (k :: ks, .error f)
      | .ok slopes =>
        let rest := linearizeRunning ms ks xs us
        ({ k with slopes } :: rest.1, rest.2) := by
  rw [linearizeRunning, Model.linearize]
  cases m.deriv x u <;> rfl

theorem evaluateRunning_ok (ha : Aligned ms ks xs us)
    (h : evaluateRunning ms ks xs us c = (ks', .ok c')) : AtKnots Model.Evaluated ms ks' xs us := by
  induction ha generalizing c ks' with
  | nil =>
    obtain ⟨rfl, -⟩ := Prod.mk.inj h
    exact .nil
  | @cons m k x u ms ks xs us _ _ ih =>
    rw [evaluateRunning_cons] at h
    cases he : m.eval x u with
    | error f => simp [he] at h
    | ok r =>
      rw [he] at h
      obtain rfl := congrArg Prod.fst h
      have hrest : (evaluateRunning ms ks xs us (c + r.1)).2 = .ok c' := congrArg Prod.snd h
      exact .cons he (ih (Prod.ext rfl hrest))

omit [Scalar α] in
theorem linearizeRunning_ok (ha : AtKnots Model.Evaluated ms ks xs us)
    (h : linearizeRunning ms ks xs us = (ks', .ok ())) : AtKnots Model.Linearized ms ks' xs us := by
  induction ha generalizing ks' with
  | nil =>
    obtain ⟨rfl, -⟩ := Prod.mk.inj h
    exact .nil
  | @cons m k x u ms ks xs us hev _ ih =>
    rw [linearizeRunning_cons] at h
    cases hd : m.deriv x u with
    | error f => simp [hd] at h
    | ok slopes =>
      rw [hd] at h
      obtain rfl := congrArg Prod.fst h
      have hrest : (linearizeRunning ms ks xs us).2 = .ok () := congrArg Prod.snd h
      exact .cons ⟨hev, hd⟩ (ih (Prod.ext rfl hrest))

theorem evaluateRunning_total (h : AtKnots (fun m _ x u => ∃ r, m.eval x u = .ok r) ms ks xs us)
    (c : α) : ∃ c', (evaluateRunning ms ks xs us c).2 = .ok c' := by
  induction h generalizing c with
  | nil => exact ⟨c, rfl⟩
  | cons hr _ ih =>
    obtain ⟨r, hr⟩ := hr
    rw [evaluateRunning_cons, hr]
    exact ih _

omit [Scalar α] in
theorem linearizeRunning_total (h : AtKnots (fun m _ x u => ∃ s, m.deriv x u = .ok s) ms ks xs us) :
    (linearizeRunning ms ks xs us).2 = .ok () := by
  induction h with
  | nil => rfl
  | cons hr _ ih =>
    obtain ⟨s, hs⟩ := hr
    rw [linearizeRunning_cons, hs]
    exact ih

theorem evaluateRunning_snd (ha : Aligned ms ks xs us) (ha' : Aligned ms ks' xs us) (c : α) :
    (evaluateRunning ms ks xs us c).2 = (evaluateRunning ms ks' xs us c).2 := by
  induction ha generalizing ks' c with
  | nil =>
    cases ha'
    rfl
  | @cons m k x u ms ks xs us _ _ ih =>
    cases ha' with
    | cons _ ha' =>
      rw [evaluateRunning_cons, evaluateRunning_cons]
      cases m.eval x u with
      | error f => rfl
      | ok r => exact ih ha' _

omit [Scalar α] in
theorem linearizeRunning_snd (ha : Aligned ms ks xs us) (ha' : Aligned ms ks' xs us) :
    (linearizeRunning ms ks xs us).2 = (linearizeRunning ms ks' xs us).2 := by
  induction ha generalizing ks' with
  | nil =>
    cases ha'
    rfl
  | @cons m k x u ms ks xs us _ _ ih =>
    cases ha' with
    | cons _ ha' =>
      rw [linearizeRunning_cons, linearizeRunning_cons]
      cases m.deriv x u with
      | error f => rfl
      | ok r => exact ih ha'

@[simp] theorem length_evaluateRunning (ms : List (Model α)) (ks : List (Knot α))
    (xs us : List (Vec α)) (c : α) : (evaluateRunning ms ks xs us c).1.length = ks.length := by
  fun_induction evaluateRunning ms ks xs us c <;> simp_all

omit [Scalar α] in
@[simp] theorem length_linearizeRunning (ms : List (Model α)) (ks : List (Knot α))
    (xs us : List (Vec α)) : (linearizeRunning ms ks xs us).1.length = ks.length := by
  fun_induction linearizeRunning ms ks xs us <;> simp_all

omit [Scalar α] in
@[simp] theorem length_rolloutFrom (ms : List (Model α)) (ks : List (Knot α)) (us : List (Vec α))
    (x : Vec α) : (rolloutFrom ms ks us x).1.length = ks.length := by
  fun_induction rolloutFrom ms ks us x <;> simp_all

end Pass

/-- The records hold the values and derivatives of all models along a trajectory. -/
structure LinearizedAt (p : Problem α) (xs us : List (Vec α)) (ks : Knots α) : Prop where
  running : AtKnots Model.Linearized p.running ks.running xs.dropLast us
  terminal : p.terminal.Linearized ks.terminal (xs.getLastD []) []

variable [Scalar α] {p : Problem α} {ks ks' : Knots α} {xs us : List (Vec α)} {c : α}

/-- A record for each running knot, and a trajectory of the length of the problem. -/
structure Fits (p : Problem α) (ks : Knots α) (xs us : List (Vec α)) : Prop where
  knots : ks.running.length = p.horizon
  states : xs.length = p.horizon + 1
  controls : us.length = p.horizon

omit [Scalar α] in
theorem Fits.aligned (h : p.Fits ks xs us) : Aligned p.running ks.running xs.dropLast us :=
  aligned_of_length h.knots (by simp [h.states, horizon]) h.controls

omit [Scalar α] in
theorem Fits.getLast? (h : p.Fits ks xs us) : xs.getLast? = some (xs.getLastD []) := by
  have hne : xs ≠ [] := by
    rintro rfl
    simpa using h.states
  simp [List.getLast?_eq_some_getLast hne, List.getLastD_eq_getLast?]

/-- The outcome of an evaluation: the costs of the running knots, then that of the terminal one. -/
theorem Fits.evaluate_snd (h : p.Fits ks xs us) :
    (p.evaluate ks xs us).2 =
      (evaluateRunning p.running ks.running xs.dropLast us 0).2.bind fun total =>
        (p.terminal.eval (xs.getLastD []) []).map fun r => total + r.1 := by
  simp only [evaluate, h.getLast?, Model.evaluate]
  rcases evaluateRunning p.running ks.running xs.dropLast us 0 with ⟨running, f | total⟩
  · rfl
  · rcases p.terminal.eval (xs.getLastD []) [] with f | r <;> rfl

theorem Fits.evaluate_ok (h : p.Fits ks xs us) (he : p.evaluate ks xs us = (ks', .ok c)) :
    AtKnots Model.Evaluated p.running ks'.running xs.dropLast us ∧
      p.terminal.Evaluated ks'.terminal (xs.getLastD []) [] := by
  simp only [evaluate, h.getLast?, Model.evaluate] at he
  rcases hr : evaluateRunning p.running ks.running xs.dropLast us 0 with ⟨running, f | total⟩
  · simp [hr] at he
  · rcases ht : p.terminal.eval (xs.getLastD []) [] with f | r
    · simp only [hr, ht, Prod.mk.injEq, reduceCtorEq, and_false] at he
    · simp only [hr, ht, Prod.mk.injEq] at he
      obtain ⟨rfl, -⟩ := he
      exact ⟨evaluateRunning_ok h.aligned hr, ht⟩

theorem Fits.eval_ok (h : p.Fits ks xs us) (he : (p.evaluate ks xs us).2 = .ok c) {t : ℕ}
    {m : Model α} (hm : p.running[t]? = some m) :
    ∃ r, m.eval (xs.getD t []) (us.getD t []) = .ok r := by
  obtain ⟨k, -, hk⟩ := (h.evaluate_ok (Prod.ext rfl he)).1.getD h.states hm
  exact ⟨_, hk⟩

@[simp] theorem length_evaluate (p : Problem α) (ks : Knots α) (xs us : List (Vec α)) :
    (p.evaluate ks xs us).1.running.length = ks.running.length := by
  have := length_evaluateRunning p.running ks.running xs.dropLast us 0
  unfold evaluate
  split <;> rename_i heq <;> rw [heq] at this
  · exact this
  · split
    · exact this
    · split <;> exact this

theorem length_of_evaluate {r : Except Fault α} (h : p.evaluate ks xs us = (ks', r)) :
    ks'.running.length = ks.running.length := by
  have hlen := length_evaluate p ks xs us
  rw [h] at hlen
  exact hlen

theorem Fits.evaluate (h : p.Fits ks xs us) : p.Fits (p.evaluate ks xs us).1 xs us :=
  ⟨(length_evaluate p ks xs us).trans h.knots, h.states, h.controls⟩

@[simp] theorem length_linearize (p : Problem α) (ks : Knots α) (xs us : List (Vec α)) :
    (p.linearize ks xs us).1.running.length = ks.running.length := by
  unfold linearize
  split <;> rename_i he
  · exact length_of_evaluate he
  · rename_i ks' cost
    have hlen := length_linearizeRunning p.running ks'.running xs.dropLast us
    split <;> rename_i hl <;> rw [hl] at hlen
    · exact hlen.trans (length_of_evaluate he)
    · split <;> exact hlen.trans (length_of_evaluate he)

omit [Scalar α] in
@[simp] theorem length_rollout (p : Problem α) (ks : Knots α) (us : List (Vec α)) :
    (p.rollout ks us).1.running.length = ks.running.length := by
  unfold rollout
  split
  · rfl
  · exact length_rolloutFrom p.running ks.running us p.x0

/-- The outcome of a linearization: that of the evaluation, unless a derivative fails. -/
theorem linearize_snd (p : Problem α) (ks : Knots α) (xs us : List (Vec α)) :
    (p.linearize ks xs us).2 =
      (p.evaluate ks xs us).2.bind fun c =>
        (linearizeRunning p.running (p.evaluate ks xs us).1.running xs.dropLast us).2.bind fun _ =>
          (p.terminal.deriv (xs.getLastD []) []).map fun _ => c := by
  simp only [linearize, Model.linearize]
  rcases p.evaluate ks xs us with ⟨ks₁, f | c⟩
  · rfl
  · rcases hl : linearizeRunning p.running ks₁.running xs.dropLast us with ⟨running, f | u⟩
    · simp [hl, Except.bind]
    · rcases p.terminal.deriv (xs.getLastD []) [] with f | r <;> simp [hl, Except.bind, Except.map]

/-- After a linearization that succeeded every record is up to date. -/
theorem Fits.linearize_ok (h : p.Fits ks xs us) (hl : p.linearize ks xs us = (ks', .ok c)) :
    p.LinearizedAt xs us ks' ∧ (p.evaluate ks xs us).2 = .ok c := by
  simp only [linearize, Model.linearize] at hl
  rcases he : p.evaluate ks xs us with ⟨ks₁, f | c₁⟩
  · simp [he] at hl
  · obtain ⟨hrun, hterm⟩ := h.evaluate_ok he
    rcases hr : linearizeRunning p.running ks₁.running xs.dropLast us with ⟨running, f | u⟩
    · simp [he, hr] at hl
    · rcases hd : p.terminal.deriv (xs.getLastD []) [] with f | slopes
      · simp only [he, hr, hd, Prod.mk.injEq, reduceCtorEq, and_false] at hl
      · simp only [he, hr, hd, Prod.mk.injEq] at hl
        obtain ⟨rfl, hc⟩ := hl
        exact ⟨⟨linearizeRunning_ok hrun hr, hterm, hd⟩, hc⟩

/-- The outcome of an evaluation does not depend on the records that it goes to. -/
theorem Fits.evaluate_congr (h : p.Fits ks xs us) (h' : p.Fits ks' xs us) :
    (p.evaluate ks xs us).2 = (p.evaluate ks' xs us).2 := by
  rw [h.evaluate_snd, h'.evaluate_snd, evaluateRunning_snd h.aligned h'.aligned]

theorem Fits.linearize_congr (h : p.Fits ks xs us) (h' : p.Fits ks' xs us) :
    (p.linearize ks xs us).2 = (p.linearize ks' xs us).2 := by
  rw [linearize_snd, linearize_snd, h.evaluate_congr h',
    linearizeRunning_snd h.evaluate.aligned h'.evaluate.aligned]

theorem getD_defects {ms : List (Model α)} {ks : List (Knot α)} {xs : List (Vec α)} {t : ℕ}
    {m : Model α} {k : Knot α} (hm : ms[t]? = some m) (hk : ks[t]? = some k) (hx : t < xs.length) :
    (defects ms ks xs).getD t [] = m.next.diff k.xnext (xs.getD t []) := by
  induction ms generalizing ks xs t with
  | nil => simp at hm
  | cons m' ms ih =>
    cases ks with
    | nil => simp at hk
    | cons k' ks =>
      cases xs with
      | nil => simp at hx
      | cons x xs =>
        cases t with
        | zero =>
          obtain rfl : m' = m := by simpa using hm
          obtain rfl : k' = k := by simpa using hk
          rfl
        | succ t =>
          have := @ih ks xs t (by simpa using hm) (by simpa using hk) (by simpa using hx)
          rwa [defects, List.getD_cons_succ, List.getD_cons_succ]

theorem Fits.gaps_zero (h : p.Fits ks xs us) {m : Model α} (hm : p.running[0]? = some m) :
    (p.gaps ks xs).getD 0 [] = m.state.diff p.x0 (xs.getD 0 []) := by
  obtain ⟨x, xs, rfl⟩ := List.exists_cons_of_length_eq_add_one h.states
  obtain ⟨ms, hms⟩ : ∃ ms, p.running = m :: ms := by
    cases hr : p.running with
    | nil => simp [hr] at hm
    | cons m' ms =>
      obtain rfl : m' = m := by simpa [hr] using hm
      exact ⟨ms, rfl⟩
  simp [gaps, hms]

theorem Fits.gaps_succ (h : p.Fits ks xs us) {t : ℕ} {m : Model α} {k : Knot α}
    (hm : p.running[t]? = some m) (hk : ks.running[t]? = some k) :
    (p.gaps ks xs).getD (t + 1) [] = m.next.diff k.xnext (xs.getD (t + 1) []) := by
  obtain ⟨x, xs, rfl⟩ := List.exists_cons_of_length_eq_add_one h.states
  have ht : t < p.running.length := (List.getElem?_eq_some_iff.mp hm).1
  have hx : t < xs.length := by
    have := h.states
    simp only [List.length_cons, horizon] at this
    omega
  have hg : p.gaps ks (x :: xs) =
      ((p.gaps ks (x :: xs)).getD 0 []) :: defects p.running ks.running xs := by
    cases hr : p.running with
    | nil => simp [hr] at ht
    | cons m' ms => simp [gaps, hr]
  rw [hg, List.getD_cons_succ, List.getD_cons_succ, getD_defects hm hk hx]

omit [Scalar α] in
theorem LinearizedAt.unique (h : p.LinearizedAt xs us ks) (h' : p.LinearizedAt xs us ks') :
    ks = ks' := by
  have hr := AtKnots.unique (R := Model.Linearized) (fun _ _ _ _ _ => Model.Linearized.unique)
    h.running h'.running
  have ht := h.terminal.unique h'.terminal
  cases ks
  cases ks'
  simp_all

theorem Fits.linearize_of_linearizedAt (h : p.Fits ks xs us) (hl : p.LinearizedAt xs us ks') :
    ∃ c, p.linearize ks xs us = (ks', .ok c) := by
  have hknot {t : ℕ} {m : Model α} {x u : Vec α} (hm : p.running[t]? = some m)
      (hx : xs.dropLast[t]? = some x) (hu : us[t]? = some u) : ∃ k, m.Linearized k x u := by
    obtain ⟨k, x', u', -, hx', hu', hlin⟩ := hl.running.get hm
    obtain rfl := Option.some.inj (hx'.symm.trans hx)
    obtain rfl := Option.some.inj (hu'.symm.trans hu)
    exact ⟨k, hlin⟩
  obtain ⟨total, htotal⟩ := evaluateRunning_total (.of_forall h.aligned fun t m k x u hm _ hx hu =>
    have ⟨_, hlin⟩ := hknot hm hx hu
    ⟨_, hlin.1⟩) 0
  have hpass : (linearizeRunning p.running (p.evaluate ks xs us).1.running xs.dropLast us).2 =
      .ok () := linearizeRunning_total (.of_forall h.evaluate.aligned fun t m k x u hm _ hx hu =>
    have ⟨_, hlin⟩ := hknot hm hx hu
    ⟨_, hlin.2⟩)
  have heval : (p.evaluate ks xs us).2 = .ok (total + ks'.terminal.cost) := by
    rw [h.evaluate_snd, htotal, hl.terminal.1]
    rfl
  have hsnd : (p.linearize ks xs us).2 = .ok (total + ks'.terminal.cost) := by
    rw [linearize_snd, heval]
    change (linearizeRunning _ _ _ _).2.bind _ = _
    rw [hpass, hl.terminal.2]
    rfl
  have hpair : p.linearize ks xs us = ((p.linearize ks xs us).1, .ok _) := Prod.ext rfl hsnd
  exact ⟨_, hpair.trans (by rw [(h.linearize_ok hpair).1.unique hl])⟩

end Problem
end Shooting
