import Shooting.Proofs.Trail

/-! # The range of the damping

Whatever weight a solve starts with, both weights are the same in all of its states and lie between
the bounds of the range, or between them and the seed. The range is never left, and a weight out of
it is the seed or what is left of it after some factors have been taken off. The same holds of any
sequence of operations that raise and lower the weights.
-/

namespace Shooting

variable {K : Type} [ExactScalar K] {o : Options K} {seed x : K}

namespace Options

/-- The weights that a seed can lead to: itself, those in range, and those above the range that it
passes through on its way down. -/
inductive Reaches (o : Options K) (seed : K) : K → Prop
  | seed : Reaches o seed seed
  | inRange {x : K} (h : x ∈ o.range) : Reaches o seed x
  | above {k : ℕ} (h : o.regMax < seed / o.regFactor ^ (k + 1)) :
    Reaches o seed (seed / o.regFactor ^ (k + 1))

theorem Reaches.raised (ho : o.InRange) (seed x : K) : o.Reaches seed (o.raised x) :=
  .inRange (raised_mem_range ho x)

theorem Reaches.lowered (ho : o.InRange) (h : o.Reaches seed x) : o.Reaches seed (o.lowered x) := by
  by_cases hx : o.lowered x ∈ o.range
  · exact .inRange hx
  · obtain ⟨heq, habove⟩ := lowered_of_not_mem_range ho hx
    rw [heq]
    cases h with
    | seed =>
      rw [← pow_one o.regFactor] at habove ⊢
      exact .above (k := 0) habove
    | inRange h => exact absurd (lowered_mem_range ho h) hx
    | @above k h =>
      rw [div_div, ← pow_succ] at habove ⊢
      exact .above habove

theorem lt_seed (ho : o.InRange) {k : ℕ} (h : o.regMax < seed / o.regFactor ^ (k + 1)) :
    seed / o.regFactor ^ (k + 1) < seed := by
  have hpow : 1 < o.regFactor ^ (k + 1) := one_lt_pow₀ ho.regFactor k.succ_ne_zero
  have hseed : 0 < seed := by
    by_contra hneg
    have hquotient : seed / o.regFactor ^ (k + 1) ≤ 0 :=
      div_nonpos_of_nonpos_of_nonneg (not_lt.mp hneg) (zero_le_one.trans hpow.le)
    exact (ho.regMax_pos.trans h).not_ge hquotient
  exact div_lt_self hseed hpow

theorem Reaches.bounds (ho : o.InRange) (h : o.Reaches seed x) :
    min seed o.regMin ≤ x ∧ x ≤ max seed o.regMax := by
  cases h with
  | seed => exact ⟨min_le_left _ _, le_max_left _ _⟩
  | inRange h => exact ⟨min_le_of_right_le h.1, le_max_of_le_right h.2⟩
  | above h =>
    constructor
    · exact min_le_of_right_le (ho.regMax.trans h).le
    · exact le_max_of_le_left (lt_seed ho h).le

theorem Reaches.of_not_mem_range (ho : o.InRange) (h : o.Reaches seed x) (hx : x ∉ o.range) :
    x = seed ∨ o.regMax < seed ∧ ∃ k ≥ 1, x = seed / o.regFactor ^ k := by
  cases h with
  | seed => exact .inl rfl
  | inRange h => exact absurd h hx
  | @above k h => exact .inr ⟨h.trans (lt_seed ho h), k + 1, Nat.le_add_left 1 k, rfl⟩

end Options

namespace Solver

/-- What a seed makes of the weights of a solver: they are the same, between the bounds of the range
or between them and the seed, and out of range only on the way down from it. -/
structure Confined (o : Options K) (seed : K) (s : Solver K) : Prop where
  same : s.ureg = s.xreg
  weight : ∃ x, s.xreg = some x ∧ min seed o.regMin ≤ x ∧ x ≤ max seed o.regMax ∧
    (x ∉ o.range → x = seed ∨ o.regMax < seed ∧ ∃ k ≥ 1, x = seed / o.regFactor ^ k)

def Ranges (o : Options K) (s : Solver K) : Prop := ∃ x ∈ o.range, s.xreg = some x

structure Seeded (o : Options K) (seed : K) (s : Solver K) : Prop where
  options : s.options = o
  weight : ∃ x, s.xreg = some x ∧ o.Reaches seed x

variable {s t : Solver K} {states : List (Solver K)}

theorem Seeded.adjusts (ho : o.InRange) (h : s.Seeded o seed) (hst : s.Adjusts t) :
    t.Seeded o seed := by
  obtain ⟨rfl, x, hx, hreach⟩ := h
  cases hst with
  | keeps options xreg ureg => exact ⟨options, x, xreg.trans hx, hreach⟩
  | raises => exact ⟨rfl, _, xreg_increase hx, .raised ho _ _⟩
  | lowers => exact ⟨rfl, _, xreg_decrease hx, hreach.lowered ho⟩

theorem Adjusts.same {α : Type} [Scalar α] {s t : Solver α} (hst : s.Adjusts t)
    (h : s.ureg = s.xreg) : t.ureg = t.xreg := by
  cases hst with
  | keeps options xreg ureg => rw [xreg, ureg, h]
  | raises => rfl
  | lowers => rfl

theorem Ranges.adjusts (ho : o.InRange) (hs : s.options = o) (hst : s.Adjusts t)
    (h : s.Ranges o) : t.Ranges o := by
  obtain ⟨x, hx, hw⟩ := h
  subst hs
  cases hst with
  | keeps options xreg ureg => exact ⟨x, hx, xreg.trans hw⟩
  | raises => exact ⟨_, Options.raised_mem_range ho x, xreg_increase hw⟩
  | lowers => exact ⟨_, Options.lowered_mem_range ho hx, xreg_decrease hw⟩

theorem Seeded.confined (ho : o.InRange) (h : s.Seeded o seed) (hs : s.ureg = s.xreg) :
    s.Confined o seed := by
  obtain ⟨-, x, hx, hreach⟩ := h
  obtain ⟨hlow, hhigh⟩ := hreach.bounds ho
  exact ⟨hs, x, hx, hlow, hhigh, hreach.of_not_mem_range ho⟩

theorem confined_of_trail (ho : o.InRange) (h : Trail Adjusts s states t) (hs : s.Seeded o seed)
    (hsame : s.ureg = s.xreg) : ∀ a ∈ s :: states, a.Confined o seed := by
  intro a ha
  obtain ⟨hseeded, hweights⟩ := h.forall_mem
    (P := fun a => a.Seeded o seed ∧ a.ureg = a.xreg)
    (fun a b hab ha => ⟨ha.1.adjusts ho hab, hab.same ha.2⟩) ⟨hs, hsame⟩ a ha
  exact hseeded.confined ho hweights

theorem ranges_of_trail (ho : o.InRange) (h : Trail Adjusts s states t) (hs : s.options = o) :
    (s :: states).Pairwise fun a b => a.Ranges o → b.Ranges o := by
  refine h.pairwise (Q := fun a => a.options = o) ?_ (fun a b hab ha => .adjusts ho ha hab) hs
  intro a b hab ha
  cases hab with
  | keeps options xreg ureg => exact options.trans ha
  | raises => exact ha
  | lowers => exact ha

/-- The states of a solve are confined by its seed, and stay in range once they are there. -/
theorem confined_solveStates (ho : o.InRange) (hs : s.options = o) (fuel : ℕ)
    (xs us : List (Tensor K)) (maxiter : ℤ) (feasible : Bool) (reginit : Weight K) :
    (∀ t ∈ s.solveStates fuel xs us maxiter feasible reginit, t.Confined o (reginit.getD 0)) ∧
      (s.solveStates fuel xs us maxiter feasible reginit).Pairwise
        fun t t' => t.Ranges o → t'.Ranges o := by
  cases hc : s.problem.trajectory xs us with
  | error f =>
    rw [solveStates_refused hc]
    exact ⟨List.forall_mem_nil _, .nil⟩
  | ok c =>
    obtain ⟨rest, heq, htrail⟩ := trail_solve hc fuel maxiter feasible reginit
    have hseeded : (s.begun c feasible reginit).Seeded o (reginit.getD 0) := ⟨hs, _, rfl, .seed⟩
    rw [heq]
    exact ⟨confined_of_trail ho htrail hseeded rfl, ranges_of_trail ho htrail hs⟩

def statesAfter (s : Solver K) : List (Operation K) → List (Solver K)
  | [] => []
  | op :: ops => s.perform op :: (s.perform op).statesAfter ops

theorem trail_statesAfter {ops : List (Operation K)}
    (hops : ∀ op ∈ ops, op = .increase ∨ op = .decrease) (s : Solver K) :
    Trail Adjusts s (s.statesAfter ops) (s.after ops) := by
  induction ops generalizing s with
  | nil => exact .nil s
  | cons op ops ih =>
    have hrest := ih (fun op' h => hops op' (List.mem_cons_of_mem _ h)) (s.perform op)
    rcases hops op List.mem_cons_self with rfl | rfl
    · exact .cons (.raises s) hrest
    · exact .cons (.lowers s) hrest

theorem confined_statesAfter (ho : o.InRange) (hs : s.options = o) (hx : s.xreg = some x)
    {ops : List (Operation K)} (hops : ∀ op ∈ ops, op = .increase ∨ op = .decrease) :
    ∀ t ∈ s.statesAfter ops, t.Confined o x := by
  cases ops with
  | nil => exact List.forall_mem_nil _
  | cons op ops =>
    -- The weights may differ before the first operation, and are the same after it.
    have hfirst : s.Adjusts (s.perform op) ∧ (s.perform op).ureg = (s.perform op).xreg := by
      rcases hops op List.mem_cons_self with rfl | rfl
      · exact ⟨.raises s, rfl⟩
      · exact ⟨.lowers s, rfl⟩
    have hseeded : (s.perform op).Seeded o x :=
      Seeded.adjusts ho ⟨hs, x, hx, .seed⟩ hfirst.1
    have hrest := trail_statesAfter (fun op' h => hops op' (List.mem_cons_of_mem _ h))
      (s.perform op)
    exact confined_of_trail ho hrest hseeded hfirst.2

theorem exists_iterate_increase [Archimedean K] (ho : s.options.InRange)
    (hmin : 0 < s.options.regMin) (h : s.Ranges s.options) :
    ∃ N, ∀ n ≥ N, (increase^[n] s).xreg = some s.options.regMax := by
  obtain ⟨x, hx, hw⟩ := h
  obtain ⟨N, hN⟩ := Options.exists_iterate_raised ho hmin x
  refine ⟨N, fun n hn => ?_⟩
  rw [← hN n hn]
  exact (xreg_iterate (f := increase) (fun _ => rfl)
    (fun t a ht ha => ht ▸ xreg_increase ha) hw n).2

theorem exists_iterate_decrease [Archimedean K] (ho : s.options.InRange)
    (hmin : 0 < s.options.regMin) (h : s.Ranges s.options) :
    ∃ N, ∀ n ≥ N, (decrease^[n] s).xreg = some s.options.regMin := by
  obtain ⟨x, hx, hw⟩ := h
  obtain ⟨N, hN⟩ := Options.exists_iterate_lowered ho hmin hx.1
  refine ⟨N, fun n hn => ?_⟩
  rw [← hN n hn]
  exact (xreg_iterate (f := decrease) (fun _ => rfl)
    (fun t a ht ha => ht ▸ xreg_decrease ha) hw n).2

/-- The damping in the states of a solve, from the one with the seed to the last, after operations
that raise and lower it, and after enough operations of one kind. -/
theorem damping_confined [Archimedean K] (ho : o.fault? = none) :
    (∀ (s : Solver K), s.options = o → ∀ (fuel : ℕ) (xs us : List (Tensor K)) (maxiter : ℤ)
      (feasible : Bool) (reginit : Weight K),
      let states := s.solveStates fuel xs us maxiter feasible reginit
      (∀ c, s.problem.trajectory xs us = .ok c → ∃ rest,
          states = s.begun c feasible reginit :: rest ∧
            Trail Adjusts (s.begun c feasible reginit) rest
              (s.solve fuel xs us maxiter feasible reginit).1.solver) ∧
        (∀ t ∈ states, t.Confined o (reginit.getD 0)) ∧
        states.Pairwise fun t t' => t.Ranges o → t'.Ranges o) ∧
    (∀ (s : Solver K), s.options = o → ∀ ops : List (Operation K),
      (∀ op ∈ ops, op = .increase ∨ op = .decrease) →
      (∀ x, s.xreg = some x → ∀ t ∈ s.statesAfter ops, t.Confined o x) ∧
        (s :: s.statesAfter ops).Pairwise fun t t' => t.Ranges o → t'.Ranges o) ∧
    (0 < o.regMin → ∀ (s : Solver K), s.options = o → s.Ranges o →
      (∃ N, ∀ n ≥ N, (increase^[n] s).xreg = some o.regMax) ∧
        ∃ N, ∀ n ≥ N, (decrease^[n] s).xreg = some o.regMin) := by
  have hrange := Options.fault?_eq_none_iff.mp ho
  refine ⟨?_, ?_, ?_⟩
  · intro s hs fuel xs us maxiter feasible reginit states
    exact ⟨fun c hc => trail_solve hc fuel maxiter feasible reginit,
      confined_solveStates hrange hs fuel xs us maxiter feasible reginit⟩
  · intro s hs ops hops
    exact ⟨fun x hx => confined_statesAfter hrange hs hx hops,
      ranges_of_trail hrange (trail_statesAfter hops s) hs⟩
  · rintro hmin s rfl hs
    exact ⟨exists_iterate_increase hrange hmin hs, exists_iterate_decrease hrange hmin hs⟩

theorem damping_confined_demanding :
    let o : Options ℝ := .demanding 1
    let s : Solver ℝ := create .steep o
    let states := s.solveStates 1 ([[0], [0]].map .ofVec) ([[0]].map .ofVec) 1 true (some 8)
    (∀ t ∈ states, t.Confined o 8) ∧
      (∀ t ∈ { s with xreg := some 8 }.statesAfter [.decrease, .increase, .decrease],
        t.Confined o 8) ∧
      (∃ N, ∀ n ≥ N, (increase^[n] { s with xreg := some (1 / 4) }).xreg = some o.regMax) ∧
      ∃ N, ∀ n ≥ N, (decrease^[n] { s with xreg := some (1 / 4) }).xreg = some o.regMin := by
  intro o s states
  obtain ⟨hmin, hmax⟩ := Options.quarter_demanding (1 : ℝ)
  have hquarter : (1 / 4 : ℝ) ∈ o.range := by
    refine ⟨?_, hmax⟩
    change 1 / ((8 : ℕ) : ℝ) ≤ 1 / 4
    norm_num
  obtain ⟨hsolve, hcalls, hmany⟩ := damping_confined (Options.fault?_demanding (K := ℝ) one_pos)
  refine ⟨(hsolve s rfl 1 _ _ 1 true (some 8)).2.1, ?_, ?_⟩
  · exact (hcalls { s with xreg := some 8 } rfl _ (by simp)).1 8 rfl
  · exact hmany hmin { s with xreg := some (1 / 4) } rfl ⟨_, hquarter, rfl⟩

end Solver
end Shooting
