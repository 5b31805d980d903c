import Mathlib.Algebra.Order.Archimedean.Basic
import Shooting.Proofs.Acceptance
import Shooting.Proofs.Direction
import Shooting.Proofs.Phases
import Shooting.Proofs.Relinearization

/-! # Escalation of the damping

While a system cannot be factored, its damping is raised along a geometric sequence that is cut off
at both ends. Over exact scalars the attempts end at the first weight that makes the Hessian positive
definite, or at the largest one if none does; only a sequence that starts at zero and is not cut off
below gets nowhere.
-/

namespace Shooting

open Matrix

variable {K : Type} [ExactScalar K]

theorem ExactScalar.larger_eq (a b : K) : Scalar.larger a b = max a b := by
  rcases lt_or_ge a b with h | h
  · rw [max_eq_right h.le, Scalar.larger, if_pos (by simpa using h)]
  · rw [max_eq_left h, Scalar.larger, if_neg (by simpa using h)]

theorem ExactScalar.smaller_eq (a b : K) : Scalar.smaller a b = min a b := by
  rcases lt_or_ge b a with h | h
  · rw [min_eq_right h.le, Scalar.smaller, if_pos (by simpa using h)]
  · rw [min_eq_left h, Scalar.smaller, if_neg (by simpa using h)]

theorem Weight.increase_some (o : Options K) (a : K) :
    Weight.increase o (some a) = some (min (max (a * o.regFactor) o.regMin) o.regMax) := by
  rw [← ExactScalar.larger_eq, ← ExactScalar.smaller_eq]
  rfl

namespace Options

/-- The weight of each attempt, when the first is made at `x`. -/
def escalation (o : Options K) (x : K) : ℕ → K
  | 0 => x
  | k + 1 => min o.regMax (max (x * o.regFactor ^ (k + 1)) (o.regMin * o.regFactor ^ k))

variable {o : Options K} {x : K}

theorem increase_escalation (ho : o.InRange) (x : K) (k : ℕ) :
    Weight.increase o (some (o.escalation x k)) = some (o.escalation x (k + 1)) := by
  rw [Weight.increase_some, Option.some.injEq, min_comm]
  have hf : 0 ≤ o.regFactor := zero_le_one.trans ho.regFactor.le
  have hmin : 0 ≤ o.regMin := ho.regMin
  have hmax : 0 ≤ o.regMax := hmin.trans ho.regMax.le
  cases k with
  | zero => simp [escalation]
  | succ k =>
    have hlow : o.regMin ≤ max (x * o.regFactor ^ (k + 2)) (o.regMin * o.regFactor ^ (k + 1)) :=
      le_max_of_le_right (le_mul_of_one_le_right hmin (one_le_pow₀ ho.regFactor.le))
    have hhigh : o.regMax ≤ o.regMax * o.regFactor := le_mul_of_one_le_right hmax ho.regFactor.le
    have hstep : o.escalation x (k + 1) * o.regFactor =
        min (o.regMax * o.regFactor)
          (max (x * o.regFactor ^ (k + 2)) (o.regMin * o.regFactor ^ (k + 1))) := by
      rw [escalation, min_mul_of_nonneg _ _ hf, max_mul_of_nonneg _ _ hf, mul_assoc, mul_assoc,
        ← pow_succ, ← pow_succ]
    rw [hstep, max_eq_left (le_min (ho.regMax.le.trans hhigh) hlow), ← min_assoc, min_eq_left hhigh]
    rfl

theorem escalation_le (o : Options K) (x : K) (k : ℕ) : o.escalation x k ≤ max x o.regMax := by
  cases k with
  | zero => exact le_max_left _ _
  | succ k => exact (min_le_left _ _).trans (le_max_right _ _)

/-- Unless it starts at zero or below and is not cut off there, the sequence reaches its upper
end. -/
theorem exists_escalation_eq [Archimedean K] (ho : o.InRange) (h : 0 < o.regMin ∨ 0 < x) :
    ∃ k, o.escalation x k = o.regMax := by
  have hreach {a : K} (ha : 0 < a) : ∃ k, o.regMax ≤ a * o.regFactor ^ k := by
    obtain ⟨k, hk⟩ := pow_unbounded_of_one_lt (o.regMax / a) ho.regFactor
    exact ⟨k, ((div_lt_iff₀' ha).mp hk).le⟩
  rcases h with hmin | hx
  · obtain ⟨k, hk⟩ := hreach hmin
    exact ⟨k + 1, min_eq_left (le_max_of_le_right hk)⟩
  · obtain ⟨k, hk⟩ := hreach hx
    have hpow : x * o.regFactor ^ k ≤ x * o.regFactor ^ (k + 1) :=
      mul_le_mul_of_nonneg_left (pow_le_pow_right₀ ho.regFactor.le k.le_succ) hx.le
    exact ⟨k + 1, min_eq_left (le_max_of_le_left (hk.trans hpow))⟩

theorem escalation_zero (ho : o.InRange) (h : o.regMin = 0) (k : ℕ) : o.escalation 0 k = 0 := by
  cases k with
  | zero => rfl
  | succ k =>
    rw [escalation, h, zero_mul, zero_mul, max_self]
    exact min_eq_right (h ▸ ho.regMax.le)

end Options

theorem Solver.options_iterate_increase (s : Solver K) (k : ℕ) :
    (increase^[k] s).options = s.options := by
  induction k with
  | zero => rfl
  | succ k ih =>
    rw [Function.iterate_succ_apply']
    exact ih

theorem Solver.xreg_iterate_increase {s : Solver K} (ho : s.options.InRange) {x : K}
    (hx : s.xreg = some x) (k : ℕ) :
    (increase^[k] s).xreg = some (s.options.escalation x k) := by
  induction k with
  | zero => exact hx
  | succ k ih =>
    rw [Function.iterate_succ_apply', ← Options.increase_escalation ho x k, ← ih,
      ← s.options_iterate_increase k]
    rfl

theorem PositiveDefinite.mono_smul {n : ℕ} {H : Matrix (Fin n) (Fin n) K} {a b : K} (hab : a ≤ b)
    (h : PositiveDefinite (H + a • 1)) : PositiveDefinite (H + b • 1) := by
  intro v hv
  have hsplit : v ⬝ᵥ (H + b • 1) *ᵥ v = v ⬝ᵥ (H + a • 1) *ᵥ v + (b - a) * (v ⬝ᵥ v) := by
    simp only [add_mulVec, smul_mulVec, one_mulVec, dotProduct_add, dotProduct_smul, smul_eq_mul]
    ring
  have hnonneg : 0 ≤ v ⬝ᵥ v := Finset.sum_nonneg fun i _ => mul_self_nonneg _
  rw [hsplit]
  exact add_pos_of_pos_of_nonneg (h v hv) (mul_nonneg (sub_nonneg.mpr hab) hnonneg)

namespace Options

variable {o : Options K} {x : K} {n : ℕ} (m : ℕ) (H : Matrix (Fin m) (Fin m) K)

theorem exists_last [Archimedean K] (ho : o.InRange) (h : 0 < o.regMin ∨ 0 < x) :
    ∃ n, (PositiveDefinite (H + o.escalation x n • 1) ∨ o.escalation x n = o.regMax) ∧
      ∀ k < n, ¬ PositiveDefinite (H + o.escalation x k • 1) ∧ o.escalation x k ≠ o.regMax := by
  have hex : ∃ k, PositiveDefinite (H + o.escalation x k • 1) ∨ o.escalation x k = o.regMax :=
    (exists_escalation_eq ho h).imp fun k => Or.inr
  classical
  refine ⟨Nat.find hex, Nat.find_spec hex, fun k hk => ?_⟩
  exact not_or.mp (Nat.find_min hex hk)

variable {m H}

/-- The last weight makes the Hessian positive definite if any weight does: one above the largest is
tried first and never again. -/
theorem positiveDefinite_last_iff
    (hlast : PositiveDefinite (H + o.escalation x n • 1) ∨ o.escalation x n = o.regMax)
    (hfail : ∀ k < n, ¬ PositiveDefinite (H + o.escalation x k • 1)) :
    PositiveDefinite (H + o.escalation x n • 1) ↔ PositiveDefinite (H + max x o.regMax • 1) := by
  constructor
  · exact fun h => h.mono_smul (o.escalation_le x n)
  · intro h
    rcases hlast with hlast | hlast
    · exact hlast
    · rcases le_total x o.regMax with hle | hle
      · rwa [max_eq_right hle, ← hlast] at h
      · rw [max_eq_left hle] at h
        rcases Nat.eq_zero_or_pos n with rfl | hn
        · exact h
        · exact absurd h (hfail 0 hn)

end Options

namespace Solver

/-- The solver with one weight for all increments, over a system that was `A` before it was given
any weights. -/
def weighted (s : Solver K) (A : System K) (w : Weight K) : Solver K :=
  { s with xreg := w, ureg := w, system := A.damp s.layout.ndx w w }

def undamped (s : Solver K) : System K :=
  .assemble s.layout s.knots (s.problem.gaps s.knots s.candidate.xs)

variable {s s₀ : Solver K} {c : K}

omit [ExactScalar K] in
theorem with_weights {s : Solver K} {w : Weight K} (hx : s.xreg = w) (hu : s.ureg = w) :
    { s with xreg := w, ureg := w } = s := by
  cases s
  cases hx
  cases hu
  rfl

theorem options_of_linearize (h : s.linearize = (s₀, .ok c)) : s₀.options = s.options := by
  obtain ⟨knots, -, rfl⟩ := linearize_eq_ok h
  rfl

theorem linearize_weighted (h : s.linearize = (s₀, .ok c)) (w : Weight K) :
    linearize { s with xreg := w, ureg := w } = (s₀.weighted s₀.undamped w, .ok c) := by
  obtain ⟨knots, hl, rfl⟩ := linearize_eq_ok h
  unfold linearize
  rw [hl]
  rfl

theorem increase_redamp_weighted (A : System K) (w : Weight K) :
    (s.weighted A w).increase.redamp = s.weighted A (w.increase s.options) := by
  unfold redamp increase weighted
  dsimp only [layout]
  rw [System.damp_damp]

/-- Over symmetric blocks an attempt succeeds exactly if the weight makes the Hessian positive
definite. -/
theorem factorize_weighted_iff
    (h : ∀ t, (System.slopesAt s.knots t).Symmetric (s.layout.ndxs.getD t 0)
      (s.layout.nus.getD t 0))
    (a : K) : (s.weighted s.undamped (some a)).factorize.2 = .noError ↔
      PositiveDefinite (s.undamped.hessian s.layout + a • 1) := by
  have hsaddle : (s.undamped.damp s.layout.ndx (some a) (some a)).SaddlePoint s.layout _ :=
    System.saddlePoint_damp_assemble h (some a) (some a)
  have hH : (s.undamped.damp s.layout.ndx (some a) (some a)).hessian s.layout =
      s.undamped.hessian s.layout + a • 1 := System.hessian_damp _ _ _ rfl rfl
  rw [← hH]
  exact (s.weighted s.undamped (some a)).factorize_snd.trans hsaddle.isSome_solve?_iff

end Solver

def Options.dampings (o : Options K) (x : K) (n : ℕ) : List (Event K) :=
  (List.range n).map fun k => .damped .choleskyFailed (some (o.escalation x (k + 1)))

namespace Run

section Attempt

variable {α : Type} [Scalar α] {s : Solver α}

/-- An attempt at the system that a solver holds, with `fuel` more to follow. -/
def attempt (fuel : ℕ) (s : Solver α) (events : List (Event α)) : Flow α :=
  resume fuel s.factorize.2 { solver := s.factorize.1, events }

theorem factorize_linearized {r : Run α} {c : α} (h : r.solver.linearize = (s, .ok c)) (fuel : ℕ) :
    factorize (fuel + 1) true r = attempt fuel s r.events := by
  rw [factorize_succ, Solver.computeDirection_true h]
  rfl

theorem attempt_solved (h : s.factorize.2 = .noError) (fuel : ℕ) (events : List (Event α)) :
    attempt fuel s events = .next { solver := s.factorize.1, events } := by
  rw [attempt, resume, if_pos h]

theorem attempt_exhausted (h : s.factorize.2 ≠ .noError) (hs : s.xreg.saturated s.options = true)
    (fuel : ℕ) (events : List (Event α)) :
    attempt fuel s events = ({ solver := s, events } : Run α).finished .maxRegularization := by
  rw [attempt, resume, if_neg h, Solver.factorize_of_ne h]
  exact if_pos hs

theorem attempt_failed (h : s.factorize.2 ≠ .noError) (hs : s.xreg.saturated s.options = false)
    (fuel : ℕ) (events : List (Event α)) :
    attempt fuel s events = factorize fuel false
      { solver := s.increase, events := events ++ [.damped .choleskyFailed s.increase.xreg] } := by
  have hs' : ¬ s.xreg.saturated s.options = true := by simp [hs]
  rw [attempt, resume, if_neg h, Solver.factorize_of_ne h]
  exact if_neg hs'

theorem attempt_again (h : s.factorize.2 ≠ .noError) (hs : s.xreg.saturated s.options = false)
    (fuel : ℕ) (events : List (Event α)) :
    attempt (fuel + 1) s events =
      attempt fuel s.increase.redamp (events ++ [.damped .choleskyFailed s.increase.xreg]) := by
  rw [attempt_failed h hs, factorize_succ, Solver.computeDirection_false]
  rfl

theorem attempt_zero (h : s.factorize.2 ≠ .noError) (hs : s.xreg.saturated s.options = false)
    (events : List (Event α)) : ∃ r, attempt 0 s events = .done r .outOfFuel := by
  rw [attempt_failed h hs]
  exact ⟨_, rfl⟩

end Attempt

variable {s : Solver K} {A : System K} {x : K}

theorem saturated_weighted (s : Solver K) (A : System K) (a : K) :
    (s.weighted A (some a)).xreg.saturated (s.weighted A (some a)).options = true ↔
      a = s.options.regMax := by
  simp [Solver.weighted, Weight.saturated]

theorem attempt_weighted (ho : s.options.InRange) (n fuel : ℕ) (events : List (Event K))
    (hfail : ∀ k < n,
      (s.weighted A (some (s.options.escalation x k))).factorize.2 ≠ .noError ∧
        s.options.escalation x k ≠ s.options.regMax) :
    attempt (fuel + n) (s.weighted A (some (s.options.escalation x 0))) events =
      attempt fuel (s.weighted A (some (s.options.escalation x n)))
        (events ++ s.options.dampings x n) := by
  induction n generalizing fuel with
  | zero => simp [Options.dampings]
  | succ n ih =>
    have hlast := hfail n n.lt_succ_self
    have hsat : (s.weighted A (some (s.options.escalation x n))).xreg.saturated
        (s.weighted A (some (s.options.escalation x n))).options = false :=
      Bool.eq_false_iff.mpr fun h => hlast.2 ((saturated_weighted s A _).mp h)
    have hnext : Weight.increase s.options (some (s.options.escalation x n)) =
        some (s.options.escalation x (n + 1)) := Options.increase_escalation ho x n
    have hxreg : (s.weighted A (some (s.options.escalation x n))).increase.xreg =
        some (s.options.escalation x (n + 1)) := hnext
    rw [← Nat.add_assoc, Nat.add_right_comm,
      ih (fuel + 1) fun k hk => hfail k (hk.trans n.lt_succ_self), attempt_again hlast.1 hsat,
      Solver.increase_redamp_weighted, hnext, hxreg]
    simp [Options.dampings, List.range_succ]

/-- The attempts that start at the weight `x`, with `H` as the undamped Hessian, end after `n`
failures, and `s` is the solver that a new linearization under the last weight would give. -/
structure Escalates (r : Run K)
    (H : Matrix (Fin r.solver.layout.nprimal) (Fin r.solver.layout.nprimal) K) (x c : K) (n : ℕ)
    (s : Solver K) : Prop where
  weights : ∀ k, (Solver.increase^[k] r.solver).xreg = some (r.solver.options.escalation x k)
  linearize : Solver.linearize { r.solver with
    xreg := some (r.solver.options.escalation x n)
    ureg := some (r.solver.options.escalation x n) } = (s, .ok c)
  failed : ∀ k < n, ¬ PositiveDefinite (H + r.solver.options.escalation x k • 1)
  exhausted_iff : ∀ fuel, n < fuel →
    (factorize fuel true r =
        ({ solver := s, events := r.events ++ r.solver.options.dampings x n } : Run K).finished
          .maxRegularization ↔
      ¬ PositiveDefinite (H + max x r.solver.options.regMax • 1))
  exhausted : ¬ PositiveDefinite (H + max x r.solver.options.regMax • 1) →
    r.solver.options.escalation x n = r.solver.options.regMax
  solved : PositiveDefinite (H + max x r.solver.options.regMax • 1) →
    PositiveDefinite (H + r.solver.options.escalation x n • 1) ∧ s.factorize.2 = .noError ∧
      ∀ fuel, n < fuel → factorize fuel true r =
        .next { solver := s.factorize.1
                events := r.events ++ r.solver.options.dampings x n }

section Linearized

variable {r : Run K} {s₀ : Solver K} {c : K} (hf : r.solver.Fits)
  (hp : r.solver.problem.SymmetricHessians) (hx : r.solver.xreg = some x)
  (hu : r.solver.ureg = some x) (hl : r.solver.linearize = (s₀, .ok c))

include hf hp hl in
theorem factorize_weighted_iff (a : K) :
    (s₀.weighted s₀.undamped (some a)).factorize.2 = .noError ↔
      PositiveDefinite (s₀.undamped.hessian r.solver.layout + a • 1) := by
  obtain ⟨knots, hknots, rfl⟩ := Solver.linearize_eq_ok hl
  refine Solver.factorize_weighted_iff ?_ a
  exact System.symmetric_slopesAt hp (hf.linearize_ok hknots).1

include hx hu hl in
theorem factorize_eq_attempt (fuel : ℕ) : factorize (fuel + 1) true r =
    attempt fuel (s₀.weighted s₀.undamped (some x)) r.events := by
  have hw := Solver.linearize_weighted hl (some x)
  rw [Solver.with_weights hx hu] at hw
  exact factorize_linearized hw fuel

include hf hp hx hu hl

theorem factorize_eq_attempt_weighted (ho : r.solver.options.InRange) (n m : ℕ)
    (hfail : ∀ k < n,
      ¬ PositiveDefinite (s₀.undamped.hessian r.solver.layout +
        r.solver.options.escalation x k • 1) ∧
      r.solver.options.escalation x k ≠ r.solver.options.regMax) :
    factorize (m + n + 1) true r =
      attempt m (s₀.weighted s₀.undamped (some (r.solver.options.escalation x n)))
        (r.events ++ r.solver.options.dampings x n) := by
  have hopt := Solver.options_of_linearize hl
  rw [factorize_eq_attempt hx hu hl]
  rw [← hopt] at ho hfail ⊢
  refine attempt_weighted ho n m r.events fun k hk => ⟨fun h => ?_, (hfail k hk).2⟩
  exact (hfail k hk).1 ((factorize_weighted_iff hf hp hl _).mp h)

theorem exists_escalates [Archimedean K] (ho : r.solver.options.InRange)
    (hpos : 0 < r.solver.options.regMin ∨ 0 < x) :
    ∃ n s, r.Escalates (s₀.undamped.hessian r.solver.layout) x c n s := by
  have hopt := Solver.options_of_linearize hl
  have hiff := factorize_weighted_iff hf hp hl
  obtain ⟨n, hn, hfail⟩ := Options.exists_last _ (s₀.undamped.hessian r.solver.layout) ho hpos
  have hlast := Options.positiveDefinite_last_iff hn fun k hk => (hfail k hk).1
  -- With fuel to spare, what follows the failures is an attempt under the last weight.
  have hattempt (fuel : ℕ) (hfuel : n < fuel) : ∃ m, factorize fuel true r =
      attempt m (s₀.weighted s₀.undamped (some (r.solver.options.escalation x n)))
        (r.events ++ r.solver.options.dampings x n) := by
    obtain ⟨m, rfl⟩ : ∃ m, fuel = m + n + 1 := ⟨fuel - n - 1, by omega⟩
    exact ⟨m, factorize_eq_attempt_weighted hf hp hx hu hl ho n m hfail⟩
  refine ⟨n, s₀.weighted s₀.undamped (some (r.solver.options.escalation x n)), ?_⟩
  constructor
  case weights => exact Solver.xreg_iterate_increase ho hx
  case linearize => exact Solver.linearize_weighted hl _
  case failed => exact fun k hk => (hfail k hk).1
  case exhausted => exact fun h => hn.resolve_left fun h' => h (hlast.mp h')
  case solved =>
    intro h
    have hsolved := (hiff _).mpr (hlast.mpr h)
    refine ⟨hlast.mpr h, hsolved, fun fuel hfuel => ?_⟩
    obtain ⟨m, hm⟩ := hattempt fuel hfuel
    rw [hm, attempt_solved hsolved]
  case exhausted_iff =>
    intro fuel hfuel
    obtain ⟨m, hm⟩ := hattempt fuel hfuel
    rw [hm]
    constructor
    · intro hdone h
      rw [attempt_solved ((hiff _).mpr (hlast.mpr h))] at hdone
      cases hdone
    · intro h
      have hne := fun h' => h (hlast.mp ((hiff _).mp h'))
      have hmax := hn.resolve_left fun h' => h (hlast.mp h')
      exact attempt_exhausted hne ((saturated_weighted _ _ _).mpr (hopt ▸ hmax)) m _

theorem factorize_outOfFuel (ho : r.solver.options.InRange) (hmin : r.solver.options.regMin = 0)
    (hzero : x = 0) (hH : ¬ PositiveDefinite (s₀.undamped.hessian r.solver.layout)) (fuel : ℕ) :
    ∃ r', factorize fuel true r = .done r' .outOfFuel := by
  subst hzero
  have hopt := Solver.options_of_linearize hl
  have hesc (k : ℕ) : r.solver.options.escalation 0 k = 0 := Options.escalation_zero ho hmin k
  have hmax : (0 : K) ≠ r.solver.options.regMax := (hmin ▸ ho.regMax).ne
  have hfail : ¬ PositiveDefinite (s₀.undamped.hessian r.solver.layout + (0 : K) • 1) := by
    rwa [zero_smul, add_zero]
  cases fuel with
  | zero => exact ⟨r, rfl⟩
  | succ fuel =>
    have hgo := factorize_eq_attempt_weighted hf hp hx hu hl ho fuel 0 fun k _ => by
      rw [hesc]
      exact ⟨hfail, hmax⟩
    rw [Nat.zero_add, hesc] at hgo
    rw [hgo]
    refine attempt_zero (fun h => hfail ((factorize_weighted_iff hf hp hl _).mp h))
      (Bool.eq_false_iff.mpr fun h => ?_) _
    exact hmax (hopt ▸ (saturated_weighted _ _ _).mp h)

/-- The attempts go on exactly until a weight makes the Hessian positive definite or no larger one
is left. They come to an end unless they start at zero or below and are not cut off there; if they
start at zero, they stay there. -/
theorem factorize_escalates [Archimedean K] (ho : r.solver.options.fault? = none) :
    (0 < r.solver.options.regMin ∨ 0 < x →
      ∃ n s, r.Escalates (s₀.undamped.hessian r.solver.layout) x c n s) ∧
    (r.solver.options.regMin = 0 → x = 0 →
      (∀ n, (Solver.increase^[n] r.solver).xreg = some 0) ∧
      (¬ PositiveDefinite (s₀.undamped.hessian r.solver.layout) →
        ∀ fuel, ∃ r', factorize fuel true r = .done r' .outOfFuel)) := by
  have hin : r.solver.options.InRange := Options.fault?_eq_none_iff.mp ho
  constructor
  · exact exists_escalates hf hp hx hu hl hin
  · intro hmin hzero
    constructor
    · intro n
      rw [Solver.xreg_iterate_increase hin hx, hzero, Options.escalation_zero hin hmin]
    · exact factorize_outOfFuel hf hp hx hu hl hin hmin hzero

end Linearized

/-- A weight below zero is raised to the least one, which is enough. -/
theorem factorize_escalates_integrator : ∃ (r : Run ℝ) (s₀ s : Solver ℝ) (c : ℝ) (n : ℕ),
    r.solver.linearize = (s₀, .ok c) ∧ r.solver.xreg = some (-3) ∧
    r.Escalates (s₀.undamped.hessian r.solver.layout) (-3) c n s ∧
    ∃ r', ∀ fuel, n < fuel → factorize fuel true r = .next r' := by
  let o : Options ℝ := { Options.lenient with regMin := 1 / 2 }
  have ho : o.fault? = none := by
    simp [o, Options.fault?, Options.lenient, Options.strictlyDecreasing, Bool.eq_false_iff]
    norm_num
  let r : Run ℝ :=
    { solver := (Solver.create (Problem.integrator [(1 : ℝ)] 1) o).after
        [.setWeights (some (-3)) (some (-3))]
      events := [] }
  have hf : r.solver.Fits := Solver.fits_after _
  have hp : r.solver.problem.SymmetricHessians := Problem.symmetricHessians_integrator
  have hlin : ∃ s₀ c, r.solver.linearize = (s₀, .ok c) := ⟨_, _, rfl⟩
  obtain ⟨s₀, c, hl⟩ := hlin
  obtain ⟨hends, -⟩ := factorize_escalates hf hp rfl rfl hl ho
  obtain ⟨n, s, h⟩ := hends (.inl (by norm_num [r, o, Solver.after, Solver.perform, Solver.create]))
  have hpos : PositiveDefinite
      (s₀.undamped.hessian r.solver.layout + max (-3) r.solver.options.regMax • 1) := by
    obtain ⟨knots, hknots, rfl⟩ := Solver.linearize_eq_ok hl
    have hone : (System.assemble r.solver.layout knots
        (r.solver.problem.gaps knots r.solver.candidate.xs)).hessian r.solver.layout = 1 :=
      Problem.hessian_integrator (hf.linearize_ok hknots).1 _ rfl
    have hmax : (0 : ℝ) ≤ max (-3) r.solver.options.regMax := le_max_of_le_right zero_le_one
    apply PositiveDefinite.mono_smul hmax
    rw [zero_smul, add_zero]
    exact hone ▸ Mat.positiveDefinite_one _
  exact ⟨r, s₀, s, c, n, hl, rfl, h, _, (h.solved hpos).2.2⟩

end Run

end Shooting
