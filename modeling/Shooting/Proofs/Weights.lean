import Shooting.Proofs.Escalation

/-! # Raising and lowering the damping

Over exact scalars a weight is multiplied or divided by a factor above one and then cut off, on both
sides when it is raised and only below when it is lowered. Within the range that the options give it
stays; a weight above the range comes down to it one factor at a time.
-/

namespace Shooting

open Function

variable {K : Type} [ExactScalar K] {o : Options K} {x : K}

namespace Options

def raised (o : Options K) (x : K) : K := min (max (x * o.regFactor) o.regMin) o.regMax

def lowered (o : Options K) (x : K) : K := max (x / o.regFactor) o.regMin

/-- The weights that the damping is to be kept in. -/
def range (o : Options K) : Set K := Set.Icc o.regMin o.regMax

theorem InRange.regFactor_pos (ho : o.InRange) : 0 < o.regFactor := zero_lt_one.trans ho.regFactor

theorem InRange.regMax_pos (ho : o.InRange) : 0 < o.regMax := ho.regMin.trans_lt ho.regMax

theorem raised_mem_range (ho : o.InRange) (x : K) : o.raised x ∈ o.range :=
  ⟨le_min (le_max_right _ _) ho.regMax.le, min_le_right _ _⟩

theorem lowered_mem_range (ho : o.InRange) (hx : x ∈ o.range) : o.lowered x ∈ o.range := by
  have hdiv : x / o.regFactor ≤ x := div_le_self (ho.regMin.trans hx.1) ho.regFactor.le
  exact ⟨le_max_right _ _, max_le (hdiv.trans hx.2) ho.regMax.le⟩

/-- A weight that is lowered and still out of range was above it by more than one factor. -/
theorem lowered_of_not_mem_range (ho : o.InRange) (h : o.lowered x ∉ o.range) :
    o.lowered x = x / o.regFactor ∧ o.regMax < x / o.regFactor := by
  have habove : o.regMax < o.lowered x := by
    by_contra hle
    exact h ⟨le_max_right _ _, not_lt.mp hle⟩
  have hlt : o.regMax < x / o.regFactor := (lt_max_iff.mp habove).resolve_right ho.regMax.not_gt
  exact ⟨max_eq_left (ho.regMax.trans hlt).le, hlt⟩

theorem lt_raised (ho : o.InRange) (hmin : 0 < o.regMin) (hx : 0 ≤ x) (hmax : x < o.regMax) :
    x < o.raised x := by
  refine lt_min ?_ hmax
  rcases hx.eq_or_lt with rfl | hpos
  · exact lt_max_of_lt_right hmin
  · exact lt_max_of_lt_left (lt_mul_of_one_lt_right hpos ho.regFactor)

theorem raised_regMax (ho : o.InRange) : o.raised o.regMax = o.regMax :=
  min_eq_right (le_max_of_le_left (le_mul_of_one_le_right ho.regMax_pos.le ho.regFactor.le))

theorem lowered_regMin (ho : o.InRange) : o.lowered o.regMin = o.regMin :=
  max_eq_right (div_le_self ho.regMin ho.regFactor.le)

/-- To lower a weight and to raise it again is to cut it off. -/
theorem raised_lowered (ho : o.InRange) (x : K) :
    o.raised (o.lowered x) = min (max x (o.regMin * o.regFactor)) o.regMax := by
  have hmin : o.regMin ≤ o.regMin * o.regFactor := le_mul_of_one_le_right ho.regMin ho.regFactor.le
  have hback : o.lowered x * o.regFactor = max x (o.regMin * o.regFactor) := by
    rw [lowered, max_mul_of_nonneg _ _ ho.regFactor_pos.le, div_mul_cancel₀ _ ho.regFactor_pos.ne']
  rw [raised, hback, max_eq_left (hmin.trans (le_max_right _ _))]

theorem iterate_raised (ho : o.InRange) (x : K) (n : ℕ) : o.raised^[n] x = o.escalation x n := by
  induction n with
  | zero => rfl
  | succ n ih =>
    rw [iterate_succ_apply', ih]
    exact Option.some.inj ((Weight.increase_some o _).symm.trans (increase_escalation ho x n))

theorem iterate_lowered (ho : o.InRange) (hx : o.regMin ≤ x) (n : ℕ) :
    o.lowered^[n] x = max (x / o.regFactor ^ n) o.regMin := by
  induction n with
  | zero => rw [iterate_zero_apply, pow_zero, div_one, max_eq_left hx]
  | succ n ih =>
    have hmin : o.regMin / o.regFactor ≤ o.regMin := div_le_self ho.regMin ho.regFactor.le
    rw [iterate_succ_apply', ih, lowered, ← max_div_div_right ho.regFactor_pos.le, div_div,
      ← pow_succ, max_assoc, max_eq_right hmin]

omit [ExactScalar K] in
theorem iterate_eq_of_le {f : K → K} {m : K} {N n : ℕ} (hf : f m = m) (hN : f^[N] x = m)
    (hn : N ≤ n) : f^[n] x = m := by
  obtain ⟨k, rfl⟩ := Nat.exists_eq_add_of_le' hn
  rw [iterate_add_apply, hN, iterate_fixed hf]

theorem exists_iterate_raised [Archimedean K] (ho : o.InRange) (hmin : 0 < o.regMin) (x : K) :
    ∃ N, ∀ n ≥ N, o.raised^[n] x = o.regMax := by
  obtain ⟨N, hN⟩ := exists_escalation_eq (x := x) ho (.inl hmin)
  rw [← iterate_raised ho] at hN
  exact ⟨N, fun n hn => iterate_eq_of_le (raised_regMax ho) hN hn⟩

theorem exists_iterate_lowered [Archimedean K] (ho : o.InRange) (hmin : 0 < o.regMin)
    (hx : o.regMin ≤ x) : ∃ N, ∀ n ≥ N, o.lowered^[n] x = o.regMin := by
  obtain ⟨N, hN⟩ := pow_unbounded_of_one_lt (x / o.regMin) ho.regFactor
  have hlow : x / o.regFactor ^ N ≤ o.regMin := by
    rw [div_le_iff₀ (pow_pos ho.regFactor_pos N), mul_comm]
    exact ((div_lt_iff₀ hmin).mp hN).le
  have hreached : o.lowered^[N] x = o.regMin := by
    rw [iterate_lowered ho hx, max_eq_right hlow]
  exact ⟨N, fun n hn => iterate_eq_of_le (lowered_regMin ho) hreached hn⟩

end Options

theorem Weight.decrease_some (o : Options K) (a : K) :
    Weight.decrease o (some a) = some (o.lowered a) := by
  rw [Options.lowered, ← ExactScalar.larger_eq]
  rfl

namespace Solver

variable {s : Solver K}

theorem xreg_increase (h : s.xreg = some x) : s.increase.xreg = some (s.options.raised x) := by
  rw [Options.raised, ← Weight.increase_some, ← h]
  rfl

theorem xreg_decrease (h : s.xreg = some x) : s.decrease.xreg = some (s.options.lowered x) := by
  rw [← Weight.decrease_some, ← h]
  rfl

omit [ExactScalar K] in
theorem xreg_iterate {f : Solver K → Solver K} {g : K → K}
    (hoptions : ∀ t, (f t).options = t.options)
    (hweight : ∀ t a, t.options = s.options → t.xreg = some a → (f t).xreg = some (g a))
    (h : s.xreg = some x) (n : ℕ) :
    (f^[n] s).options = s.options ∧ (f^[n] s).xreg = some (g^[n] x) := by
  induction n with
  | zero => exact ⟨rfl, h⟩
  | succ n ih =>
    simp only [iterate_succ_apply']
    exact ⟨(hoptions _).trans ih.1, hweight _ _ ih.1 ih.2⟩

end Solver
end Shooting
