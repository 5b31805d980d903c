import Mathlib.Analysis.SpecialFunctions.Complex.Arg
import Mathlib.Analysis.SpecialFunctions.Log.Basic
import Shooting.Linear.Vec

/-! # Exact scalars

Ordered fields with square roots, in place of machine numbers. Every test on them is the relation it
is named for, every value is finite, and none differs from itself.
-/

namespace Shooting

/-- An ordered field with square roots. Nothing is assumed of the other functions. -/
class ExactScalar (K : Type) extends Field K, LinearOrder K, IsStrictOrderedRing K where
  sqrt : K → K
  sin : K → K
  cos : K → K
  exp : K → K
  log : K → K
  tanh : K → K
  atan2 : K → K → K
  sqrt_mul_sqrt : ∀ a : K, 0 ≤ a → sqrt a * sqrt a = a
  sqrt_nonneg : ∀ a : K, 0 ≤ a → 0 ≤ sqrt a

namespace ExactScalar

instance scalar {K : Type} [ExactScalar K] : Scalar K where
  sqrt := sqrt
  sin := sin
  cos := cos
  exp := exp
  log := log
  tanh := tanh
  atan2 := atan2
  lt a b := decide (a < b)
  le a b := decide (a ≤ b)
  eq a b := decide (a = b)
  isFinite _ := true
  isNaN _ := false

variable {K : Type} [ExactScalar K]

@[simp] theorem lt_iff {a b : K} : Scalar.lt a b = true ↔ a < b := decide_eq_true_iff

@[simp] theorem le_iff {a b : K} : Scalar.le a b = true ↔ a ≤ b := decide_eq_true_iff

@[simp] theorem lt_eq_false_iff {a b : K} : Scalar.lt a b = false ↔ b ≤ a :=
  decide_eq_false_iff_not.trans not_lt

@[simp] theorem le_eq_false_iff {a b : K} : Scalar.le a b = false ↔ b < a :=
  decide_eq_false_iff_not.trans not_le

@[simp] theorem eq_iff {a b : K} : Scalar.eq a b = true ↔ a = b := decide_eq_true_iff

@[simp] theorem isFinite_eq (a : K) : Scalar.isFinite a = true := rfl

@[simp] theorem half_eq : (Scalar.half : K) = 1 / 2 := by
  rw [Scalar.half, ← one_add_one_eq_two]

theorem sqrt_pos {a : K} (h : 0 < a) : 0 < sqrt a := by
  apply (sqrt_nonneg a h.le).lt_of_ne
  intro hs
  have := sqrt_mul_sqrt a h.le
  rw [← hs, zero_mul] at this
  exact h.ne this

noncomputable instance : ExactScalar ℝ where
  sqrt := Real.sqrt
  sin := Real.sin
  cos := Real.cos
  exp := Real.exp
  log := Real.log
  tanh := Real.tanh
  atan2 y x := Complex.arg ⟨x, y⟩
  sqrt_mul_sqrt _ h := Real.mul_self_sqrt h
  sqrt_nonneg _ _ := Real.sqrt_nonneg _

end ExactScalar
end Shooting
