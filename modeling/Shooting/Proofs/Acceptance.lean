import Mathlib.Algebra.Order.Field.Basic
import Shooting.Proofs.Exact
import Shooting.Solver.Trial

/-! # Accepted options and accepted steps

What accepted options say about the thresholds, the damping and the schedule of steps, and when the
search stops at the first step of the schedule.
-/

namespace Shooting

variable {K : Type} [ExactScalar K]

structure Options.InRange (o : Options K) : Prop where
  regFactor : 1 < o.regFactor
  regMin : 0 ≤ o.regMin
  regMax : o.regMin < o.regMax
  gradThreshold : 0 < o.gradThreshold
  stepThreshold : 0 < o.stepThreshold
  acceptRatio_pos : 0 < o.acceptRatio
  acceptRatio_lt : o.acceptRatio < 1
  stopThreshold : 0 < o.stopThreshold
  nonempty : o.alphas ≠ []
  alphas_pos : ∀ a ∈ o.alphas, 0 < a
  alphas_le : ∀ a ∈ o.alphas, a ≤ 1
  decreasing : Options.strictlyDecreasing o.alphas = true

def Fault.Setting.all : List Fault.Setting :=
  [.regFactor, .regMin, .regMax, .gradThreshold, .stepThreshold, .acceptRatio, .stopThreshold,
    .noStepLength, .stepLengthRange, .stepLengthOrder]

theorem Fault.Setting.mem_all (s : Fault.Setting) : s ∈ Fault.Setting.all := by
  cases s <;> simp [Fault.Setting.all]

namespace Options

section Tests

variable {α : Type} [Scalar α] {o : Options α}

/-- Whether the test of a setting refuses it. -/
def refuses (o : Options α) : Fault.Setting → Bool
  | .regFactor => Scalar.le o.regFactor 1
  | .regMin => Scalar.lt o.regMin 0
  | .regMax => Scalar.le o.regMax o.regMin
  | .gradThreshold => Scalar.le o.gradThreshold 0
  | .stepThreshold => Scalar.le o.stepThreshold 0
  | .acceptRatio => !(Scalar.lt 0 o.acceptRatio && Scalar.lt o.acceptRatio 1)
  | .stopThreshold => Scalar.le o.stopThreshold 0
  | .noStepLength => o.alphas.isEmpty
  | .stepLengthRange => o.alphas.any fun a => Scalar.le a 0 || Scalar.lt 1 a
  | .stepLengthOrder => !strictlyDecreasing o.alphas

theorem fault?_eq_find? (o : Options α) : o.fault? = Fault.Setting.all.find? o.refuses := by
  have hfind {s : Fault.Setting} {l : List Fault.Setting} :
      (s :: l).find? o.refuses = if o.refuses s then some s else l.find? o.refuses := by
    cases h : o.refuses s <;> simp [h]
  simp only [Fault.Setting.all, hfind]
  rfl

theorem fault?_eq_none : o.fault? = none ↔ ∀ s, o.refuses s = false := by
  simp [fault?_eq_find?, Fault.Setting.mem_all]

end Tests

/-- A setting is refused exactly if it is out of range. -/
theorem fault?_eq_none_iff {o : Options K} : o.fault? = none ↔ o.InRange := by
  rw [fault?_eq_none]
  constructor
  · intro h
    have hratio := h .acceptRatio
    have hrange := h .stepLengthRange
    simp only [refuses, Bool.not_eq_false', Bool.and_eq_true, ExactScalar.lt_iff] at hratio
    simp only [refuses, List.any_eq_false, Bool.or_eq_true, ExactScalar.le_iff, ExactScalar.lt_iff,
      not_or, not_le, not_lt] at hrange
    exact ⟨by simpa [refuses] using h .regFactor, by simpa [refuses] using h .regMin,
      by simpa [refuses] using h .regMax, by simpa [refuses] using h .gradThreshold,
      by simpa [refuses] using h .stepThreshold, hratio.1, hratio.2,
      by simpa [refuses] using h .stopThreshold, by simpa [refuses] using h .noStepLength,
      fun a ha => (hrange a ha).1, fun a ha => (hrange a ha).2,
      by simpa [refuses] using h .stepLengthOrder⟩
  · rintro ⟨h₁, h₂, h₃, h₄, h₅, h₆, h₇, h₈, h₉, hpos, hle, h₁₁⟩ s
    cases s <;> simp_all [refuses]

theorem getLast?_lt {a b z : K} {rest : List K} (h : strictlyDecreasing (a :: b :: rest) = true)
    (hz : (a :: b :: rest).getLast? = some z) : z < a := by
  induction rest generalizing a b with
  | nil =>
    obtain rfl : b = z := by simpa using hz
    simpa [strictlyDecreasing] using h
  | cons c rest ih =>
    rw [strictlyDecreasing, Bool.and_eq_true] at h
    have hb := ih h.2 (by simpa using hz)
    have hab : b < a := by simpa using h.1
    exact hb.trans hab

theorem InRange.last_ne {o : Options K} (ho : o.InRange) {a b : K} {rest : List K}
    (ha : o.alphas = a :: b :: rest) : o.alphas.getLast?.any (Scalar.eq a) = false := by
  have hdec := ho.decreasing
  rw [ha] at hdec ⊢
  cases hz : (a :: b :: rest).getLast? with
  | none => rfl
  | some z =>
    have hlt := getLast?_lt hdec hz
    rw [Option.any_some, Bool.eq_false_iff]
    intro heq
    exact hlt.ne' (ExactScalar.eq_iff.mp heq)

end Options

theorem Weight.addend_decrease {o : Options K} (ho : o.InRange) {w : Weight K} (hw : 0 ≤ w.addend) :
    0 ≤ (w.decrease o).addend := by
  cases w with
  | none => exact le_rfl
  | some a =>
    have ha : 0 ≤ a / o.regFactor := div_nonneg hw (zero_le_one.trans ho.regFactor.le)
    have hle : (decrease o (some a)).addend = Scalar.larger (a / o.regFactor) o.regMin := rfl
    rw [hle, Scalar.larger]
    split
    · exact ho.regMin
    · exact ha

namespace Search

variable {α σ : Type} [Scalar α] {trial : σ → α → σ × Except Fault (Trial α)} {d : α × α}
  {feasible : Bool} {s : Search α} {a dV : α} {rest : List α} {w w' : σ} {code : SearchCode}

theorem walk_first (ht : trial w a = (w', .ok (.ok dV)))
    (hv : verdict { s with dV, dVexp := expectedDecrease d a } d feasible = some code) :
    walk trial d feasible (a :: rest) w s =
      { state := w'
        search :=
          { s with
            steplength := a
            iterations := s.iterations + 1
            dV
            dVexp := expectedDecrease d a
            code }
        events := [.measured a dV (expectedDecrease d a)]
        result := .ok a } := by
  have hv' : verdict { s with
      steplength := a, iterations := s.iterations + 1, dV, dVexp := expectedDecrease d a }
      d feasible = some code := hv
  unfold walk
  dsimp only
  rw [ht]
  dsimp only
  rw [hv']

/-- A search whose first trial passes the test ends with it. -/
theorem run_first (ha : s.alphas = a :: rest) (ht : trial w a = (w', .ok (.ok dV)))
    (hv : verdict { s with dV, dVexp := expectedDecrease d a } d feasible = some code) :
    (s.run trial d feasible w).state = w' ∧ (s.run trial d feasible w).result = .ok a ∧
      (s.run trial d feasible w).search =
        { s with
          steplength := a
          iterations := 1
          failures := 0
          dV
          dVexp := expectedDecrease d a
          code } := by
  have hw := @walk_first _ _ _ _ d feasible
    { s with iterations := 0, failures := 0, dV := 0, dVexp := 0, code := .noError } _ _ rest _ _ _
    ht hv
  unfold run
  dsimp only at hw ⊢
  rw [ha] at hw ⊢
  rw [hw]
  exact ⟨rfl, rfl, rfl⟩

theorem accepted_of_verdict (hv : s.verdict d feasible = some code) : code.accepted = true := by
  unfold verdict at hv
  split_ifs at hv <;> cases hv <;> rfl

end Search
end Shooting
