import Shooting.Proofs.Acceptance
import Shooting.Proofs.Double

/-! # Validated options

What accepted options over machine doubles guarantee. Except for the share of the decrease, a
setting is refused only if a comparison shows it to be out of range. No comparison with NaN shows
anything: NaN passes, and what the setting should guarantee does not hold. Among options without NaN
exactly those in range are accepted, and the halving schedules always are.
-/

namespace Shooting

open Double

namespace Options

variable {o : Options Float}

def Meets (o : Options Float) : Fault.Setting → Prop
  | .regFactor => 1.0 < o.regFactor
  | .regMin => 0.0 ≤ o.regMin
  | .regMax => o.regMin < o.regMax
  | .gradThreshold => 0.0 < o.gradThreshold
  | .stepThreshold => 0.0 < o.stepThreshold
  | .acceptRatio => 0.0 < o.acceptRatio ∧ o.acceptRatio < 1.0
  | .stopThreshold => 0.0 < o.stopThreshold
  | .noStepLength => o.alphas ≠ []
  | .stepLengthRange => ∀ a ∈ o.alphas, 0.0 < a ∧ a ≤ 1.0
  | .stepLengthOrder => ∀ i j : Fin o.alphas.length, i < j → o.alphas.get j < o.alphas.get i

/-- What the options guarantee if the test of a setting is passed. The step lengths decrease along
every stretch of the schedule without NaN. -/
def Passes (o : Options Float) : Fault.Setting → Prop
  | .regFactor => o.regFactor = .nan ∨ 1.0 < o.regFactor
  | .regMin => o.regMin = .nan ∨ 0.0 ≤ o.regMin
  | .regMax => o.regMin = .nan ∨ o.regMax = .nan ∨ o.regMin < o.regMax
  | .gradThreshold => o.gradThreshold = .nan ∨ 0.0 < o.gradThreshold
  | .stepThreshold => o.stepThreshold = .nan ∨ 0.0 < o.stepThreshold
  | .acceptRatio => 0.0 < o.acceptRatio ∧ o.acceptRatio < 1.0
  | .stopThreshold => o.stopThreshold = .nan ∨ 0.0 < o.stopThreshold
  | .noStepLength => o.alphas ≠ []
  | .stepLengthRange => ∀ a ∈ o.alphas, a = .nan ∨ 0.0 < a ∧ a ≤ 1.0
  | .stepLengthOrder => ∀ i j : Fin o.alphas.length, i < j →
      (∀ k, i ≤ k → k ≤ j → o.alphas.get k ≠ .nan) → o.alphas.get j < o.alphas.get i

def numbers (o : Options Float) : List Float :=
  [o.regFactor, o.regMin, o.regMax, o.gradThreshold, o.stepThreshold, o.acceptRatio,
    o.stopThreshold] ++ o.alphas

theorem zero_ne_nan : (0.0 : Float) ≠ .nan := by decide +kernel

theorem one_ne_nan : (1.0 : Float) ≠ .nan := by decide +kernel

theorem le_eq_false_iff {a b : Float} :
    Scalar.le a b = false ↔ a = .nan ∨ b = .nan ∨ b < a :=
  decide_eq_false_iff_not.trans Double.not_le

theorem lt_eq_false_iff {a b : Float} :
    Scalar.lt a b = false ↔ a = .nan ∨ b = .nan ∨ b ≤ a :=
  decide_eq_false_iff_not.trans Double.not_lt

theorem le_one_eq_false_iff {a : Float} : Scalar.le a 1.0 = false ↔ a = .nan ∨ 1.0 < a := by
  simp [le_eq_false_iff, one_ne_nan]

theorem le_zero_eq_false_iff {a : Float} : Scalar.le a 0.0 = false ↔ a = .nan ∨ 0.0 < a := by
  simp [le_eq_false_iff, zero_ne_nan]

theorem lt_zero_eq_false_iff {a : Float} : Scalar.lt a 0.0 = false ↔ a = .nan ∨ 0.0 ≤ a := by
  simp [lt_eq_false_iff, zero_ne_nan]

theorem one_lt_eq_false_iff {a : Float} : Scalar.lt 1.0 a = false ↔ a = .nan ∨ a ≤ 1.0 := by
  simp [lt_eq_false_iff, one_ne_nan]

theorem strictlyDecreasing_iff_isChain {l : List Float} : strictlyDecreasing l = true ↔
    l.IsChain fun a b => a = .nan ∨ b = .nan ∨ b < a := by
  induction l with
  | nil => simp [strictlyDecreasing]
  | cons a l ih =>
    cases l with
    | nil => simp [strictlyDecreasing]
    | cons b l => simp [strictlyDecreasing, ih, le_eq_false_iff]

/-- Neighbours decide about whole stretches. -/
theorem strictlyDecreasing_iff {l : List Float} : strictlyDecreasing l = true ↔
    ∀ i j : Fin l.length, i < j → (∀ k, i ≤ k → k ≤ j → l.get k ≠ .nan) → l.get j < l.get i := by
  rw [strictlyDecreasing_iff_isChain, List.isChain_iff_getElem]
  constructor
  · rintro h ⟨i, hi⟩ ⟨j, hj⟩ hij
    replace hij : i + 1 ≤ j := hij
    induction j, hij using Nat.le_induction with
    | base =>
      intro hn
      exact ((h i hj).resolve_left (hn ⟨i, hi⟩ le_rfl (Nat.le_succ i))).resolve_left
        (hn ⟨i + 1, hj⟩ (Nat.le_succ i) le_rfl)
    | succ j hij ih =>
      intro hn
      have hij' : i ≤ j := Nat.le_of_succ_le hij
      have hstep : l[j + 1] < l[j] :=
        ((h j hj).resolve_left (hn ⟨j, Nat.lt_of_succ_lt hj⟩ hij' (Nat.le_succ j))).resolve_left
          (hn ⟨j + 1, hj⟩ (Nat.le_succ_of_le hij') le_rfl)
      exact Double.lt_trans hstep
        (ih (Nat.lt_of_succ_lt hj) fun k hk hk' => hn k hk (Nat.le_succ_of_le hk'))
  · intro h i hi
    by_contra hc
    simp only [not_or] at hc
    refine hc.2.2 (h ⟨i, Nat.lt_of_succ_lt hi⟩ ⟨i + 1, hi⟩ (Nat.lt_succ_self i) ?_)
    rintro ⟨k, hk⟩ (hik : i ≤ k) (hki : k ≤ i + 1)
    obtain rfl | rfl : k = i ∨ k = i + 1 := by omega
    · exact hc.1
    · exact hc.2.1

theorem refuses_eq_false_iff (s : Fault.Setting) : o.refuses s = false ↔ o.Passes s := by
  cases s with
  | regFactor => exact le_one_eq_false_iff
  | regMin => exact lt_zero_eq_false_iff
  | regMax =>
    rw [refuses, le_eq_false_iff, Passes]
    tauto
  | gradThreshold | stepThreshold | stopThreshold => exact le_zero_eq_false_iff
  | acceptRatio =>
    rw [refuses, Bool.not_eq_false', Bool.and_eq_true]
    exact and_congr decide_eq_true_iff decide_eq_true_iff
  | noStepLength => exact List.isEmpty_eq_false_iff
  | stepLengthRange =>
    simp only [refuses, Passes, List.any_eq_false, Bool.not_eq_true, Bool.or_eq_false_iff]
    exact forall₂_congr fun a _ =>
      (and_congr le_zero_eq_false_iff one_lt_eq_false_iff).trans or_and_left.symm
  | stepLengthOrder =>
    rw [refuses, Bool.not_eq_false']
    exact strictlyDecreasing_iff

theorem check_eq_ok_iff : o.check = .ok o ↔ ∀ s, o.Passes s := by
  rw [← forall_congr' refuses_eq_false_iff, ← fault?_eq_none, check]
  cases o.fault? <;> simp

/-- The first setting, in the order of the tests, that does not pass. -/
def FirstFailing (o : Options Float) (s : Fault.Setting) : Prop :=
  ¬ o.Passes s ∧ ∃ before after, Fault.Setting.all = before ++ s :: after ∧
    ∀ t ∈ before, o.Passes t

theorem check_eq_error_iff {s : Fault.Setting} :
    o.check = .error (.setting s) ↔ o.FirstFailing s := by
  have hfind : o.fault? = some s ↔ o.FirstFailing s := by
    simp only [fault?_eq_find?, List.find?_eq_some_iff_append, FirstFailing,
      ← refuses_eq_false_iff, Bool.not_eq_false, Bool.not_eq_true']
  rw [← hfind, check]
  cases o.fault? <;> simp

theorem check_eq_ok_or (o : Options Float) :
    o.check = .ok o ∨ ∃ s, o.check = .error (.setting s) ∧ o.FirstFailing s := by
  simp only [← check_eq_error_iff, check]
  cases o.fault? <;> simp

theorem Meets.passes {s : Fault.Setting} (h : o.Meets s) : o.Passes s := by
  cases s <;> simp_all [Meets, Passes]

theorem nan_notMem_of_meets (h : ∀ s, o.Meets s) : .nan ∉ o.numbers := by
  intro hnan
  simp only [numbers, List.mem_append, List.mem_cons, List.not_mem_nil, or_false] at hnan
  obtain (hn | hn | hn | hn | hn | hn | hn) | hn := hnan
  · exact ne_nan_right (Double.le_of_lt (h .regFactor)) hn.symm
  · exact ne_nan_right (h .regMin) hn.symm
  · exact ne_nan_right (Double.le_of_lt (h .regMax)) hn.symm
  · exact ne_nan_right (Double.le_of_lt (h .gradThreshold)) hn.symm
  · exact ne_nan_right (Double.le_of_lt (h .stepThreshold)) hn.symm
  · exact ne_nan_right (Double.le_of_lt (h .acceptRatio).1) hn.symm
  · exact ne_nan_right (Double.le_of_lt (h .stopThreshold)) hn.symm
  · exact ne_nan_left (h .stepLengthRange .nan hn).2 rfl

theorem Passes.meets {s : Fault.Setting} (h : o.Passes s) (hn : .nan ∉ o.numbers) :
    o.Meets s := by
  have halphas (a : Float) (ha : a ∈ o.alphas) : a ≠ .nan :=
    fun hnan => hn (List.mem_append_right _ (hnan ▸ ha))
  simp only [numbers, List.mem_append, List.mem_cons, List.not_mem_nil, or_false, not_or,
    eq_comm (a := Float.nan)] at hn
  cases s with
  | stepLengthRange => exact fun a ha => (h a ha).resolve_left (halphas a ha)
  | stepLengthOrder =>
    exact fun i j hij => h i j hij fun k _ _ => halphas _ (List.get_mem _ _)
  | _ => simpa [Meets, Passes, hn] using h

end Options

open Options

theorem halvingsFrom_succ (power : Float) (n : ℕ) : halvingsFrom power (n + 1) =
    if power.isFinite then (halvingsFrom (power * (1.0 + 1.0)) n).map (1.0 / power :: ·)
    else .error .stepUnderflow := rfl

theorem halvingsFrom_powerOfTwo (n k : ℕ) (hk : k ≤ 1024) : halvingsFrom (powerOfTwo k) n =
    if k + n ≤ 1024 then .ok ((List.range n).map fun i => powerOfTwo (-(k + i : ℕ)))
    else .error .stepUnderflow := by
  induction n generalizing k with
  | zero => simp [halvingsFrom, hk]
  | succ n ih =>
    rw [halvingsFrom_succ, isFinite_powerOfTwo (by omega)]
    obtain rfl | hlt : k = 1024 ∨ k < 1024 := by omega
    · rw [if_neg (by decide), if_neg (by omega)]
    · have hnext : ((k : ℤ) + 1) = (k + 1 : ℕ) := by omega
      rw [if_pos (decide_eq_true (by omega)), two_eq,
        powerOfTwo_mul (by omega) (by omega) (by omega) (by omega) (by omega), hnext,
        ih (k + 1) hlt, one_eq, powerOfTwo_div (by omega) (by omega) (by omega) (by omega) (by omega)]
      have hcond : k + 1 + n ≤ 1024 ↔ k + (n + 1) ≤ 1024 := by omega
      simp only [hcond]
      split
      · simp [Except.map, List.range_succ_eq_map, Function.comp_def, Nat.add_assoc, Nat.add_comm 1]
      · rfl

theorem halvings_eq (n : ℤ) : (halvings n : Except Fault (List Float)) =
    if n ≤ 0 then .error .noSteps
    else if n ≤ 1024 then .ok ((List.range n.toNat).map fun i => powerOfTwo (-(i : ℕ)))
    else .error .stepUnderflow := by
  have h : halvingsFrom (1.0 : Float) n.toNat = _ :=
    one_eq ▸ halvingsFrom_powerOfTwo n.toNat 0 (by decide)
  change (if n ≤ 0 then _ else halvingsFrom (1.0 : Float) n.toNat) = _
  rw [h]
  simp

/-- A halving schedule starts at one, stays positive and decreases throughout. -/
theorem Options.meets_of_halvings {o : Options Float} {n : ℤ} (h : halvings n = .ok o.alphas) :
    o.Meets .noStepLength ∧ o.Meets .stepLengthRange ∧ o.Meets .stepLengthOrder := by
  rw [halvings_eq] at h
  split_ifs at h with h₀ h₁
  have halphas : o.alphas = (List.range n.toNat).map fun i => powerOfTwo (-(i : ℕ)) :=
    (Except.ok.inj h).symm
  refine ⟨?_, ?_, ?_⟩
  · have : n.toNat ≠ 0 := by omega
    simpa [Meets, halphas] using this
  · simp only [Meets, halphas, List.forall_mem_map, List.mem_range]
    exact fun i hi => ⟨zero_lt_powerOfTwo (by omega) (by omega),
      powerOfTwo_le_one (by omega) (by omega)⟩
  · intro i j hij
    have hj : (j : ℕ) < n.toNat := by simpa [halphas] using j.isLt
    have hi : (i : ℕ) < j := hij
    simpa [halphas] using powerOfTwo_lt (k := -(j : ℕ)) (by omega) (by omega) (by omega)

/-- Options are accepted exactly if every setting passes. In range are exactly those among them that
have no NaN. Otherwise the first setting that does not pass is named. There are halving schedules of
up to 1024 steps, and accepted options stay accepted with any of them. -/
theorem Options.check_guarantees (o : Options Float) :
    (o.check = .ok o ↔ ∀ s, o.Passes s) ∧
      ((∀ s, o.Meets s) ↔ o.check = .ok o ∧ .nan ∉ o.numbers) ∧
      (o.check = .ok o ∨ ∃ s, o.check = .error (.setting s) ∧ o.FirstFailing s ∧
        (Fault.setting s).family = .value) ∧
      ∀ n : ℤ, ((∃ alphas : List Float, halvings n = .ok alphas) ↔ 1 ≤ n ∧ n ≤ 1024) ∧
        ∀ alphas, halvings n = .ok alphas → o.check = .ok o →
          { o with alphas := alphas }.check = .ok { o with alphas := alphas } := by
  refine ⟨check_eq_ok_iff, ⟨fun h => ?_, fun h s => ?_⟩, ?_, fun n => ⟨?_, fun alphas hn ho => ?_⟩⟩
  · exact ⟨check_eq_ok_iff.mpr fun s => (h s).passes, nan_notMem_of_meets h⟩
  · exact (check_eq_ok_iff.mp h.1 s).meets h.2
  · exact (check_eq_ok_or o).imp_right fun ⟨s, hs, hf⟩ => ⟨s, hs, hf, rfl⟩
  · rw [halvings_eq]
    split_ifs <;> simp <;> omega
  · rw [check_eq_ok_iff] at ho ⊢
    obtain ⟨h₀, h₁, h₂⟩ := meets_of_halvings (o := { o with alphas := alphas }) hn
    intro s
    have hs := ho s
    cases s with
    | noStepLength => exact h₀.passes
    | stepLengthRange => exact h₁.passes
    | stepLengthOrder => exact h₂.passes
    | _ => exact hs

def Options.factorless : Options Float := { Options.standard with regFactor := .nan }

/-- A factor of NaN is accepted, though it is not above one. -/
theorem Options.check_factorless :
    factorless.check = .ok factorless ∧ ¬ factorless.Meets .regFactor := by
  have hfault : factorless.fault? = none := by decide +kernel
  constructor
  · rw [check, hfault]
  · change ¬ 1.0 < Float.nan
    decide +kernel

end Shooting
