import Mathlib
import Shooting.Scalar

/-! # Machine doubles

The order of doubles, in which NaN has no place, and the powers of two among them, whose products
and quotients are exact down to the smallest positive double.
-/

namespace Shooting.Double

open Float.Model (Format UnpackedFloat totalExponent)
open Float.Model.UnpackedFloat

/-- Where an unpacked double stands: by sign and kind, then by exponent, then by mantissa. Both
zeros stand at one place, and NaN stands nowhere. -/
def rank : UnpackedFloat → Option (ℤ ×ₗ ℤ ×ₗ ℤ)
  | .notANumber => none
  | .infinity .negative => some (toLex (-2, toLex (0, 0)))
  | .finite .negative m e _ => some (toLex (-1, toLex (-e, -m)))
  | .zero _ => some (toLex (0, toLex (0, 0)))
  | .finite .positive m e _ => some (toLex (1, toLex (e, m)))
  | .infinity .positive => some (toLex (2, toLex (0, 0)))

def place (a : Float) : Option (ℤ ×ₗ ℤ ×ₗ ℤ) := rank a.toModel.unpack

theorem compare_neg_neg (a b : ℤ) : compare (-a) (-b) = (compare a b).swap := by
  rw [Int.compare_swap]
  simp [Int.compare_eq_ite_lt]

theorem compare_natCast (m n : ℕ) : compare (m : ℤ) n = compare m n := by
  simp [Int.compare_eq_ite_lt, Nat.compare_eq_ite_lt]

/-- Two doubles compare as their places do, if both have one. -/
theorem compare_eq (x y : UnpackedFloat) :
    x.compare y = (rank x).bind fun r => (rank y).map fun s => compare r s := by
  -- Only two finite doubles of one sign are compared by more than their kinds.
  rcases x with (_ | _) | _ | (_ | _) | ⟨_ | _, m, e, -⟩ <;>
    rcases y with (_ | _) | _ | (_ | _) | ⟨_ | _, m', e', -⟩ <;>
    simp only [UnpackedFloat.compare, rank, Option.bind_some, Option.bind_none, Option.map_some,
      Option.map_none, Prod.Lex.compare_def, compareLex, compareOn, ofLex_toLex, compare_neg_neg,
      compare_natCast, Ordering.swap_then] <;>
    rfl

variable {a b c : Float}

theorem place_eq_none_iff : place a = none ↔ a = .nan := by
  have hnan : a.toModel.unpack.isNaN = true ↔ a = .nan := by
    change a.isNaN = true ↔ a = .nan
    simp
  rw [← hnan, place]
  rcases a.toModel.unpack with (_ | _) | _ | _ | ⟨_ | _, m, e, -⟩ <;> simp [rank]

theorem lt_iff : a < b ↔ ∃ r ∈ place a, ∃ s ∈ place b, r < s := by
  have h : a < b ↔ a.toModel.unpack.compare b.toModel.unpack = some .lt := by
    change decide (a.toModel < b.toModel) = true ↔ _
    rw [decide_eq_true_iff]
    exact beq_iff_eq
  rw [h, compare_eq, ← place, ← place]
  cases place a <;> cases place b <;> simp [compare_lt_iff_lt]

theorem le_iff : a ≤ b ↔ ∃ r ∈ place a, ∃ s ∈ place b, r ≤ s := by
  have h : a ≤ b ↔ (a.toModel.unpack.compare b.toModel.unpack).any (·.isLE) = true := by
    change decide (a.toModel ≤ b.toModel) = true ↔ _
    rw [decide_eq_true_iff]
    rfl
  rw [h, compare_eq, ← place, ← place]
  cases place a <;> cases place b <;> simp [Ordering.isLE_iff_ne_gt, compare_le_iff_le]

protected theorem not_le : ¬ a ≤ b ↔ a = .nan ∨ b = .nan ∨ b < a := by
  rw [le_iff, lt_iff, ← place_eq_none_iff, ← place_eq_none_iff]
  cases place a <;> cases place b <;> simp

protected theorem not_lt : ¬ a < b ↔ a = .nan ∨ b = .nan ∨ b ≤ a := by
  rw [le_iff, lt_iff, ← place_eq_none_iff, ← place_eq_none_iff]
  cases place a <;> cases place b <;> simp

protected theorem lt_trans (h : a < b) (h' : b < c) : a < c := by
  rw [lt_iff] at *
  obtain ⟨r, hr, s, hs, hrs⟩ := h
  obtain ⟨s', hs', t, ht, hst⟩ := h'
  obtain rfl : s = s' := Option.mem_unique hs hs'
  exact ⟨r, hr, t, ht, hrs.trans hst⟩

protected theorem le_of_lt (h : a < b) : a ≤ b := by
  obtain ⟨r, hr, s, hs, hrs⟩ := lt_iff.mp h
  exact le_iff.mpr ⟨r, hr, s, hs, hrs.le⟩

theorem ne_nan_left (h : a ≤ b) : a ≠ .nan := by
  obtain ⟨r, hr, -⟩ := le_iff.mp h
  rw [Ne, ← place_eq_none_iff, hr]
  exact Option.some_ne_none r

theorem ne_nan_right (h : a ≤ b) : b ≠ .nan := by
  obtain ⟨-, -, s, hs, -⟩ := le_iff.mp h
  rw [Ne, ← place_eq_none_iff, hs]
  exact Option.some_ne_none s

theorem toNat_leadingBit_append {m : ℕ} (hm : 2 ^ 52 ≤ m) (hm' : m < 2 ^ 53) :
    (1#1 ++ BitVec.ofNat 52 m).toNat = m := by
  simp only [BitVec.toNat_append, BitVec.toNat_ofNat, Nat.shiftLeft_eq]
  change 2 ^ 52 ||| m % 2 ^ 52 = m
  rw [Nat.or_comm, Nat.or_two_pow_eq_add_of_lt (Nat.mod_lt m (Nat.two_pow_pos 52))]
  omega

theorem pack_normal {m : ℕ} {e : ℤ} (hm : 2 ^ 52 ≤ m) (hm' : m < 2 ^ 53) (he' : e ≤ 971) :
    pack .binary64 (.finite .positive m e (by omega)) =
      packComponents .binary64 .positive (BitVec.ofNat 11 (e + 1075).toNat)
        (BitVec.ofNat 52 m) := by
  have hl : m.log2 = 52 := (Nat.log2_eq_iff (by omega)).mpr ⟨hm, hm'⟩
  have hbias : (e + Format.binary64.exponentBias +
      Format.binary64.mantissaBitsWithoutImplicit).toNat = (e + 1075).toNat := by
    change (e + 1023 + 52).toNat = _
    omega
  have hfits : ¬ 2 ^ Format.binary64.exponentBits ≤ (e + 1075).toNat + 1 := by
    change ¬ 2048 ≤ _
    omega
  simp only [pack, hl, hbias, if_neg hfits]
  rfl

theorem unpack_pack_normal {m : ℕ} {e : ℤ} (hm : 2 ^ 52 ≤ m) (hm' : m < 2 ^ 53) (he : -1074 ≤ e)
    (he' : e ≤ 971) : unpack .binary64 (pack .binary64 (.finite .positive m e (by omega))) =
      .finite .positive m e (by omega) := by
  have hexp : (BitVec.ofNat 11 (e + 1075).toNat).toNat = (e + 1075).toNat := by
    rw [BitVec.toNat_ofNat]
    omega
  have hinf : BitVec.ofNat 11 (e + 1075).toNat ≠ -1#11 := fun h => by
    have : (e + 1075).toNat = 2047 := hexp ▸ congrArg BitVec.toNat h
    omega
  have hsub : BitVec.ofNat 11 (e + 1075).toNat ≠ 0#11 := fun h => by
    have : (e + 1075).toNat = 0 := hexp ▸ congrArg BitVec.toNat h
    omega
  rw [pack_normal hm hm' he']
  simp only [unpack, unpackExponent_packComponents, unpackMantissa_packComponents,
    unpackSign_packComponents]
  rw [if_neg hinf, if_neg hsub]
  simp only [toNat_leadingBit_append hm hm', hexp, UnpackedFloat.finite.injEq]
  refine ⟨rfl, trivial, ?_⟩
  change ((e + 1075).toNat : ℤ) - (1023 + 52) = e
  omega

theorem unpack_pack_subnormal {m : ℕ} (hm : 0 < m) (hm' : m < 2 ^ 52) :
    unpack .binary64 (pack .binary64 (.finite .positive m (-1074) hm)) =
      .finite .positive m (-1074) hm := by
  have hl : m.log2 ≠ 52 := fun h => by
    have := ((Nat.log2_eq_iff (by omega)).mp h).1
    omega
  have hp : pack .binary64 (.finite .positive m (-1074) hm) =
      packComponents .binary64 .positive 0#11 (BitVec.ofNat 52 m) := by
    simp only [pack]
    rw [if_neg (by decide), if_neg (fun h => hl (by simpa [Format.mantissaBits] using h))]
  have hman : (BitVec.ofNat 52 m).toNat = m := by
    rw [BitVec.toNat_ofNat]
    omega
  have hz : BitVec.ofNat 52 m ≠ 0#52 := fun h => by
    have : m = 0 := hman ▸ congrArg BitVec.toNat h
    omega
  rw [hp]
  simp only [unpack, unpackExponent_packComponents, unpackMantissa_packComponents,
    unpackSign_packComponents]
  rw [if_neg (by decide), if_pos trivial, dif_neg hz]
  simp only [hman, UnpackedFloat.finite.injEq]
  exact ⟨rfl, trivial, rfl⟩

/-- The exponent of the last bit of a double whose leading bit has exponent `k`. -/
def ulp (k : ℤ) : ℤ := max (k - 52) (-1074)

theorem ulp_of_normal {k : ℤ} (h : -1022 ≤ k) : ulp k = k - 52 := by
  simp only [ulp]
  omega

theorem ulp_of_subnormal {k : ℤ} (h : k < -1022) : ulp k = -1074 := by
  simp only [ulp]
  omega

def twoPow (k : ℤ) : UnpackedFloat :=
  .finite .positive (2 ^ (k - ulp k).toNat) (ulp k) (Nat.two_pow_pos _)

def powerOfTwo (k : ℤ) : Float := .ofModel (.pack (twoPow k))

theorem zero_eq : (0.0 : Float) = .ofModel (.pack (.zero .positive)) := by decide +kernel

theorem one_eq : (1.0 : Float) = powerOfTwo 0 := by decide +kernel

theorem two_eq : (1.0 + 1.0 : Float) = powerOfTwo 1 := by decide +kernel

variable {j k : ℤ}

theorem unpack_powerOfTwo (h : -1074 ≤ k) (h' : k ≤ 1023) :
    (powerOfTwo k).toModel.unpack = twoPow k := by
  change unpack .binary64 (pack .binary64 (twoPow k)) = twoPow k
  by_cases hk : -1022 ≤ k
  · have hm : (k - ulp k).toNat = 52 := by
      rw [ulp_of_normal hk]
      omega
    simp only [twoPow, hm]
    exact unpack_pack_normal le_rfl (by decide) (by rw [ulp_of_normal hk]; omega)
      (by rw [ulp_of_normal hk]; omega)
  · simp only [twoPow, ulp_of_subnormal (lt_of_not_ge hk)]
    refine unpack_pack_subnormal _ (Nat.pow_lt_pow_right (by decide) ?_)
    omega

theorem isFinite_powerOfTwo (h : -1074 ≤ k) : (powerOfTwo k).isFinite = decide (k ≤ 1023) := by
  change (powerOfTwo k).toModel.unpack.isFinite = _
  by_cases hk : k ≤ 1023
  · rw [unpack_powerOfTwo h hk, decide_eq_true hk]
    rfl
  · have hp : pack .binary64 (twoPow k) = packedInfinity .binary64 .positive := by
      simp only [pack, twoPow, ulp_of_normal (by omega : -1022 ≤ k)]
      refine if_pos ?_
      change 2048 ≤ (k - 52 + 1023 + 52).toNat + 1
      omega
    change (unpack .binary64 (pack .binary64 (twoPow k))).isFinite = _
    rw [hp, decide_eq_false hk]
    rfl

theorem targetExponent_eq (s : ℕ) (e : ℤ) :
    Format.binary64.targetExponent (totalExponent (2 ^ s) e) = ulp (s + e) := by
  simp only [Format.targetExponent, totalExponent, Nat.log2_two_pow, Format.mantissaBits,
    Format.minExponent, ulp]
  omega

theorem shiftRight_two_pow (s n : ℕ) (h : n ≤ s) :
    ExtendedMantissa.ofMantissaAndAccuracy (2 ^ s) .exact >>> n =
      ⟨2 ^ (s - n), false, false⟩ := by
  induction n with
  | zero => rfl
  | succ n ih =>
    have hs : s - n = s - (n + 1) + 1 := by omega
    change ExtendedMantissa.shiftRightOne
      (ExtendedMantissa.ofMantissaAndAccuracy (2 ^ s) .exact >>> n) = _
    rw [ih (by omega), hs, Nat.pow_succ]
    simp [ExtendedMantissa.shiftRightOne]

theorem shiftToTargetExponent_two_pow (s : ℕ) (e : ℤ) (h : e ≤ ulp (s + e))
    (h' : ulp (s + e) ≤ s + e) : shiftToTargetExponent .binary64 (2 ^ s) e .exact =
      (⟨2 ^ (s + e - ulp (s + e)).toNat, false, false⟩, ulp (s + e)) := by
  have hn : (ulp (s + e) - e).toNat ≤ s := by omega
  have hs : s - (ulp (s + e) - e).toNat = (s + e - ulp (s + e)).toNat := by omega
  simp only [shiftToTargetExponent, targetExponent_eq, shiftToExponent,
    shiftRight_two_pow s _ hn, hs]
  congr 1
  omega

theorem roundWithAccuracy_two_pow (s : ℕ) (e : ℤ) (h : e ≤ ulp (s + e)) (h' : -1074 ≤ s + e) :
    roundWithAccuracy .binary64 .positive (2 ^ s) e .exact = twoPow (s + e) := by
  have hu : ulp (s + e) ≤ s + e := by
    simp only [ulp]
    omega
  have hk : ((s + e - ulp (s + e)).toNat : ℤ) + ulp (s + e) = s + e := by omega
  -- The second shift has nothing left to do.
  have hagain := shiftToTargetExponent_two_pow (s + e - ulp (s + e)).toNat (ulp (s + e))
    (by rw [hk]) (by rw [hk]; exact hu)
  rw [hk] at hagain
  simp only [roundWithAccuracy, shiftToTargetExponent_two_pow s e h hu,
    ExtendedMantissa.roundedMantissa, ExtendedMantissa.accuracy, Accuracy.roundToNearestEven,
    hagain]
  rw [dif_neg (Nat.two_pow_pos _).ne']
  rfl

theorem powerOfTwo_mul (hj : -1074 ≤ j) (hj' : j ≤ 1023) (hk : -1074 ≤ k) (hk' : k ≤ 1023)
    (h : -1074 ≤ j + k) : powerOfTwo j * powerOfTwo k = powerOfTwo (j + k) := by
  change Float.ofModel (.pack (mul .binary64 (powerOfTwo j).toModel.unpack
    (powerOfTwo k).toModel.unpack)) = _
  rw [unpack_powerOfTwo hj hj', unpack_powerOfTwo hk hk']
  change Float.ofModel (.pack (roundWithAccuracy .binary64 .positive (2 ^ _ * 2 ^ _) _ .exact)) = _
  have hs : (((j - ulp j).toNat + (k - ulp k).toNat : ℕ) : ℤ) + (ulp j + ulp k) = j + k := by
    simp only [ulp]
    omega
  rw [← Nat.pow_add, roundWithAccuracy_two_pow, hs, powerOfTwo]
  · rw [hs]
    simp only [ulp]
    omega
  · omega

/-- The quotient of two powers of two before rounding is a power of two again, with as many bits as
rounding can use. -/
theorem divCore_two_pow (hj : -1074 ≤ j) (hk : -1074 ≤ k) (h : -1074 ≤ j - k) :
    ∃ (s : ℕ) (e : ℤ), s + e = j - k ∧ e ≤ ulp (j - k) ∧
      divCore .binary64 (2 ^ (j - ulp j).toNat) (ulp j) (2 ^ (k - ulp k).toNat) (ulp k) =
        (2 ^ s, e, .exact) := by
  set t := min (ulp j - ulp k) (ulp (j - k - 1)) with ht
  have htarget : Format.binary64.targetExponent (totalExponent (2 ^ (j - ulp j).toNat) (ulp j) -
      totalExponent (2 ^ (k - ulp k).toNat) (ulp k)) = ulp (j - k - 1) := by
    simp only [Format.targetExponent, totalExponent, Nat.log2_two_pow, Format.mantissaBits,
      Format.minExponent, ulp]
    omega
  have hquotient : (j - ulp j).toNat + (ulp j - ulp k - t).toNat =
      (j - k - t).toNat + (k - ulp k).toNat := by
    simp only [ht, ulp]
    omega
  refine ⟨(j - k - t).toNat, t, ?_, ?_, ?_⟩
  · simp only [ht, ulp]
    omega
  · simp only [ht, ulp]
    omega
  · simp only [divCore, htarget, ← ht, Nat.shiftLeft_eq, ← Nat.pow_add, hquotient]
    rw [Nat.pow_add, Nat.mul_div_cancel _ (Nat.two_pow_pos _), Nat.mul_mod_left]
    rfl

theorem powerOfTwo_div (hj : -1074 ≤ j) (hj' : j ≤ 1023) (hk : -1074 ≤ k) (hk' : k ≤ 1023)
    (h : -1074 ≤ j - k) : powerOfTwo j / powerOfTwo k = powerOfTwo (j - k) := by
  obtain ⟨s, e, hs, he, hd⟩ := divCore_two_pow hj hk h
  change Float.ofModel (.pack (div .binary64 (powerOfTwo j).toModel.unpack
    (powerOfTwo k).toModel.unpack)) = _
  rw [unpack_powerOfTwo hj hj', unpack_powerOfTwo hk hk']
  simp only [div, twoPow, hd]
  change Float.ofModel (.pack (roundWithAccuracy .binary64 .positive (2 ^ s) e .exact)) = _
  rw [roundWithAccuracy_two_pow, hs, powerOfTwo]
  · rwa [hs]
  · rwa [hs]

theorem place_powerOfTwo (h : -1074 ≤ k) (h' : k ≤ 1023) :
    place (powerOfTwo k) = some (toLex (1, toLex (ulp k, 2 ^ (k - ulp k).toNat))) := by
  rw [place, unpack_powerOfTwo h h']
  simp [twoPow, rank]

theorem zero_lt_powerOfTwo (h : -1074 ≤ k) (h' : k ≤ 1023) : 0.0 < powerOfTwo k := by
  have hz : place 0.0 = some (toLex (0, toLex (0, 0))) := by
    rw [zero_eq]
    rfl
  refine lt_iff.mpr ⟨_, hz, _, place_powerOfTwo h h', ?_⟩
  exact Prod.Lex.toLex_lt_toLex.mpr (.inl Int.zero_lt_one)

theorem powerOfTwo_lt (h : -1074 ≤ k) (hkj : k < j) (h' : j ≤ 1023) :
    powerOfTwo k < powerOfTwo j := by
  refine lt_iff.mpr ⟨_, place_powerOfTwo h (by omega), _, place_powerOfTwo (by omega) h', ?_⟩
  refine Prod.Lex.toLex_lt_toLex.mpr (.inr ⟨rfl, Prod.Lex.toLex_lt_toLex.mpr ?_⟩)
  obtain hu | hu := (show ulp k ≤ ulp j by simp only [ulp]; omega).lt_or_eq
  · exact .inl hu
  · -- Among subnormal powers the mantissa decides.
    have hm : (k - ulp k).toNat < (j - ulp j).toNat := by
      simp only [ulp] at *
      omega
    exact .inr ⟨hu, pow_lt_pow_right₀ (by decide) hm⟩

theorem powerOfTwo_le_one (h : -1074 ≤ k) (h' : k ≤ 0) : powerOfTwo k ≤ 1.0 := by
  rw [one_eq]
  obtain hk | rfl := h'.lt_or_eq
  · exact Double.le_of_lt (powerOfTwo_lt h hk (by decide))
  · exact le_iff.mpr ⟨_, place_powerOfTwo h (by decide), _, place_powerOfTwo h (by decide), le_rfl⟩

end Shooting.Double
