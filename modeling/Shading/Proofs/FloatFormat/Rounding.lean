import Mathlib.Data.Int.Log
import Mathlib.Data.Rat.Floor
import Mathlib.Tactic.NormNum
import Mathlib.Tactic.Positivity
import Shading.FloatFormat
import Shading.Number

/-! Rounding depends on the quotient alone: a common factor of numerator and denominator is lost. Numbers of the
32-bit format are numbers of the 64-bit format: made wider and narrower again a number is what it was, and a NaN is
quiet. -/
namespace Shading.FloatFormat

section

variable {num den : Nat}

/-- Whether a power of two is at most a quotient, without fractions. -/
theorem shift_le_shift_iff (hden : 0 < den) (e : Int) :
    den <<< e.toNat ≤ num <<< (-e).toNat ↔ (2 : ℚ) ^ e ≤ num / den := by
  have hd : (0 : ℚ) < den := by exact_mod_cast hden
  rw [le_div_iff₀ hd]
  obtain ⟨k, rfl | rfl⟩ := e.eq_nat_or_neg
  · have hneg : (-(k : Int)).toNat = 0 := by omega
    rw [hneg, Int.toNat_natCast, Nat.shiftLeft_zero, Nat.shiftLeft_eq, zpow_natCast, mul_comm]
    exact_mod_cast Iff.rfl
  · have hneg : (-(k : Int)).toNat = 0 := by omega
    rw [hneg, neg_neg, Int.toNat_natCast, Nat.shiftLeft_zero, Nat.shiftLeft_eq, zpow_neg, zpow_natCast,
      inv_mul_le_iff₀ (by positivity), mul_comm]
    exact_mod_cast Iff.rfl

theorem log2_le_cast (h : 0 < num) : (2 : ℚ) ^ (Nat.log2 num : Int) ≤ num := by
  rw [zpow_natCast]
  exact_mod_cast Nat.log2_self_le (by omega)

theorem cast_lt_log2 : (num : ℚ) < 2 ^ ((Nat.log2 num : Int) + 1) := by
  have h : num < 2 ^ (Nat.log2 num + 1) := Nat.lt_log2_self
  exact_mod_cast h

theorem log2Ratio_eq_log (hnum : 0 < num) (hden : 0 < den) :
    log2Ratio num den = Int.log 2 (num / den : ℚ) := by
  have hn : (0 : ℚ) < num := by exact_mod_cast hnum
  have hd : (0 : ℚ) < den := by exact_mod_cast hden
  have hpos : (0 : ℚ) < num / den := by positivity
  -- the logarithms of numerator and denominator leave two exponents for the quotient
  have hupper : Int.log 2 (num / den : ℚ) < (Nat.log2 num : Int) - Nat.log2 den + 1 := by
    rw [← Int.lt_zpow_iff_log_lt (by decide) hpos, div_lt_iff₀ hd]
    calc (num : ℚ) < 2 ^ ((Nat.log2 num : Int) + 1) := cast_lt_log2
      _ = 2 ^ ((Nat.log2 num : Int) - Nat.log2 den + 1) * 2 ^ (Nat.log2 den : Int) := by
        rw [← zpow_add₀ (by norm_num)]
        congr 1
        omega
      _ ≤ 2 ^ ((Nat.log2 num : Int) - Nat.log2 den + 1) * den :=
        mul_le_mul_of_nonneg_left (log2_le_cast hden) (zpow_nonneg (by norm_num) _)
  have hlower : (Nat.log2 num : Int) - Nat.log2 den - 1 ≤ Int.log 2 (num / den : ℚ) := by
    rw [← Int.zpow_le_iff_le_log (by decide) hpos, le_div_iff₀ hd]
    calc (2 : ℚ) ^ ((Nat.log2 num : Int) - Nat.log2 den - 1) * den
      _ ≤ 2 ^ ((Nat.log2 num : Int) - Nat.log2 den - 1) * 2 ^ ((Nat.log2 den : Int) + 1) :=
        mul_le_mul_of_nonneg_left cast_lt_log2.le (zpow_nonneg (by norm_num) _)
      _ = 2 ^ (Nat.log2 num : Int) := by
        rw [← zpow_add₀ (by norm_num)]
        congr 1
        omega
      _ ≤ num := log2_le_cast hnum
  have hguess := Int.zpow_le_iff_le_log (b := 2) (x := (Nat.log2 num : Int) - Nat.log2 den) (by decide) hpos
  rw [log2Ratio]
  simp only [shift_le_shift_iff hden]
  split
  · have := hguess.mp (by assumption_mod_cast)
    omega
  · have := mt hguess.mpr (by assumption_mod_cast)
    omega

theorem log2Ratio_mul_left {k : Nat} (hk : 0 < k) (hnum : 0 < num) (hden : 0 < den) :
    log2Ratio (k * num) (k * den) = log2Ratio num den := by
  have hk' : (k : ℚ) ≠ 0 := by exact_mod_cast hk.ne'
  rw [log2Ratio_eq_log (Nat.mul_pos hk hnum) (Nat.mul_pos hk hden), log2Ratio_eq_log hnum hden,
    Nat.cast_mul, Nat.cast_mul, mul_div_mul_left _ _ hk']

theorem roundDiv_mul_left {k : Nat} (hk : 0 < k) : roundDiv (k * num) (k * den) = roundDiv num den := by
  have hlt : k * den < 2 * (k * (num % den)) ↔ den < 2 * (num % den) := by
    rw [Nat.mul_left_comm]
    exact Nat.mul_lt_mul_left hk
  have heq : 2 * (k * (num % den)) = k * den ↔ 2 * (num % den) = den := by
    rw [Nat.mul_left_comm]
    exact Nat.mul_right_inj hk.ne'
  simp only [roundDiv, Nat.mul_div_mul_left _ _ hk, Nat.mul_mod_mul_left, hlt, heq]

theorem roundRatio_mul_left (F : FloatFormat) {k : Nat} (hk : 0 < k) (hden : 0 < den) :
    F.roundRatio (k * num) (k * den) = F.roundRatio num den := by
  by_cases hnum : num = 0
  · rw [hnum, Nat.mul_zero]
    rfl
  · have hk0 : k * num ≠ 0 := Nat.mul_ne_zero hk.ne' hnum
    simp only [roundRatio, if_neg hnum, if_neg hk0, log2Ratio_mul_left hk (Nat.pos_of_ne_zero hnum) hden,
      Nat.shiftLeft_eq, Nat.mul_assoc, roundDiv_mul_left hk]

end

end Shading.FloatFormat

namespace Shading

namespace FloatFormat

variable {F : FloatFormat} {m n num den num' den' : Nat} {q r : Int}

/-- Rounding depends on the quotient only. -/
theorem roundRatio_congr (hden : 0 < den) (hden' : 0 < den') (h : num * den' = num' * den) :
    F.roundRatio num den = F.roundRatio num' den' := by
  rw [← roundRatio_mul_left F hden' hden, ← roundRatio_mul_left F hden hden', Nat.mul_comm den' num, h,
    Nat.mul_comm num' den, Nat.mul_comm den' den]

/-- A finite datum whose significand is as great as it may be at its exponent. -/
structure Canonical (F : FloatFormat) (m : Nat) (q : Int) : Prop where
  least : F.leastExponent ≤ q
  lt : m < 2 ^ (F.fractionBits + 1)
  normal : 2 ^ F.fractionBits ≤ m ∨ q = F.leastExponent
  finite : m + (q - F.leastExponent).toNat <<< F.fractionBits ≤ F.infinity

theorem log2Ratio_shift (hm : 0 < m) (q : Int) :
    log2Ratio (m <<< q.toNat) (1 <<< (-q).toNat) = Nat.log2 m + q := by
  have hnum : 0 < m <<< q.toNat := by
    rw [Nat.shiftLeft_eq]
    exact Nat.mul_pos hm (Nat.two_pow_pos _)
  have hden : 0 < 1 <<< (-q).toNat := by
    rw [Nat.shiftLeft_eq]
    exact Nat.mul_pos one_pos (Nat.two_pow_pos _)
  have hquotient : ((m <<< q.toNat : Nat) / (1 <<< (-q).toNat : Nat) : ℚ) = m * 2 ^ q := by
    obtain ⟨k, rfl | rfl⟩ := q.eq_nat_or_neg
    · have hneg : (-(k : Int)).toNat = 0 := by omega
      simp [hneg, Nat.shiftLeft_eq]
    · have hneg : (-(k : Int)).toNat = 0 := by omega
      simp [hneg, Nat.shiftLeft_eq, div_eq_mul_inv]
  have hcast : (0 : ℚ) < m := by exact_mod_cast hm
  have hpow : (0 : ℚ) < 2 ^ q := zpow_pos (by norm_num) q
  have hpos : (0 : ℚ) < m * 2 ^ q := mul_pos hcast hpow
  rw [log2Ratio_eq_log hnum hden, hquotient]
  apply le_antisymm
  · rw [← Int.lt_add_one_iff, ← Int.lt_zpow_iff_log_lt (by decide) hpos]
    calc (m : ℚ) * 2 ^ q < 2 ^ ((Nat.log2 m : Int) + 1) * 2 ^ q := mul_lt_mul_of_pos_right cast_lt_log2 hpow
      _ = 2 ^ ((Nat.log2 m : Int) + q + 1) := by
        rw [← zpow_add₀ (by norm_num)]
        congr 1
        omega
  · rw [← Int.zpow_le_iff_le_log (by decide) hpos]
    calc (2 : ℚ) ^ ((Nat.log2 m : Int) + q) = 2 ^ (Nat.log2 m : Int) * 2 ^ q := zpow_add₀ (by norm_num) ..
      _ ≤ m * 2 ^ q := mul_le_mul_of_nonneg_right (log2_le_cast hm) hpow.le

theorem roundDiv_shift (m : Nat) (q : Int) :
    roundDiv (m <<< q.toNat <<< (-q).toNat) (1 <<< (-q).toNat <<< q.toNat) = m := by
  have hnum : m <<< q.toNat <<< (-q).toNat = 2 ^ (q.toNat + (-q).toNat) * m := by
    rw [Nat.shiftLeft_eq, Nat.shiftLeft_eq, pow_add]
    ring
  have hden : 1 <<< (-q).toNat <<< q.toNat = 2 ^ (q.toNat + (-q).toNat) * 1 := by
    rw [Nat.shiftLeft_eq, Nat.shiftLeft_eq, pow_add]
    ring
  rw [hnum, hden, roundDiv_mul_left (by positivity)]
  simp [roundDiv, Nat.mod_one]

/-- Nothing is rounded where there is nothing to round. -/
theorem Canonical.roundRatio_eq (h : F.Canonical m q) :
    F.roundRatio (m <<< q.toNat) (1 <<< (-q).toNat) = m + (q - F.leastExponent).toNat <<< F.fractionBits := by
  by_cases hm : m = 0
  · have hq : q = F.leastExponent := by
      rcases h.normal with hle | hq
      · have : 0 < 2 ^ F.fractionBits := by positivity
        omega
      · exact hq
    simp [roundRatio, hm, hq]
  · have hpos : 0 < m := by omega
    have hnum : m <<< q.toNat ≠ 0 := by
      rw [Nat.shiftLeft_eq]
      exact (Nat.mul_pos hpos (Nat.two_pow_pos _)).ne'
    have hlog : Nat.log2 m < F.fractionBits + 1 := (Nat.log2_lt hm).mpr h.lt
    have hexponent : max ((Nat.log2 m : Int) + q - F.fractionBits) F.leastExponent = q := by
      have hleast := h.least
      rcases h.normal with hle | hq
      · have : F.fractionBits ≤ Nat.log2 m := (Nat.le_log2 hm).mpr hle
        omega
      · omega
    rw [roundRatio, if_neg hnum, log2Ratio_shift hpos, hexponent]
    show min (roundDiv _ _ + _) _ = _
    rw [roundDiv_shift]
    exact min_eq_left h.finite

/-- The same number at two exponents. -/
theorem roundRatio_shift (k : Nat) (m : Nat) (q : Int) :
    F.roundRatio ((m * 2 ^ k) <<< (q - k).toNat) (1 <<< (-(q - k)).toNat) =
      F.roundRatio (m <<< q.toNat) (1 <<< (-q).toNat) := by
  have hpos (n : Nat) : 0 < 1 <<< n := by
    rw [Nat.shiftLeft_eq]
    positivity
  refine roundRatio_congr (hpos _) (hpos _) ?_
  simp only [Nat.shiftLeft_eq, one_mul, mul_assoc, ← pow_add]
  congr 2
  omega

theorem convert_of_nan {G : FloatFormat} {a : Nat} {negative : Bool} {fraction : Nat}
    (h : F.unpack a = .nan negative fraction) :
    F.convert G a = G.withSign negative (G.infinity + (G.quietBit +
      fraction <<< (G.fractionBits - F.fractionBits) >>> (F.fractionBits - G.fractionBits) % G.quietBit)) := by
  unfold convert
  rw [h]
  rfl

theorem convert_of_infinite {G : FloatFormat} {a : Nat} {negative : Bool} (h : F.unpack a = .infinite negative) :
    F.convert G a = G.withSign negative G.infinity := by
  unfold convert
  rw [h]
  rfl

theorem convert_of_finite {G : FloatFormat} {a : Nat} {negative : Bool} (h : F.unpack a = .finite negative m q) :
    F.convert G a = G.withSign negative (G.roundRatio (m <<< q.toNat) (1 <<< (-q).toNat)) := by
  unfold convert
  rw [h]
  rfl

theorem unpack_single (b : Nat) : single.unpack b =
    if b / 2 ^ 23 % 256 = 255 then
      if b % 2 ^ 23 = 0 then .infinite (b / 2 ^ 31 % 2 == 1) else .nan (b / 2 ^ 31 % 2 == 1) (b % 2 ^ 23)
    else if b / 2 ^ 23 % 256 = 0 then .finite (b / 2 ^ 31 % 2 == 1) (b % 2 ^ 23) (-149)
    else .finite (b / 2 ^ 31 % 2 == 1) (2 ^ 23 + b % 2 ^ 23) (-149 + (b / 2 ^ 23 % 256 - 1 : Nat)) := by
  unfold unpack
  rw [show single.fractionBits = 23 from rfl, show single.exponentBits = 8 from rfl,
    show single.signBit = 2 ^ 31 from rfl, show single.leastExponent = -149 from rfl]
  simp only [Nat.shiftRight_eq_div_pow, Nat.shiftLeft_eq, one_mul]

theorem unpack_double (b : Nat) : double.unpack b =
    if b / 2 ^ 52 % 2048 = 2047 then
      if b % 2 ^ 52 = 0 then .infinite (b / 2 ^ 63 % 2 == 1) else .nan (b / 2 ^ 63 % 2 == 1) (b % 2 ^ 52)
    else if b / 2 ^ 52 % 2048 = 0 then .finite (b / 2 ^ 63 % 2 == 1) (b % 2 ^ 52) (-1074)
    else .finite (b / 2 ^ 63 % 2 == 1) (2 ^ 52 + b % 2 ^ 52) (-1074 + (b / 2 ^ 52 % 2048 - 1 : Nat)) := by
  unfold unpack
  rw [show double.fractionBits = 52 from rfl, show double.exponentBits = 11 from rfl,
    show double.signBit = 2 ^ 63 from rfl, show double.leastExponent = -1074 from rfl]
  simp only [Nat.shiftRight_eq_div_pow, Nat.shiftLeft_eq, one_mul]

theorem withSign_single (negative : Bool) (k : Nat) :
    single.withSign negative k = (if negative then 2 ^ 31 else 0) + k := by
  cases negative
  · exact (Nat.zero_add k).symm
  · rfl

theorem withSign_double (negative : Bool) (k : Nat) :
    double.withSign negative k = (if negative then 2 ^ 63 else 0) + k := by
  cases negative
  · exact (Nat.zero_add k).symm
  · rfl

theorem sign_eq (negative : Bool) {s k : Nat} (hk : k < s) :
    (((if negative = true then s else 0) + k) / s % 2 == 1) = negative := by
  have hs : 0 < s := by omega
  cases negative
  · simp [Nat.div_eq_of_lt hk]
  · simp [Nat.add_div_left k hs, Nat.div_eq_of_lt hk]

/-- A pattern is that of its datum. -/
theorem single_of_finite {b : Nat} {negative : Bool} (hb : b < 2 ^ 32) (h : single.unpack b = .finite negative m q) :
    single.Canonical m q ∧ q ≤ 104 ∧ b = single.withSign negative (m + (q + 149).toNat <<< 23) := by
  have hinfinity : single.infinity = 255 * 2 ^ 23 := rfl
  have hleast : single.leastExponent = -149 := rfl
  have hfraction : single.fractionBits = 23 := rfl
  have hsign : (if (b / 2 ^ 31 % 2 == 1) = true then 2 ^ 31 else 0) + b % 2 ^ 31 = b := by
    simp only [beq_iff_eq]
    split <;> omega
  rw [unpack_single] at h
  rw [withSign_single]
  split at h
  · split at h <;> cases h
  · split at h
    · cases h
      refine ⟨⟨le_rfl, ?_, .inr rfl, ?_⟩, by omega, ?_⟩
      · rw [hfraction]
        omega
      · rw [hinfinity, hleast, hfraction, Nat.shiftLeft_eq]
        omega
      · rw [Nat.shiftLeft_eq]
        omega
    · cases h
      refine ⟨⟨?_, ?_, .inl ?_, ?_⟩, by omega, ?_⟩
      · rw [hleast]
        omega
      · rw [hfraction]
        omega
      · rw [hfraction]
        omega
      · rw [hinfinity, hleast, hfraction, Nat.shiftLeft_eq]
        omega
      · rw [Nat.shiftLeft_eq]
        omega

/-- A normal number of the 64-bit format is read as it was written. -/
theorem double_of_normal (negative : Bool) (hm : 2 ^ 52 ≤ m ∧ m < 2 ^ 53) (hq : -1074 ≤ q ∧ q ≤ 971) :
    double.withSign negative (m + (q + 1074).toNat <<< 52) < 2 ^ 64 ∧
      double.unpack (double.withSign negative (m + (q + 1074).toNat <<< 52)) = .finite negative m q := by
  rw [withSign_double, unpack_double, Nat.shiftLeft_eq]
  obtain ⟨e, he⟩ : ∃ e : Nat, q = e - 1074 := ⟨(q + 1074).toNat, by omega⟩
  have hexponent : (q + 1074).toNat = e := by omega
  rw [hexponent]
  have hsign := sign_eq negative (s := 2 ^ 63) (k := m + e * 2 ^ 52) (by omega)
  generalize hb : (if negative = true then 2 ^ 63 else 0) + (m + e * 2 ^ 52) = b at hsign ⊢
  have hfield : b / 2 ^ 52 % 2048 = e + 1 := by split at hb <;> omega
  have hm' : 2 ^ 52 + b % 2 ^ 52 = m := by split at hb <;> omega
  have hsmall : b < 2 ^ 64 := by split at hb <;> omega
  refine ⟨hsmall, ?_⟩
  rw [hfield, hsign, hm', if_neg (by omega), if_neg (by omega)]
  congr 1
  omega

theorem double_of_zero (negative : Bool) : double.unpack (double.withSign negative 0) = .finite negative 0 (-1074) := by
  cases negative <;> rfl

theorem double_of_infinite (negative : Bool) :
    double.unpack (double.withSign negative double.infinity) = .infinite negative := by
  cases negative <;> rfl

/-- A finite number is the same number of the wider format. -/
theorem convert_convert_of_finite {b : Nat} {negative : Bool} (hb : b < 2 ^ 32)
    (h : single.unpack b = .finite negative m q) :
    single.convert double b < 2 ^ 64 ∧ double.convert single (single.convert double b) = b := by
  obtain ⟨hcanonical, hle, heq⟩ := single_of_finite hb h
  have hleast : -149 ≤ q := hcanonical.least
  have hlt : m < 2 ^ 24 := hcanonical.lt
  rw [convert_of_finite h]
  by_cases hm : m = 0
  · have hzero : double.roundRatio (m <<< q.toNat) (1 <<< (-q).toNat) = 0 := by
      rw [hm, Nat.zero_shiftLeft]
      rfl
    have hq : q = -149 := by
      rcases hcanonical.normal with hle | hq
      · rw [hm] at hle
        exact absurd hle (by decide)
      · exact hq
    rw [hm, hq] at heq
    rw [hzero, convert_of_finite (double_of_zero negative), heq]
    cases negative <;> exact ⟨by decide, rfl⟩
  · -- the number with a significand of 53 bits
    have hlog : Nat.log2 m < 24 := (Nat.log2_lt hm).mpr hlt
    have hlower := Nat.log2_self_le hm
    have hupper : m < 2 ^ (Nat.log2 m + 1) := Nat.lt_log2_self
    let k := 52 - Nat.log2 m
    have hnormal : 2 ^ 52 ≤ m * 2 ^ k ∧ m * 2 ^ k < 2 ^ 53 := by
      constructor
      · calc 2 ^ 52 = 2 ^ Nat.log2 m * 2 ^ k := by rw [← pow_add]; congr 1; omega
          _ ≤ m * 2 ^ k := Nat.mul_le_mul_right _ hlower
      · calc m * 2 ^ k < 2 ^ (Nat.log2 m + 1) * 2 ^ k := Nat.mul_lt_mul_of_pos_right hupper (Nat.two_pow_pos k)
          _ = 2 ^ 53 := by rw [← pow_add]; congr 1; omega
    have hfinite : (q - k + 1074).toNat ≤ 2044 := by omega
    have hdouble : double.Canonical (m * 2 ^ k) (q - k) := by
      refine ⟨?_, hnormal.2, .inl hnormal.1, ?_⟩
      · show -1074 ≤ q - k
        omega
      · show m * 2 ^ k + (q - k + 1074).toNat <<< 52 ≤ 2047 * 2 ^ 52
        rw [Nat.shiftLeft_eq]
        omega
    have hrounded : double.roundRatio (m <<< q.toNat) (1 <<< (-q).toNat) =
        m * 2 ^ k + (q - k + 1074).toNat <<< 52 := by
      rw [← roundRatio_shift k]
      exact hdouble.roundRatio_eq
    obtain ⟨hsmall, hunpack⟩ := double_of_normal negative (q := q - k) hnormal (by omega)
    rw [hrounded, convert_of_finite hunpack, roundRatio_shift, hcanonical.roundRatio_eq]
    exact ⟨hsmall, heq.symm⟩

theorem convert_convert_of_infinite {b : Nat} {negative : Bool} (hb : b < 2 ^ 32)
    (h : single.unpack b = .infinite negative) :
    single.convert double b < 2 ^ 64 ∧ double.convert single (single.convert double b) = b := by
  have heq : single.withSign negative single.infinity = b := by
    rw [unpack_single] at h
    rw [withSign_single, show single.infinity = 255 * 2 ^ 23 from rfl]
    split at h
    · split at h
      · cases h
        simp only [beq_iff_eq]
        split <;> omega
      · cases h
    · split at h <;> cases h
  rw [convert_of_infinite h, convert_of_infinite (double_of_infinite negative), heq]
  cases negative <;> exact ⟨by decide, rfl⟩

theorem single_of_nan (negative : Bool) {k : Nat} (hk : 0 < k ∧ k < 2 ^ 23) :
    single.unpack (single.withSign negative (single.infinity + k)) = .nan negative k := by
  rw [withSign_single, unpack_single, show single.infinity = 255 * 2 ^ 23 from rfl]
  have hsign := sign_eq negative (s := 2 ^ 31) (k := 255 * 2 ^ 23 + k) (by omega)
  generalize hb : (if negative = true then 2 ^ 31 else 0) + (255 * 2 ^ 23 + k) = b at hsign ⊢
  have hfield : b / 2 ^ 23 % 256 = 255 := by split at hb <;> omega
  have hfraction : b % 2 ^ 23 = k := by split at hb <;> omega
  rw [hfield, hsign, hfraction, if_pos rfl, if_neg (by omega)]

theorem double_of_nan (negative : Bool) {k : Nat} (hk : 0 < k ∧ k < 2 ^ 52) :
    double.withSign negative (double.infinity + k) < 2 ^ 64 ∧
      double.unpack (double.withSign negative (double.infinity + k)) = .nan negative k := by
  rw [withSign_double, unpack_double, show double.infinity = 2047 * 2 ^ 52 from rfl]
  have hsign := sign_eq negative (s := 2 ^ 63) (k := 2047 * 2 ^ 52 + k) (by omega)
  generalize hb : (if negative = true then 2 ^ 63 else 0) + (2047 * 2 ^ 52 + k) = b at hsign ⊢
  have hfield : b / 2 ^ 52 % 2048 = 2047 := by split at hb <;> omega
  have hfraction : b % 2 ^ 52 = k := by split at hb <;> omega
  have hsmall : b < 2 ^ 64 := by split at hb <;> omega
  refine ⟨hsmall, ?_⟩
  rw [hfield, hsign, hfraction, if_pos rfl, if_neg (by omega)]

/-- A NaN becomes quiet, and keeps the rest of its fraction. -/
theorem convert_convert_of_nan {b k : Nat} {negative : Bool} (h : single.unpack b = .nan negative k) :
    single.convert double b < 2 ^ 64 ∧
      double.convert single (single.convert double b) =
        single.withSign negative (single.infinity + (2 ^ 22 + k % 2 ^ 22)) := by
  have hwide : single.convert double b = double.withSign negative (double.infinity + (2 ^ 51 + k * 2 ^ 29 % 2 ^ 51)) := by
    rw [convert_of_nan h, show double.quietBit = 2 ^ 51 from rfl,
      show double.fractionBits - single.fractionBits = 29 from rfl,
      show single.fractionBits - double.fractionBits = 0 from rfl, Nat.shiftLeft_eq, Nat.shiftRight_zero]
  obtain ⟨hsmall, hunpack⟩ := double_of_nan negative (k := 2 ^ 51 + k * 2 ^ 29 % 2 ^ 51) (by omega)
  rw [hwide]
  refine ⟨hsmall, ?_⟩
  have hkept : (2 ^ 51 + k * 2 ^ 29 % 2 ^ 51) / 2 ^ 29 % 2 ^ 22 = k % 2 ^ 22 := by omega
  rw [convert_of_nan hunpack, show single.quietBit = 2 ^ 22 from rfl,
    show single.fractionBits - double.fractionBits = 0 from rfl,
    show double.fractionBits - single.fractionBits = 29 from rfl, Nat.shiftLeft_zero, Nat.shiftRight_eq_div_pow, hkept]

end FloatFormat

namespace Single

theorem toSingle_toDouble_of_lt {x : Single} (h : FloatFormat.single.convert .double x.toNat < 2 ^ 64) :
    x.toDouble.toSingle = ofNat (FloatFormat.double.convert .single (FloatFormat.single.convert .double x.toNat)) := by
  unfold toDouble Double.toSingle Double.toNat
  rw [Nat.toUInt64, UInt64.toNat_ofNat_of_lt' h]
  rfl

theorem ofNat_toNat (x : Single) : ofNat x.toNat = x := congrArg mk UInt32.ofNat_toNat

/-- What is no NaN is not changed. -/
theorem toSingle_toDouble {x : Single} (h : x.isNan = false) : x.toDouble.toSingle = x := by
  have hx : x.toNat < 2 ^ 32 := x.bits.toNat_lt
  cases hdatum : FloatFormat.single.unpack x.toNat with
  | nan negative k =>
    rw [isNan, datum, hdatum] at h
    cases h
  | infinite negative =>
    obtain ⟨hsmall, hsame⟩ := FloatFormat.convert_convert_of_infinite hx hdatum
    rw [toSingle_toDouble_of_lt hsmall, hsame, ofNat_toNat]
  | finite negative m q =>
    obtain ⟨hsmall, hsame⟩ := FloatFormat.convert_convert_of_finite hx hdatum
    rw [toSingle_toDouble_of_lt hsmall, hsame, ofNat_toNat]

/-- A number that was made wider and narrower is not changed by that again. -/
theorem toSingle_toDouble_toSingle (x : Single) : x.toDouble.toSingle.toDouble.toSingle = x.toDouble.toSingle := by
  cases hnan : x.isNan with
  | false => rw [toSingle_toDouble hnan, toSingle_toDouble hnan]
  | true =>
    cases hdatum : FloatFormat.single.unpack x.toNat with
    | nan negative k =>
      obtain ⟨hsmall, hquiet⟩ := FloatFormat.convert_convert_of_nan hdatum
      rw [toSingle_toDouble_of_lt hsmall, hquiet]
      -- the NaN is quiet now
      have hunpack := FloatFormat.single_of_nan negative (k := 2 ^ 22 + k % 2 ^ 22) (by omega)
      have hbits : FloatFormat.single.withSign negative (FloatFormat.single.infinity + (2 ^ 22 + k % 2 ^ 22)) < 2 ^ 32 := by
        rw [FloatFormat.withSign_single, show FloatFormat.single.infinity = 255 * 2 ^ 23 from rfl]
        split <;> omega
      generalize hb : FloatFormat.single.withSign negative (FloatFormat.single.infinity + (2 ^ 22 + k % 2 ^ 22)) = b
        at hunpack hbits
      obtain ⟨hsmall', hquiet'⟩ := FloatFormat.convert_convert_of_nan hunpack
      have hagain : (2 ^ 22 + k % 2 ^ 22) % 2 ^ 22 = k % 2 ^ 22 := by omega
      have hnat : (ofNat b).toNat = b := UInt32.toNat_ofNat_of_lt' hbits
      rw [hagain, hb] at hquiet'
      rw [← hnat] at hsmall' hquiet'
      rw [toSingle_toDouble_of_lt hsmall', hquiet', hnat]
    | infinite | finite =>
      rw [isNan, datum, hdatum] at hnan
      cases hnan

end Single

end Shading
