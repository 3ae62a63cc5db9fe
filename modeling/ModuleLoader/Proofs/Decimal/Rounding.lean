import Mathlib.Algebra.Order.Field.Power
import Mathlib.Data.Rat.Cast.Order
import Mathlib.Tactic.FieldSimp
import Mathlib.Tactic.Linarith
import Mathlib.Tactic.NormNum
import Mathlib.Tactic.Positivity
import Mathlib.Tactic.Ring
import ModuleLoader.Decimal.Shortest

/-! Rounding to doubles. A ratio that lies between the halves of the ways to a double's neighbours
is rounded to that double, and an end of this interval is, if the double's significand is even. -/

namespace ModuleLoader.Binary64

/-! ## Ratios -/

theorem zpow_eq_div (b : ℚ) (k : ℤ) : b ^ k = b ^ k.toNat / b ^ (-k).toNat := by
  obtain ⟨n, rfl | rfl⟩ := k.eq_nat_or_neg
  · simp
  · simp

theorem scaled_pos {num den : Nat} (hd : 0 < den) (q : Int) : 0 < (scaled num den q).2 := by
  unfold scaled
  split
  · exact Nat.mul_pos hd (Nat.pow_pos (by decide))
  · exact hd

theorem scaled_value {num den : Nat} (hd : 0 < den) (q : Int) :
    ((scaled num den q).1 : ℚ) / (scaled num den q).2 = (num : ℚ) / den / 2 ^ q := by
  have hd' : (den : ℚ) ≠ 0 := by positivity
  rw [zpow_eq_div 2 q]
  unfold scaled
  split
  · next h =>
    have hn : (-q).toNat = 0 := by omega
    simp only [Nat.pow_eq, Nat.cast_mul, Nat.cast_pow, Nat.cast_ofNat, hn, pow_zero, div_one]
    rw [div_div]
  · next h =>
    have hn : q.toNat = 0 := by omega
    simp only [Nat.pow_eq, Nat.cast_mul, Nat.cast_pow, Nat.cast_ofNat, hn, pow_zero]
    field_simp

theorem binaryOrder_spec {num den : Nat} (hn : 0 < num) (hd : 0 < den) :
    (2 : ℚ) ^ binaryOrder num den ≤ (num : ℚ) / den ∧
      (num : ℚ) / den < 2 ^ (binaryOrder num den + 1) := by
  have hlow : (2 : ℚ) ^ (Nat.log2 num : ℤ) ≤ num := by
    exact_mod_cast Nat.log2_self_le hn.ne'
  have hhigh : (num : ℚ) < 2 ^ ((Nat.log2 num : ℤ) + 1) := by
    exact_mod_cast Nat.lt_log2_self (n := num)
  have hlow' : (2 : ℚ) ^ (Nat.log2 den : ℤ) ≤ den := by
    exact_mod_cast Nat.log2_self_le hd.ne'
  have hhigh' : (den : ℚ) < 2 ^ ((Nat.log2 den : ℤ) + 1) := by
    exact_mod_cast Nat.lt_log2_self (n := den)
  have hden : (0 : ℚ) < den := by exact_mod_cast hd
  let guess : Int := (Nat.log2 num : Int) - Nat.log2 den
  have habove : (num : ℚ) / den < 2 ^ (guess + 1) := by
    have he : (2 : ℚ) ^ (guess + 1) * 2 ^ (Nat.log2 den : ℤ) = 2 ^ ((Nat.log2 num : ℤ) + 1) := by
      rw [← zpow_add₀ (by norm_num)]
      congr 1
      omega
    rw [div_lt_iff₀ hden]
    calc (num : ℚ) < 2 ^ (guess + 1) * 2 ^ (Nat.log2 den : ℤ) := he ▸ hhigh
      _ ≤ 2 ^ (guess + 1) * den := by gcongr
  have hbelow : (2 : ℚ) ^ (guess - 1) ≤ (num : ℚ) / den := by
    have he : (2 : ℚ) ^ (guess - 1) * 2 ^ ((Nat.log2 den : ℤ) + 1) = 2 ^ (Nat.log2 num : ℤ) := by
      rw [← zpow_add₀ (by norm_num)]
      congr 1
      omega
    rw [le_div_iff₀ hden]
    calc (2 : ℚ) ^ (guess - 1) * den ≤ 2 ^ (guess - 1) * 2 ^ ((Nat.log2 den : ℤ) + 1) := by gcongr
      _ = 2 ^ (Nat.log2 num : ℤ) := he
      _ ≤ num := hlow
  have hvalue : ((scaled num den guess).1 : ℚ) / (scaled num den guess).2 =
      (num : ℚ) / den / 2 ^ guess :=
    scaled_value hd guess
  have hpos : (0 : ℚ) < (scaled num den guess).2 := by exact_mod_cast scaled_pos hd guess
  have hcompare : (scaled num den guess).2 ≤ (scaled num den guess).1 ↔
      (2 : ℚ) ^ guess ≤ (num : ℚ) / den := by
    rw [← one_le_div₀ (by positivity : (0 : ℚ) < 2 ^ guess), ← hvalue, one_le_div₀ hpos,
      Nat.cast_le]
  have horder : binaryOrder num den =
      if (scaled num den guess).2 ≤ (scaled num den guess).1 then guess else guess - 1 := rfl
  rw [horder]
  split
  · next h => exact ⟨hcompare.mp h, habove⟩
  · next h =>
    refine ⟨hbelow, ?_⟩
    rw [sub_add_cancel]
    exact lt_of_not_ge fun hc => h (hcompare.mpr hc)

theorem binaryOrder_eq {num den : Nat} (hn : 0 < num) (hd : 0 < den) {e : ℤ}
    (hlow : (2 : ℚ) ^ e ≤ (num : ℚ) / den) (hhigh : (num : ℚ) / den < 2 ^ (e + 1)) :
    binaryOrder num den = e := by
  obtain ⟨hl, hh⟩ := binaryOrder_spec hn hd
  have h₁ : e < binaryOrder num den + 1 :=
    (zpow_lt_zpow_iff_right₀ (by norm_num : (1 : ℚ) < 2)).mp (hlow.trans_lt hh)
  have h₂ : binaryOrder num den < e + 1 :=
    (zpow_lt_zpow_iff_right₀ (by norm_num : (1 : ℚ) < 2)).mp (hl.trans_lt hhigh)
  omega

theorem roundHalfEven_eq {num den m : Nat} (hd : 0 < den) (hlow : 2 * (m * den) ≤ 2 * num + den)
    (hhigh : 2 * num ≤ 2 * (m * den) + den)
    (heven : 2 * (m * den) = 2 * num + den ∨ 2 * num = 2 * (m * den) + den → m % 2 = 0) :
    roundHalfEven num den = m := by
  have hdiv : num / den * den + num % den = num := by
    rw [Nat.mul_comm]
    exact Nat.div_add_mod num den
  have hmod : num % den < den := Nat.mod_lt num hd
  have hcases : m = num / den ∨ m = num / den + 1 := by
    have h₁ : num / den < m + 1 := by
      by_contra hc
      have := Nat.mul_le_mul_right den (Nat.le_of_not_lt hc)
      rw [Nat.add_mul, Nat.one_mul] at this
      omega
    have h₂ : m < num / den + 2 := by
      by_contra hc
      have := Nat.mul_le_mul_right den (Nat.le_of_not_lt hc)
      rw [Nat.add_mul] at this
      omega
    omega
  unfold roundHalfEven
  dsimp only
  rcases hcases with h | h
  · rw [h] at hlow hhigh heven ⊢
    split
    · rfl
    · split <;> omega
  · rw [h, Nat.add_mul, Nat.one_mul] at hlow hhigh heven
    rw [h]
    split
    · omega
    · split <;> omega

theorem roundHalfEven_of_value {num den m : Nat} (hd : 0 < den)
    (hlow : (m : ℚ) - 1 / 2 ≤ (num : ℚ) / den) (hhigh : (num : ℚ) / den ≤ m + 1 / 2)
    (heven : (num : ℚ) / den = m - 1 / 2 ∨ (num : ℚ) / den = m + 1 / 2 → m % 2 = 0) :
    roundHalfEven num den = m := by
  have hden : (0 : ℚ) < den := by exact_mod_cast hd
  refine roundHalfEven_eq hd ?_ ?_ fun h => heven ?_
  · rw [le_div_iff₀ hden] at hlow
    have : (2 * (m * den) : ℚ) ≤ 2 * num + den := by linarith
    exact_mod_cast this
  · rw [div_le_iff₀ hden] at hhigh
    have : (2 * num : ℚ) ≤ 2 * (m * den) + den := by linarith
    exact_mod_cast this
  · rw [div_eq_iff hden.ne', div_eq_iff hden.ne']
    refine h.imp (fun h => ?_) fun h => ?_
    · have : (2 * (m * den) : ℚ) = 2 * num + den := by exact_mod_cast h
      linarith
    · have : (2 * num : ℚ) = 2 * (m * den) + den := by exact_mod_cast h
      linarith

theorem roundRatio_eq {num den m : Nat} {q : Int} (hn : 0 < num) (hd : 0 < den)
    (hq : max (binaryOrder num den - 52) (-1074) = q)
    (hlow : (m : ℚ) - 1 / 2 ≤ (num : ℚ) / den / 2 ^ q)
    (hhigh : (num : ℚ) / den / 2 ^ q ≤ m + 1 / 2)
    (heven : (num : ℚ) / den / 2 ^ q = m - 1 / 2 ∨ (num : ℚ) / den / 2 ^ q = m + 1 / 2 →
      m % 2 = 0) :
    roundRatio num den = min ((q + 1074).toNat * exponentUnit + m) infinityBits := by
  rw [← scaled_value hd] at hlow hhigh heven
  have hm := roundHalfEven_of_value (scaled_pos hd q) hlow hhigh heven
  subst hq
  unfold roundRatio
  rw [if_neg hn.ne']
  dsimp only
  rw [hm]

/-! ## The fields of a double -/

variable {x : Binary64}

theorem exponent_ge (x : Binary64) : -1074 ≤ x.exponent := by
  unfold exponent exponentUnit
  split <;> omega

theorem exponent_le (hf : x.isFinite = true) : x.exponent ≤ 971 := by
  simp only [isFinite, decide_eq_true_eq] at hf
  unfold infinityBits exponentUnit at hf
  unfold exponent exponentUnit
  split <;> omega

theorem significand_lt (x : Binary64) : x.significand < 2 * exponentUnit := by
  unfold significand exponentUnit
  split <;> omega

theorem significand_pos (hz : x.isZero = false) : 0 < x.significand := by
  simp only [isZero, beq_eq_false_iff_ne] at hz
  unfold significand exponentUnit
  split <;> omega

/-- Only at the least exponent is the leading bit of a significand clear. -/
theorem exponent_eq_or (x : Binary64) : x.exponent = -1074 ∨ exponentUnit ≤ x.significand := by
  unfold exponent significand
  split
  · exact .inl rfl
  · exact .inr (Nat.le_add_right _ _)

theorem magnitude_eq (x : Binary64) :
    x.magnitude = (x.exponent + 1074).toNat * exponentUnit + x.significand := by
  unfold exponent significand exponentUnit
  split <;> omega

theorem ofMagnitude_magnitude (x : Binary64) : ofMagnitude x.isNegative x.magnitude = x := by
  have hlt : x.bits.toNat < 2 ^ 64 := x.bits.toNat_lt
  have hbits : (if x.isNegative = true then signUnit else 0) + x.magnitude = x.bits.toNat := by
    simp only [isNegative, decide_eq_true_eq]
    unfold magnitude signUnit
    split <;> omega
  rw [ofMagnitude, hbits, UInt64.ofNat_toNat]

/-! ## The rounding interval -/

/-- The lower end of a double's rounding interval, in quarters of the last place. The neighbour
below a power of two is half as far away as the one above. -/
def lowQuarters (x : Binary64) : Nat :=
  4 * x.significand - (if x.significand = exponentUnit && -1074 < x.exponent then 1 else 2)

/-- Whether a number lies between the halves of the ways from a double to its neighbours. -/
structure Rounds (x : Binary64) (v : ℚ) : Prop where
  low : (x.lowQuarters : ℚ) * 2 ^ (x.exponent - 2) ≤ v
  high : v ≤ (4 * x.significand + 2 : ℕ) * 2 ^ (x.exponent - 2)
  ends : v = x.lowQuarters * 2 ^ (x.exponent - 2) ∨
    v = (4 * x.significand + 2 : ℕ) * 2 ^ (x.exponent - 2) → x.significand % 2 = 0

theorem two_le_lowQuarters (hz : x.isZero = false) : 2 ≤ x.lowQuarters := by
  have hpos := significand_pos hz
  unfold lowQuarters
  split <;> omega

theorem le_lowQuarters (x : Binary64) : 4 * x.significand ≤ x.lowQuarters + 2 := by
  unfold lowQuarters
  split <;> omega

theorem quarter_mul (x : Binary64) (n : ℚ) :
    n * 2 ^ (x.exponent - 2) = n / 4 * 2 ^ x.exponent := by
  rw [zpow_sub₀ (by norm_num)]
  norm_num
  ring

theorem high_mul (x : Binary64) :
    ((4 * x.significand + 2 : ℕ) : ℚ) * 2 ^ (x.exponent - 2) =
      (x.significand + 1 / 2) * 2 ^ x.exponent := by
  rw [quarter_mul]
  push_cast
  ring

theorem Rounds.pos {v : ℚ} (h : x.Rounds v) (hz : x.isZero = false) : 0 < v := by
  have hlow : (0 : ℚ) < x.lowQuarters := by
    exact_mod_cast lt_of_lt_of_le (by norm_num) (two_le_lowQuarters hz)
  have hend : (0 : ℚ) < x.lowQuarters * 2 ^ (x.exponent - 2) := by positivity
  exact hend.trans_le h.low

/-- The interval in units of the last place. -/
theorem Rounds.in_place {v : ℚ} (h : x.Rounds v) :
    (x.lowQuarters : ℚ) / 4 ≤ v / 2 ^ x.exponent ∧
      v / 2 ^ x.exponent ≤ x.significand + 1 / 2 ∧
      (v / 2 ^ x.exponent = x.lowQuarters / 4 ∨ v / 2 ^ x.exponent = x.significand + 1 / 2 →
        x.significand % 2 = 0) := by
  have hunit : (0 : ℚ) < 2 ^ x.exponent := by positivity
  have hlow := h.low
  have hhigh := h.high
  have hends := h.ends
  rw [quarter_mul] at hlow
  rw [high_mul] at hhigh
  rw [quarter_mul, high_mul] at hends
  exact ⟨(le_div_iff₀ hunit).mpr hlow, (div_le_iff₀ hunit).mpr hhigh,
    fun he => hends (he.imp (div_eq_iff hunit.ne').mp (div_eq_iff hunit.ne').mp)⟩

theorem lowQuarters_ge (x : Binary64) : (x.significand : ℚ) - 1 / 2 ≤ x.lowQuarters / 4 := by
  have h : (4 * x.significand : ℚ) ≤ x.lowQuarters + 2 := by exact_mod_cast x.le_lowQuarters
  linarith

theorem scale_add (x : Binary64) (k : ℤ) : (2 : ℚ) ^ (k + x.exponent) = 2 ^ k * 2 ^ x.exponent :=
  zpow_add₀ (by norm_num) k x.exponent

theorem Rounds.lt_top {v : ℚ} (h : x.Rounds v) : v < 2 ^ (53 + x.exponent) := by
  have hunit : (0 : ℚ) < 2 ^ x.exponent := by positivity
  have hm : (x.significand : ℚ) + 1 ≤ 2 ^ (53 : ℤ) := by
    exact_mod_cast Nat.succ_le_of_lt x.significand_lt
  rw [scale_add, ← div_lt_iff₀ hunit]
  linarith [h.in_place.2.1]

/-- The interval reaches below the power of two only where the double is that power. -/
theorem Rounds.significand_eq {v : ℚ} (h : x.Rounds v) (he : x.exponent ≠ -1074)
    (hv : v < 2 ^ (52 + x.exponent)) : x.significand = exponentUnit := by
  have hunit : (0 : ℚ) < 2 ^ x.exponent := by positivity
  have h₁ : exponentUnit ≤ x.significand := x.exponent_eq_or.resolve_left he
  have h₂ : (x.significand : ℚ) < (exponentUnit + 1 : ℕ) := by
    rw [scale_add, ← div_lt_iff₀ hunit] at hv
    have hone : ((exponentUnit + 1 : ℕ) : ℚ) = 2 ^ (52 : ℤ) + 1 := by norm_num [exponentUnit]
    linarith [h.in_place.1, x.lowQuarters_ge]
  have h₃ : x.significand < exponentUnit + 1 := by exact_mod_cast h₂
  omega

theorem min_magnitude (hf : x.isFinite = true) : min x.magnitude infinityBits = x.magnitude := by
  simp only [isFinite, decide_eq_true_eq] at hf
  exact min_eq_left hf.le

/-- Just below a power of two the last place is half as wide, and what is there of the interval
rounds up to the power. -/
theorem roundRatio_of_below (hf : x.isFinite = true) {num den : Nat} (hn : 0 < num) (hd : 0 < den)
    (h : x.Rounds ((num : ℚ) / den)) (he : x.exponent ≠ -1074)
    (hv : (num : ℚ) / den < 2 ^ (52 + x.exponent)) : roundRatio num den = x.magnitude := by
  have hexp : -1074 < x.exponent := lt_of_le_of_ne x.exponent_ge he.symm
  have hunit : (0 : ℚ) < 2 ^ x.exponent := by positivity
  have hm := h.significand_eq he hv
  have hquarters : (x.lowQuarters : ℚ) = 4 * 2 ^ (52 : ℤ) - 1 := by
    have hl : x.lowQuarters = 4 * exponentUnit - 1 := by simp [lowQuarters, hm, hexp]
    rw [hl]
    norm_num [exponentUnit]
  have hhalf : (num : ℚ) / den / 2 ^ (x.exponent - 1) = 2 * ((num : ℚ) / den / 2 ^ x.exponent) := by
    rw [zpow_sub₀ (by norm_num)]
    field_simp
  have hwhole : ((2 * exponentUnit : ℕ) : ℚ) = 2 * 2 ^ (52 : ℤ) := by norm_num [exponentUnit]
  have hlow := h.in_place.1
  rw [hquarters] at hlow
  have hq : max (binaryOrder num den - 52) (-1074) = x.exponent - 1 := by
    have hfrom : (2 : ℚ) ^ (51 + x.exponent) ≤ (num : ℚ) / den := by
      rw [scale_add, ← le_div_iff₀ hunit]
      norm_num at hlow ⊢
      linarith
    have horder := binaryOrder_eq hn hd hfrom
      (by rwa [show 51 + x.exponent + 1 = 52 + x.exponent by ring])
    omega
  have hplace : (num : ℚ) / den / 2 ^ x.exponent < 2 ^ (52 : ℤ) := by
    rwa [scale_add, ← div_lt_iff₀ hunit] at hv
  have hround := roundRatio_eq (m := 2 * exponentUnit) hn hd hq
    (by rw [hhalf, hwhole]; linarith) (by rw [hhalf, hwhole]; linarith) (fun _ => by simp)
  have hsum : (x.exponent - 1 + 1074).toNat * exponentUnit + 2 * exponentUnit = x.magnitude := by
    rw [magnitude_eq, hm]
    unfold exponentUnit
    omega
  rw [hround, hsum, min_magnitude hf]

theorem roundRatio_of_rounds (hf : x.isFinite = true) {num den : Nat} (hn : 0 < num) (hd : 0 < den)
    (h : x.Rounds ((num : ℚ) / den)) : roundRatio num den = x.magnitude := by
  obtain ⟨hlow, hhigh, hends⟩ := h.in_place
  have hexp := x.exponent_ge
  have htop := h.lt_top
  have hle : binaryOrder num den < 53 + x.exponent :=
    (zpow_lt_zpow_iff_right₀ (by norm_num : (1 : ℚ) < 2)).mp
      ((binaryOrder_spec hn hd).1.trans_lt htop)
  by_cases hplace : x.exponent = -1074 ∨ (2 : ℚ) ^ (52 + x.exponent) ≤ (num : ℚ) / den
  · have hq : max (binaryOrder num den - 52) (-1074) = x.exponent := by
      rcases hplace with he | he
      · omega
      · rw [show 53 + x.exponent = 52 + x.exponent + 1 by ring] at htop
        have horder := binaryOrder_eq hn hd he htop
        omega
    rw [roundRatio_eq hn hd hq (x.lowQuarters_ge.trans hlow) hhigh, ← magnitude_eq,
      min_magnitude hf]
    rintro (he | he)
    · exact hends (.inl (le_antisymm (he.le.trans x.lowQuarters_ge) hlow))
    · exact hends (.inr he)
  · obtain ⟨he, hv⟩ := not_or.mp hplace
    exact roundRatio_of_below hf hn hd h he (lt_of_not_ge hv)

/-! ## Decimals -/

theorem one_le_decimalLength (n : Nat) : 1 ≤ decimalLength n :=
  Nat.length_toDigits_pos

theorem decimalLength_spec {n : Nat} (hn : 0 < n) :
    10 ^ (decimalLength n - 1) ≤ n ∧ n < 10 ^ decimalLength n := by
  have hpos := one_le_decimalLength n
  refine ⟨?_, (Nat.length_toDigits_le_iff (by decide) hpos).mp le_rfl⟩
  rcases Nat.eq_zero_or_pos (decimalLength n - 1) with h | h
  · rwa [h]
  · refine le_of_not_gt fun hc => ?_
    have hle : decimalLength n ≤ decimalLength n - 1 :=
      (Nat.length_toDigits_le_iff (by decide) h).mpr hc
    omega

theorem decimal_order {digits : Nat} (hd : 0 < digits) (exp : ℤ) :
    (10 : ℚ) ^ (exp + decimalLength digits - 1) ≤ digits * 10 ^ exp ∧
      (digits : ℚ) * 10 ^ exp < 10 ^ (exp + decimalLength digits) := by
  obtain ⟨hlow, hhigh⟩ := decimalLength_spec hd
  have hpos := one_le_decimalLength digits
  have hlow' : (10 : ℚ) ^ ((decimalLength digits : ℤ) - 1) ≤ digits := by
    rw [← Nat.cast_one, ← Nat.cast_sub hpos]
    exact_mod_cast hlow
  have hhigh' : (digits : ℚ) < 10 ^ (decimalLength digits : ℤ) := by exact_mod_cast hhigh
  rw [add_sub_assoc, add_comm, zpow_add₀ (by norm_num), add_comm, zpow_add₀ (by norm_num)]
  exact ⟨by gcongr, by gcongr⟩

/-- The doubles span fewer powers of ten than the bounds past which decimals are not looked at. -/
theorem Rounds.decimal_bounds {v : ℚ} (h : x.Rounds v) (hf : x.isFinite = true)
    (hz : x.isZero = false) : (10 : ℚ) ^ (-331 : ℤ) ≤ v ∧ v < 10 ^ (310 : ℤ) := by
  constructor
  · have hquarters : (2 : ℚ) ≤ x.lowQuarters := by exact_mod_cast two_le_lowQuarters hz
    have hplace : (2 : ℚ) ^ (-1076 : ℤ) ≤ 2 ^ (x.exponent - 2) := by
      have hexp := x.exponent_ge
      exact zpow_le_zpow_right₀ (by norm_num) (by omega)
    have htens : (2 : ℚ) ^ (1075 : ℤ) ≤ 10 ^ (331 : ℤ) := by
      exact_mod_cast (by decide +kernel : 2 ^ 1075 ≤ 10 ^ 331)
    calc (10 : ℚ) ^ (-331 : ℤ) = (10 ^ (331 : ℤ))⁻¹ := zpow_neg 10 331
      _ ≤ (2 ^ (1075 : ℤ))⁻¹ := inv_anti₀ (by positivity) htens
      _ = 2 * 2 ^ (-1076 : ℤ) := by
        rw [← zpow_neg, ← zpow_one_add₀ (by norm_num)]
        rfl
      _ ≤ x.lowQuarters * 2 ^ (x.exponent - 2) := by gcongr
      _ ≤ v := h.low
  · have hexp := exponent_le hf
    have htens : (2 : ℚ) ^ (1024 : ℤ) ≤ 10 ^ (310 : ℤ) := by
      exact_mod_cast (by decide +kernel : 2 ^ 1024 ≤ 10 ^ 310)
    calc v < 2 ^ (53 + x.exponent) := h.lt_top
      _ ≤ 2 ^ (1024 : ℤ) := zpow_le_zpow_right₀ (by norm_num) (by omega)
      _ ≤ 10 ^ (310 : ℤ) := htens

/-- A decimal in the rounding interval of a double is read as the double. -/
theorem ofDecimal_of_rounds (hf : x.isFinite = true) (hz : x.isZero = false) {digits : Nat}
    {exp : ℤ} (h : x.Rounds (digits * 10 ^ exp)) : ofDecimal x.isNegative digits exp = x := by
  have hpos := h.pos hz
  have hdigits : 0 < digits := by
    rcases Nat.eq_zero_or_pos digits with rfl | hd
    · simp at hpos
    · exact hd
  obtain ⟨hlow, hhigh⟩ := h.decimal_bounds hf hz
  obtain ⟨hfloor, hceil⟩ := decimal_order hdigits exp
  have hten : (1 : ℚ) < 10 := by norm_num
  have habove := (zpow_lt_zpow_iff_right₀ hten).mp (hfloor.trans_lt hhigh)
  have hbelow := (zpow_lt_zpow_iff_right₀ hten).mp (hlow.trans_lt hceil)
  rw [ofDecimal, if_neg hdigits.ne', if_neg (by omega), if_neg (by omega)]
  have hratio : (if 0 ≤ exp then roundRatio (digits * Nat.pow 10 exp.toNat) 1
      else roundRatio digits (Nat.pow 10 (-exp).toNat)) = x.magnitude := by
    rw [zpow_eq_div, mul_div_assoc'] at h
    split
    · next he =>
      have hn : (-exp).toNat = 0 := by omega
      refine roundRatio_of_rounds hf (Nat.mul_pos hdigits (Nat.pow_pos (by decide))) one_pos ?_
      simpa [hn] using h
    · next he =>
      have hn : exp.toNat = 0 := by omega
      refine roundRatio_of_rounds hf hdigits (Nat.pow_pos (by decide)) ?_
      simpa [hn] using h
  rw [hratio, ofMagnitude_magnitude]

end ModuleLoader.Binary64
