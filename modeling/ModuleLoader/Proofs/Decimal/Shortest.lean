import Mathlib.Data.Nat.Cast.Order.Field
import ModuleLoader.Proofs.Decimal.Rounding

/-! Shortest decimals. The search for the shortest decimal of a double ends at one that rounds to
the double: with seventeen digits the grid is finer than the last place of any double. -/

namespace ModuleLoader.Binary64

variable {x : Binary64}

/-! ## Grids -/

/-- The factors stand for the steps of the two grids, in one unit. -/
theorem exists_gridFactors_eq (k q : Int) : ∃ t : ℚ, 0 < t ∧
    ((gridFactors k q).1 : ℚ) = 10 ^ k * t ∧ ((gridFactors k q).2 : ℚ) = 2 ^ q * t := by
  refine ⟨2 ^ (-q).toNat * 10 ^ (-k).toNat, by positivity, ?_, ?_⟩
  · rw [zpow_eq_div 10 k]
    simp only [gridFactors, Nat.pow_eq, Nat.cast_mul, Nat.cast_pow, Nat.cast_ofNat]
    field_simp
  · rw [zpow_eq_div 2 q]
    simp only [gridFactors, Nat.pow_eq, Nat.cast_mul, Nat.cast_pow, Nat.cast_ofNat]
    field_simp

theorem gridFactors_le_iff {k q : Int} {n c : Nat} :
    n * (gridFactors k q).2 ≤ c * (gridFactors k q).1 ↔ (n : ℚ) * 2 ^ q ≤ c * 10 ^ k := by
  obtain ⟨t, ht, ha, hb⟩ := exists_gridFactors_eq k q
  rw [← @Nat.cast_le ℚ, Nat.cast_mul, Nat.cast_mul, ha, hb, ← mul_assoc, ← mul_assoc,
    mul_le_mul_iff_left₀ ht]

theorem gridFactors_ge_iff {k q : Int} {n c : Nat} :
    c * (gridFactors k q).1 ≤ n * (gridFactors k q).2 ↔ (c : ℚ) * 10 ^ k ≤ n * 2 ^ q := by
  obtain ⟨t, ht, ha, hb⟩ := exists_gridFactors_eq k q
  rw [← @Nat.cast_le ℚ, Nat.cast_mul, Nat.cast_mul, ha, hb, ← mul_assoc, ← mul_assoc,
    mul_le_mul_iff_left₀ ht]

/-- Whether a point of a grid rounds to the double, in whole numbers. -/
def roundsOnGrid (x : Binary64) (k : Int) (c : Nat) : Bool :=
  let (a, b) := gridFactors k (x.exponent - 2)
  let high := 4 * x.significand + 2
  if x.significand % 2 = 0 then x.lowQuarters * b ≤ c * a && c * a ≤ high * b
  else x.lowQuarters * b < c * a && c * a < high * b

theorem roundsOnGrid_iff {k : Int} {c : Nat} :
    x.roundsOnGrid k c = true ↔ x.Rounds (c * 10 ^ k) := by
  unfold roundsOnGrid
  dsimp only
  split
  · next he =>
    simp only [Bool.and_eq_true, decide_eq_true_eq, gridFactors_le_iff, gridFactors_ge_iff]
    exact ⟨fun ⟨hl, hh⟩ => ⟨hl, hh, fun _ => he⟩, fun h => ⟨h.low, h.high⟩⟩
  · next ho =>
    simp only [Bool.and_eq_true, decide_eq_true_eq, ← not_le, gridFactors_le_iff,
      gridFactors_ge_iff]
    simp only [not_le]
    refine ⟨fun ⟨hl, hh⟩ => ⟨hl.le, hh.le, ?_⟩, fun h => ⟨?_, ?_⟩⟩
    · rintro (he | he)
      · exact absurd he hl.ne'
      · exact absurd he hh.ne
    · exact lt_of_le_of_ne h.low fun he => ho (h.ends (.inl he.symm))
    · exact lt_of_le_of_ne h.high fun he => ho (h.ends (.inr he))

/-- The number of grid steps below a double. -/
def gridBelow (x : Binary64) (k : Int) : Nat :=
  4 * x.significand * (gridFactors k (x.exponent - 2)).2 / (gridFactors k (x.exponent - 2)).1

theorem gridBelow_spec (x : Binary64) (k : Int) :
    (x.gridBelow k : ℚ) * 10 ^ k ≤ x.significand * 2 ^ x.exponent ∧
      (x.significand : ℚ) * 2 ^ x.exponent < (x.gridBelow k + 1) * 10 ^ k := by
  have hpos : 0 < (gridFactors k (x.exponent - 2)).1 := by
    simp [gridFactors, Nat.pow_eq]
  have hvalue : ((4 * x.significand : ℕ) : ℚ) * 2 ^ (x.exponent - 2) =
      x.significand * 2 ^ x.exponent := by
    rw [quarter_mul]
    push_cast
    ring
  constructor
  · rw [← hvalue, ← gridFactors_ge_iff]
    exact Nat.div_mul_le_self _ _
  · rw [← hvalue, ← Nat.cast_succ, ← not_le, ← gridFactors_ge_iff, not_le]
    exact Nat.lt_mul_of_div_lt (Nat.lt_succ_self _) hpos

theorem nearestOnGrid?_cases (x : Binary64) (k : Int) :
    (x.nearestOnGrid? k = none ∧ x.roundsOnGrid k (x.gridBelow k) = false ∧
      x.roundsOnGrid k (x.gridBelow k + 1) = false) ∨
    ∃ c, x.nearestOnGrid? k = some ⟨c, k⟩ ∧ x.roundsOnGrid k c = true := by
  unfold nearestOnGrid?
  dsimp only
  split
  · next hb ha => exact .inl ⟨rfl, hb, ha⟩
  · next hb ha => exact .inr ⟨_, rfl, hb⟩
  · next hb ha => exact .inr ⟨_, rfl, ha⟩
  · next hb ha =>
    split
    · exact .inr ⟨_, rfl, hb⟩
    · exact .inr ⟨_, rfl, ha⟩

/-! ## Fine grids -/

theorem rounds_of_between {p : ℚ} (hlow : (x.lowQuarters : ℚ) / 4 * 2 ^ x.exponent < p)
    (hhigh : p < (x.significand + 1 / 2) * 2 ^ x.exponent) : x.Rounds p := by
  rw [← quarter_mul] at hlow
  rw [← high_mul] at hhigh
  refine ⟨hlow.le, hhigh.le, ?_⟩
  rintro (he | he)
  · exact absurd he hlow.ne'
  · exact absurd he hhigh.ne

theorem lowQuarters_cases (hz : x.isZero = false) :
    (x.significand = exponentUnit ∧ (x.lowQuarters : ℚ) / 4 = x.significand - 1 / 4) ∨
      (x.lowQuarters : ℚ) / 4 = x.significand - 1 / 2 := by
  have hpos := significand_pos hz
  unfold lowQuarters
  split
  · next h =>
    simp only [Bool.and_eq_true, decide_eq_true_eq] at h
    rw [Nat.cast_sub (by omega)]
    exact .inl ⟨h.1, by push_cast; ring⟩
  · rw [Nat.cast_sub (by omega)]
    exact .inr (by push_cast; ring)

/-- On a grid of seventeen digits one of the neighbours of a double rounds to it. -/
theorem exists_rounds_of_fine (hz : x.isZero = false) {k : Int}
    (hk : (10 : ℚ) ^ 16 * 10 ^ k ≤ x.significand * 2 ^ x.exponent) :
    x.Rounds (x.gridBelow k * 10 ^ k) ∨ x.Rounds ((x.gridBelow k + 1 : ℕ) * 10 ^ k) := by
  obtain ⟨hbelow, habove⟩ := x.gridBelow_spec k
  have hunit : (0 : ℚ) < 2 ^ x.exponent := by positivity
  have hstep : ((x.gridBelow k + 1 : ℕ) : ℚ) * 10 ^ k = x.gridBelow k * 10 ^ k + 10 ^ k := by
    push_cast
    ring
  rw [add_mul, one_mul] at habove
  rw [hstep]
  rcases lowQuarters_cases hz with ⟨hm, hlow⟩ | hlow
  · -- Under a power of two the interval is short, but the point above is well within it.
    have hm' : (x.significand : ℚ) = 2 ^ 52 := by
      rw [hm]
      norm_num [exponentUnit]
    refine .inr (rounds_of_between ?_ ?_)
    · rw [hlow]
      linarith
    · rw [hm'] at hk hbelow habove ⊢
      linarith
  · have hm : (x.significand : ℚ) + 1 ≤ 2 ^ 53 := by
      exact_mod_cast Nat.succ_le_of_lt x.significand_lt
    have hshort : (10 : ℚ) ^ k < 2 ^ x.exponent := by
      have hle : (x.significand : ℚ) * 2 ^ x.exponent ≤ 2 ^ 53 * 2 ^ x.exponent := by
        gcongr
        linarith
      linarith
    by_cases hnear : (x.significand : ℚ) * 2 ^ x.exponent - x.gridBelow k * 10 ^ k ≤ 10 ^ k / 2
    · refine .inl (rounds_of_between ?_ ?_)
      · rw [hlow]
        linarith
      · linarith
    · refine .inr (rounds_of_between ?_ ?_)
      · rw [hlow]
        linarith
      · linarith

theorem nearestOnGrid?_ne_none (hz : x.isZero = false) {k : Int}
    (hk : (10 : ℚ) ^ 16 * 10 ^ k ≤ x.significand * 2 ^ x.exponent) :
    x.nearestOnGrid? k ≠ none := by
  intro hnone
  rcases x.nearestOnGrid?_cases k with ⟨-, hb, ha⟩ | ⟨c, hc, -⟩
  · rcases exists_rounds_of_fine hz hk with h | h
    · exact absurd (roundsOnGrid_iff.mpr h) (by simp [hb])
    · exact absurd (roundsOnGrid_iff.mpr h) (by simp [ha])
  · simp [hc] at hnone

/-! ## The search -/

theorem rounds_searchGrids {tries : Nat} {k : Int} (h : x.nearestOnGrid? (k - tries) ≠ none) :
    x.Rounds ((x.searchGrids (tries + 1) k).digits * 10 ^ (x.searchGrids (tries + 1) k).exp) := by
  induction tries generalizing k with
  | zero =>
    rw [searchGrids]
    rcases x.nearestOnGrid?_cases k with ⟨hn, -⟩ | ⟨c, hc, hr⟩
    · exact absurd hn (by simpa using h)
    · rw [hc]
      exact roundsOnGrid_iff.mp hr
  | succ tries ih =>
    rw [searchGrids]
    rcases x.nearestOnGrid?_cases k with ⟨hn, -⟩ | ⟨c, hc, hr⟩
    · rw [hn]
      refine ih ?_
      rwa [show k - 1 - (tries : ℤ) = k - (tries + 1 : ℕ) by push_cast; ring]
    · rw [hc]
      exact roundsOnGrid_iff.mp hr

/-- The order of a ratio, from the length of its whole part or of its inverse's. -/
theorem zpow_decimalLength_le {n d : Nat} (hn : 0 < n) (hd : 0 < d) :
    (10 : ℚ) ^ (if d ≤ n then (decimalLength (n / d) : Int) - 1
      else -(decimalLength (d / n) : Int)) ≤ n / d := by
  have hd' : (0 : ℚ) < d := by exact_mod_cast hd
  split
  · next h =>
    have hwhole : 0 < n / d := Nat.div_pos h hd
    have hlen := one_le_decimalLength (n / d)
    calc (10 : ℚ) ^ ((decimalLength (n / d) : ℤ) - 1)
        = (10 ^ (decimalLength (n / d) - 1) : ℕ) := by
          rw [← Nat.cast_one, ← Nat.cast_sub hlen, zpow_natCast]
          norm_cast
      _ ≤ (n / d : ℕ) := by exact_mod_cast (decimalLength_spec hwhole).1
      _ ≤ (n : ℚ) / d := Nat.cast_div_le
  · next h =>
    have hwhole : 0 < d / n := Nat.div_pos (by omega) hn
    have hlt : d < (d / n + 1) * n := by
      rw [Nat.mul_comm]
      exact Nat.lt_mul_div_succ d hn
    have hle : d ≤ 10 ^ decimalLength (d / n) * n :=
      hlt.le.trans (Nat.mul_le_mul_right n (decimalLength_spec hwhole).2)
    rw [zpow_neg, zpow_natCast, le_div_iff₀ hd', inv_mul_le_iff₀ (by positivity)]
    exact_mod_cast hle

theorem decimalOrder_le (hz : x.isZero = false) :
    (10 : ℚ) ^ x.decimalOrder ≤ x.significand * 2 ^ x.exponent := by
  have hn : 0 < x.significand * 2 ^ x.exponent.toNat :=
    Nat.mul_pos (significand_pos hz) (Nat.pow_pos (by decide))
  have hle := zpow_decimalLength_le hn (Nat.pow_pos (n := (-x.exponent).toNat) (by decide : 0 < 2))
  rw [zpow_eq_div 2, mul_div_assoc']
  exact_mod_cast hle

/-- The shortest decimal of a double rounds to it. -/
theorem rounds_shortest (hz : x.isZero = false) :
    x.Rounds (x.shortest.digits * 10 ^ x.shortest.exp) := by
  refine rounds_searchGrids (nearestOnGrid?_ne_none hz ?_)
  have horder : (10 : ℚ) ^ 16 * 10 ^ (x.decimalOrder - (16 : ℕ)) = 10 ^ x.decimalOrder := by
    rw [← zpow_natCast, ← zpow_add₀ (by norm_num)]
    congr 1
    ring
  rw [horder]
  exact decimalOrder_le hz

/-- The shortest decimal of a double is read as the double. -/
theorem ofDecimal_shortest (hf : x.isFinite = true) (hz : x.isZero = false) :
    ofDecimal x.isNegative x.shortest.digits x.shortest.exp = x :=
  ofDecimal_of_rounds hf hz (rounds_shortest hz)

theorem shortest_digits_pos (hz : x.isZero = false) : 0 < x.shortest.digits := by
  have hpos := (rounds_shortest hz).pos hz
  rcases Nat.eq_zero_or_pos x.shortest.digits with h | h
  · simp [h] at hpos
  · exact h

end ModuleLoader.Binary64
