import Mathlib.Algebra.Order.Field.Power
import Mathlib.Data.List.TakeWhile
import ModuleLoader.Proofs.Decimal.Shortest
import ModuleLoader.Proofs.Json.Numbers

/-! Printed numbers. The text of a finite double is a number of the grammar, in each of its three
notations, and that number is the double. -/

namespace ModuleLoader.Json

open Grammar

/-! ## Digits -/

theorem decimal_append (s t : List Char) :
    decimal (s ++ t) = decimal s * 10 ^ t.length + decimal t := by
  simp only [decimal, List.reverse_append, List.map_append, Nat.ofDigits_append, List.length_map,
    List.length_reverse]
  ring

theorem decimal_zeros (n : Nat) : decimal (List.replicate n '0') = 0 := by
  induction n with
  | zero => rfl
  | succ n ih =>
    rw [List.replicate_succ', decimal_append, ih]
    rfl

theorem decimal_append_zeros (s : List Char) (n : Nat) :
    decimal (s ++ List.replicate n '0') = decimal s * 10 ^ n := by
  rw [decimal_append, decimal_zeros, List.length_replicate, Nat.add_zero]

theorem decimal_zeros_append (n : Nat) (s : List Char) :
    decimal (List.replicate n '0' ++ s) = decimal s := by
  rw [decimal_append, decimal_zeros, Nat.zero_mul, Nat.zero_add]

theorem decimal_toDigits (n : Nat) : decimal (Nat.toDigits 10 n) = n := by
  rw [← digitsValue_eq_decimal]
  conv_rhs => rw [← Nat.ofDigitChars_ten_toDigits (n := n)]
  simp only [digitsValue, Nat.ofDigitChars, Nat.mul_comm]

theorem digits_toDigits (n : Nat) : Digits (Nat.toDigits 10 n) := by
  refine ⟨Nat.toDigits_ne_nil, fun c hc => ?_⟩
  have h := Nat.isDigit_of_mem_toDigits (by decide) le_rfl hc
  simp only [Char.isDigit, Bool.and_eq_true, decide_eq_true_eq] at h
  exact h

theorem head?_toDigits_ne {n : Nat} (hn : 0 < n) : (Nat.toDigits 10 n).head? ≠ some '0' := by
  induction n using Nat.strongRecOn with
  | ind n ih =>
    rw [Nat.toDigits_eq_if (by decide)]
    split
    · next h =>
      have hdigit : ∀ d < 10, 0 < d → Nat.digitChar d ≠ '0' := by decide
      simpa using hdigit n h hn
    · next h =>
      rw [List.head?_append_of_ne_nil _ Nat.toDigits_ne_nil]
      exact ih (n / 10) (by omega) (by omega)

theorem exists_toDigits_eq (p : Binary64.GridPoint) :
    ∃ n, Nat.toDigits 10 p.digits = p.significant ++ List.replicate n '0' := by
  let zeros := (Nat.toDigits 10 p.digits).reverse.takeWhile (· == '0')
  have hzeros : zeros = List.replicate zeros.length '0' := by
    refine List.eq_replicate_iff.mpr ⟨rfl, fun c hc => ?_⟩
    simpa using List.mem_takeWhile_imp hc
  refine ⟨zeros.length, ?_⟩
  have h := congrArg List.reverse
    (List.takeWhile_append_dropWhile (p := (· == '0')) (l := (Nat.toDigits 10 p.digits).reverse))
  rw [List.reverse_append, List.reverse_reverse] at h
  rw [Binary64.GridPoint.significant, ← List.reverse_replicate, ← hzeros, h]

/-! ## The three notations -/

/-- A number of the grammar without its sign, and its value before rounding. -/
inductive Unsigned : List Char → ℚ → Prop where
  | mk {whole fraction digits exponent : List Char} {power : Int} (hw : Whole whole)
    (hf : Fraction fraction digits) (he : Exponent exponent power) :
    Unsigned (whole ++ fraction ++ exponent)
      (decimal (whole ++ digits) * 10 ^ (power - digits.length))

theorem exponent_toDigits (order : Int) :
    Exponent ('e' :: (if 0 ≤ order then '+' else '-') :: Nat.toDigits 10 order.natAbs) order := by
  have hdigits := digits_toDigits order.natAbs
  have hvalue := decimal_toDigits order.natAbs
  split
  · next h =>
    have he := Exponent.plus (.inl rfl) hdigits
    rwa [hvalue, Int.natAbs_of_nonneg h] at he
  · next h =>
    have he := Exponent.minus (.inl rfl) hdigits
    rwa [hvalue, Int.ofNat_natAbs_of_nonpos (by omega), neg_neg] at he

section Layout

open Binary64

variable {ds : List Char} (hd : Digits ds) {order : Int}

include hd

theorem Grammar.Digits.drop {n : Nat} (h : ds.drop n ≠ []) : Digits (ds.drop n) :=
  ⟨h, fun c hc => hd.2 c (List.mem_of_mem_drop hc)⟩

theorem Grammar.Digits.take {n : Nat} (hn : 0 < n) : Digits (ds.take n) :=
  ⟨by simpa using ⟨hn.ne', hd.1⟩, fun c hc => hd.2 c (List.mem_of_mem_take hc)⟩

theorem Grammar.Digits.append_zeros (n : Nat) : Digits (ds ++ List.replicate n '0') := by
  refine ⟨by simp [hd.1], fun c hc => ?_⟩
  rcases List.mem_append.mp hc with h | h
  · exact hd.2 c h
  · rw [List.eq_of_mem_replicate h]
    decide

theorem Grammar.Digits.zeros_append (n : Nat) : Digits (List.replicate n '0' ++ ds) := by
  refine ⟨by simp [hd.1], fun c hc => ?_⟩
  rcases List.mem_append.mp hc with h | h
  · rw [List.eq_of_mem_replicate h]
    decide
  · exact hd.2 c h

/-- The point behind all digits, or among them. -/
theorem unsigned_layout_of_nonneg (h0 : ds.head? ≠ some '0') (hpos : 0 ≤ order) (hlt : order < 16) :
    Unsigned (layout ds order) (decimal ds * 10 ^ (order - ds.length + 1)) := by
  obtain ⟨n, rfl⟩ := Int.eq_ofNat_of_zero_le hpos
  have hhead (n : Nat) : (ds.take (n + 1)).head? ≠ some '0' := by
    rwa [List.head?_take, if_neg (Nat.succ_ne_zero n)]
  have hlayout : layout ds n = ds.take (n + 1) ++ List.replicate (n + 1 - ds.length) '0' ++
      '.' :: (if ds.drop (n + 1) = [] then ['0'] else ds.drop (n + 1)) := by
    have hrange : (decide ((-5 : Int) ≤ n) && decide ((n : Int) < 16)) = true := by
      simp only [Bool.and_eq_true, decide_eq_true_eq]
      omega
    rw [layout, if_pos hrange, if_pos hpos]
    rfl
  rw [hlayout]
  by_cases hend : ds.drop (n + 1) = []
  · have hlen := List.drop_eq_nil_iff.mp hend
    have hw : Whole (ds ++ List.replicate (n + 1 - ds.length) '0') :=
      .inr ⟨hd.append_zeros _, by rwa [List.head?_append_of_ne_nil _ hd.1]⟩
    have hvalue : (decimal ds : ℚ) * 10 ^ ((n : ℤ) - ds.length + 1) =
        decimal (ds ++ List.replicate (n + 1 - ds.length) '0' ++ ['0']) * 10 ^ ((0 : ℤ) - 1) := by
      rw [List.append_assoc, ← List.replicate_succ', decimal_append_zeros]
      push_cast
      rw [mul_assoc, ← zpow_natCast, ← zpow_add₀ (by norm_num)]
      congr 2
      omega
    rw [if_pos hend, List.take_of_length_le hlen, hvalue]
    simpa using Unsigned.mk hw (.some digits_zero) .none
  · have hlen : n + 1 < ds.length := by
      rw [List.drop_eq_nil_iff] at hend
      omega
    have hw : Whole (ds.take (n + 1)) := .inr ⟨hd.take (Nat.succ_pos n), hhead n⟩
    have hvalue : (decimal ds : ℚ) * 10 ^ ((n : ℤ) - ds.length + 1) =
        decimal (ds.take (n + 1) ++ ds.drop (n + 1)) *
          10 ^ ((0 : ℤ) - (ds.drop (n + 1)).length) := by
      rw [List.take_append_drop, List.length_drop]
      congr 2
      omega
    have hzeros : n + 1 - ds.length = 0 := by omega
    rw [if_neg hend, hzeros, hvalue]
    simpa using Unsigned.mk hw (.some (hd.drop hend)) .none

/-- Zeros between the point and the digits. -/
theorem unsigned_layout_of_neg (hge : -5 ≤ order) (hneg : order < 0) :
    Unsigned (layout ds order) (decimal ds * 10 ^ (order - ds.length + 1)) := by
  have hlayout : layout ds order =
      ['0'] ++ '.' :: (List.replicate ((-order).toNat - 1) '0' ++ ds) := by
    have hrange : (decide (-5 ≤ order) && decide (order < 16)) = true := by
      simp only [Bool.and_eq_true, decide_eq_true_eq]
      omega
    rw [layout, if_pos hrange, if_neg (not_le.mpr hneg)]
    simp
  have hvalue : (decimal ds : ℚ) * 10 ^ (order - ds.length + 1) =
      decimal (['0'] ++ (List.replicate ((-order).toNat - 1) '0' ++ ds)) *
        10 ^ ((0 : ℤ) - (List.replicate ((-order).toNat - 1) '0' ++ ds).length) := by
    have hzero : decimal ['0'] = 0 := rfl
    rw [decimal_append, hzero, Nat.zero_mul, Nat.zero_add, decimal_zeros_append, List.length_append,
      List.length_replicate]
    congr 2
    omega
  rw [hlayout, hvalue]
  simpa using Unsigned.mk (.inl rfl) (.some (hd.zeros_append _)) .none

/-- One digit before the point, and the order as an exponent. -/
theorem unsigned_layout_of_far (h0 : ds.head? ≠ some '0') (hfar : ¬(-5 ≤ order ∧ order < 16)) :
    Unsigned (layout ds order) (decimal ds * 10 ^ (order - ds.length + 1)) := by
  obtain ⟨d, r, rfl⟩ := List.exists_cons_of_ne_nil hd.1
  have hlayout : layout (d :: r) order = [d] ++ ((if r = [] then [] else ['.']) ++ r) ++
      ('e' :: (if 0 ≤ order then '+' else '-') :: Nat.toDigits 10 order.natAbs) := by
    have hrange : ¬(decide (-5 ≤ order) && decide (order < 16)) = true := by
      simpa only [Bool.and_eq_true, decide_eq_true_eq] using hfar
    rw [layout, if_neg hrange]
    simp [List.length_eq_zero_iff]
  have hw : Whole [d] := .inr ⟨hd.take (n := 1) Nat.one_pos, by simpa using h0⟩
  have hf : Fraction ((if r = [] then [] else ['.']) ++ r) r := by
    split
    · next h =>
      rw [h]
      exact .none
    · next h => exact .some (hd.drop (n := 1) h)
  have hvalue : (decimal (d :: r) : ℚ) * 10 ^ (order - (d :: r).length + 1) =
      decimal ([d] ++ r) * 10 ^ (order - r.length) := by
    rw [List.length_cons, List.singleton_append]
    congr 2
    push_cast
    ring
  rw [hlayout, hvalue]
  exact .mk hw hf (exponent_toDigits order)

theorem unsigned_layout (h0 : ds.head? ≠ some '0') (order : Int) :
    Unsigned (layout ds order) (decimal ds * 10 ^ (order - ds.length + 1)) := by
  by_cases hnear : -5 ≤ order ∧ order < 16
  · rcases lt_or_ge order 0 with hneg | hpos
    · exact unsigned_layout_of_neg hd hnear.1 hneg
    · exact unsigned_layout_of_nonneg hd h0 hpos hnear.2
  · exact unsigned_layout_of_far hd h0 hnear

end Layout

/-! ## Doubles -/

theorem significant_spec {p : Binary64.GridPoint} (hp : 0 < p.digits) :
    Digits p.significant ∧ p.significant.head? ≠ some '0' ∧
      (decimal p.significant : ℚ) * 10 ^ (p.order - p.significant.length + 1) =
        p.digits * 10 ^ p.exp := by
  obtain ⟨n, hn⟩ := exists_toDigits_eq p
  have hvalue := decimal_toDigits p.digits
  rw [hn, decimal_append_zeros] at hvalue
  have hne : p.significant ≠ [] := by
    intro he
    rw [he] at hvalue
    simp [decimal] at hvalue
    omega
  refine ⟨⟨hne, fun c hc => ?_⟩, ?_, ?_⟩
  · refine (digits_toDigits p.digits).2 c ?_
    rw [hn]
    exact List.mem_append_left _ hc
  · have h := head?_toDigits_ne hp
    rwa [hn, List.head?_append_of_ne_nil _ hne] at h
  · have hlen : Binary64.decimalLength p.digits = p.significant.length + n := by
      rw [Binary64.decimalLength, hn, List.length_append, List.length_replicate]
    have hexp : p.order - p.significant.length + 1 = n + p.exp := by
      rw [Binary64.GridPoint.order, hlen]
      push_cast
      ring
    rw [hexp, zpow_add₀ (by norm_num), zpow_natCast, ← mul_assoc]
    congr 1
    exact_mod_cast hvalue

theorem number_of_unsigned {x : Binary64} (hf : x.isFinite = true) (hz : x.isZero = false)
    {s : List Char} {v : ℚ} (hs : Unsigned s v) (hv : x.Rounds v) :
    Number ((if x.isNegative then ['-'] else []) ++ s) x := by
  obtain @⟨whole, fraction, digits, exponent, power, hw, hfr, he⟩ := hs
  have h := Number.mk x.isNegative hw hfr he
  rw [Binary64.ofDecimal_of_rounds hf hz hv] at h
  simpa only [List.append_assoc] using h

theorem number_zero {x : Binary64} (hz : x.isZero = true) :
    Number ((if x.isNegative then ['-'] else []) ++ ['0', '.', '0']) x := by
  have hm : x.magnitude = 0 := by simpa [Binary64.isZero] using hz
  have hread : Binary64.ofDecimal x.isNegative (decimal ['0', '0']) (0 - 1) = x := by
    conv_rhs => rw [← x.ofMagnitude_magnitude, hm]
    rfl
  have h := Number.mk x.isNegative (.inl rfl) (.some digits_zero) .none
  simp only [List.cons_append, List.nil_append, List.length_singleton, Nat.cast_one, hread] at h
  simpa using h

/-- A finite double is printed as a number that means it. -/
theorem number_toText {x : Binary64} (hf : x.isFinite = true) : Number x.toText.toList x := by
  unfold Binary64.toText
  rw [String.toList_ofList]
  by_cases hz : x.isZero = true
  · rw [if_pos hz]
    exact number_zero hz
  · have hz : x.isZero = false := by simpa using hz
    obtain ⟨hd, h0, hvalue⟩ := significant_spec (Binary64.shortest_digits_pos hz)
    have hs := unsigned_layout hd h0 x.shortest.order
    rw [hvalue] at hs
    rw [hz]
    exact number_of_unsigned hf hz hs (Binary64.rounds_shortest hz)

end ModuleLoader.Json
