import ModuleLoader.Proofs.Text.Bytes
import ModuleLoader.Text.Blank
import ModuleLoader.Text.Word

/-! The characters of names. No blank is one of them, of ASCII or beyond. -/

namespace ModuleLoader.Text

variable {c : Char}

theorem toNat_lt_of_isAsciiNamePart (h : isAsciiNamePart c = true) : c.toNat < 0x80 := by
  simp only [isAsciiNamePart, isNameStart, isAsciiLetter, isAsciiDigit, Char.le_def,
    UInt32.le_iff_toNat_le, Bool.or_eq_true, Bool.and_eq_true, decide_eq_true_eq, beq_iff_eq] at h
  rcases h with (((h | h) | rfl) | rfl) | h
  · exact Nat.lt_of_le_of_lt h.2 (by decide)
  · exact Nat.lt_of_le_of_lt h.2 (by decide)
  · decide
  · decide
  · exact Nat.lt_of_le_of_lt h.2 (by decide)

theorem isAsciiNamePart_of_isBlank (h : isBlank c = true) : isAsciiNamePart c = false := by
  let Apart (c : Char) : Prop := isBlank c = true → isAsciiNamePart c = false
  have hall : ∀ n < 0x80, Apart (Char.ofNat n) := by decide
  by_contra hpart
  rw [Bool.not_eq_false] at hpart
  rw [forall_ascii hall (toNat_lt_of_isAsciiNamePart hpart) h] at hpart
  cases hpart

theorem isNamePart_of_isAsciiNamePart (h : isAsciiNamePart c = true) : isNamePart c = true := by
  simp only [isAsciiNamePart, isNameStart, Bool.or_eq_true] at h
  simp only [isNamePart, isWord, Bool.or_eq_true]
  tauto

theorem isNamePart_of_isNameStart (h : isNameStart c = true) : isNamePart c = true :=
  isNamePart_of_isAsciiNamePart (by rw [isAsciiNamePart, h, Bool.true_or])

/-- The blanks beyond ASCII. -/
def highBlanks : List Nat :=
  [0x85, 0xA0, 0x1680] ++ List.range' 0x2000 11 ++ [0x2028, 0x2029, 0x202F, 0x205F, 0x3000]

theorem wordRanges_highBlanks : ∀ n ∈ highBlanks,
    (wordRanges.toList.any fun (lo, hi) => lo ≤ n && n ≤ hi) = false := by
  decide +kernel

theorem isNamePart_of_isBlank (h : isBlank c = true) : isNamePart c = false := by
  have hascii := isAsciiNamePart_of_isBlank h
  have hhigh : (decide (128 ≤ c.toNat) &&
      wordRanges.any fun (lo, hi) => lo ≤ c.toNat && c.toNat ≤ hi) = false := by
    by_cases hd : 128 ≤ c.toNat
    · have hmem : c.toNat ∈ highBlanks := by
        simp only [isBlank, Bool.or_eq_true, Bool.and_eq_true, decide_eq_true_eq, beq_iff_eq] at h
        simp only [highBlanks, List.mem_append, List.mem_cons, List.mem_range'_1]
        omega
      rw [← Array.any_toList, wordRanges_highBlanks _ hmem, Bool.and_false]
    · rw [decide_eq_false hd, Bool.false_and]
  simp only [isAsciiNamePart, isNameStart, Bool.or_eq_false_iff] at hascii
  simp only [isNamePart, isWord, hhigh, hascii, Bool.or_false]

end ModuleLoader.Text
