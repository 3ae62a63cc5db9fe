import Mathlib.Data.List.Induction
import ModuleLoader.Proofs.Json.Strings

/-! Numbers. A digit run is taken as far as it goes, so a number is read whole as long as nothing
behind it could belong to it. -/

namespace ModuleLoader.Json

open Grammar Text

/-! ## Digits -/

theorem isAsciiDigit_iff_le {c : Char} : isAsciiDigit c = true ↔ '0' ≤ c ∧ c ≤ '9' := by
  simp [isAsciiDigit]

theorem digitsValue_eq_decimal (s : List Char) : digitsValue s = decimal s := by
  induction s using List.reverseRecOn with
  | nil => rfl
  | append_singleton s c ih =>
    have hd : digitsValue (s ++ [c]) = digitsValue s * 10 + (c.toNat - '0'.toNat) := by
      simp [digitsValue]
    have hv : decimal (s ++ [c]) = (c.toNat - '0'.toNat) + 10 * decimal s := by
      simp [decimal, Nat.ofDigits_cons]
    rw [hd, hv, ih]
    omega

def NoDigit (s : List Char) : Prop := ∀ c ∈ s.head?, ¬('0' ≤ c ∧ c ≤ '9')

theorem takeDigits_append {digits rest : List Char} (hd : ∀ c ∈ digits, '0' ≤ c ∧ c ≤ '9')
    (hr : NoDigit rest) : takeDigits (digits ++ rest) = (digits, rest) := by
  induction digits with
  | nil =>
    cases rest with
    | nil => rfl
    | cons c rest =>
      have hc : ¬isAsciiDigit c = true := fun h => hr c rfl (isAsciiDigit_iff_le.mp h)
      simp [takeDigits, hc]
  | cons c digits ih =>
    have hc : isAsciiDigit c = true := isAsciiDigit_iff_le.mpr (hd c List.mem_cons_self)
    have hrest := ih fun d hm => hd d (List.mem_cons_of_mem _ hm)
    simp only [takeDigits, Prod.mk.injEq] at hrest
    simp [takeDigits, hc, hrest]

theorem takeDigits_spec (s : List Char) : ∃ digits rest, takeDigits s = (digits, rest) ∧
    s = digits ++ rest ∧ ∀ c ∈ digits, '0' ≤ c ∧ c ≤ '9' := by
  induction s with
  | nil => exact ⟨[], [], rfl, rfl, by simp⟩
  | cons c s ih =>
    by_cases hc : isAsciiDigit c = true
    · obtain ⟨digits, rest, ht, hs, hd⟩ := ih
      simp only [takeDigits, Prod.mk.injEq] at ht
      refine ⟨c :: digits, rest, by simp [takeDigits, hc, ht], by simp [hs], ?_⟩
      intro d hm
      rcases List.mem_cons.mp hm with rfl | hm
      · exact isAsciiDigit_iff_le.mp hc
      · exact hd d hm
    · exact ⟨[], c :: s, by simp [takeDigits, hc], rfl, by simp⟩

theorem reads_digits (fault : Fault) :
    Reads (readDigits fault) (fun t digits => t = digits ∧ Digits digits) NoDigit where
  sound {s rest digits} h := by
    obtain ⟨ds, r, ht, hs, hd⟩ := takeDigits_spec s
    unfold readDigits at h
    rw [ht] at h
    cases ds with
    | nil => cases h
    | cons c ds =>
      cases h
      exact ⟨c :: ds, hs, rfl, by simp, hd⟩
  complete {t rest digits} h hr := by
    obtain ⟨rfl, hne, hd⟩ := h
    obtain ⟨c, ds, rfl⟩ := List.exists_cons_of_ne_nil hne
    rw [readDigits, takeDigits_append hd hr]

/-! ## Parts -/

theorem reads_whole : Reads readWhole (fun t whole => t = whole ∧ Whole whole) NoDigit where
  sound {s rest whole} h := by
    unfold readWhole at h
    split at h
    · cases h
      exact ⟨['0'], rfl, rfl, .inl rfl⟩
    · next hzero =>
      obtain ⟨t, rfl, rfl, hd⟩ := (reads_digits _).sound h
      refine ⟨t, rfl, rfl, .inr ⟨hd, fun hh => ?_⟩⟩
      obtain ⟨ds, rfl⟩ := List.head?_eq_some_iff.mp hh
      exact hzero _ rfl
  complete {t rest whole} h hr := by
    obtain ⟨rfl, rfl | ⟨hd, hh⟩⟩ := h
    · rfl
    · have hread := (reads_digits .expectedDigit).complete ⟨rfl, hd⟩ hr
      unfold readWhole
      split
      · next r hs =>
        obtain ⟨c, ds, rfl⟩ := List.exists_cons_of_ne_nil hd.1
        obtain rfl : c = '0' := by simpa using (List.cons.inj hs).1
        exact absurd rfl hh
      · exact hread

/-- Whether a text cannot make a fraction of what stands before it. -/
def NoFraction (s : List Char) : Prop := NoDigit s ∧ s.head? ≠ some '.'

theorem reads_fraction : Reads readFraction Fraction NoFraction where
  sound {s rest digits} h := by
    unfold readFraction at h
    split at h
    · obtain ⟨t, rfl, rfl, hd⟩ := (reads_digits _).sound h
      exact ⟨'.' :: t, rfl, .some hd⟩
    · cases h
      exact ⟨[], rfl, .none⟩
  complete {t rest digits} h hr := by
    cases h with
    | none =>
      unfold readFraction
      split
      · next r hs =>
        obtain rfl : rest = '.' :: r := hs
        exact absurd rfl hr.2
      · rfl
    | some hd => exact (reads_digits _).complete ⟨rfl, hd⟩ hr.1

def NoExponent (s : List Char) : Prop := NoDigit s ∧ s.head? ≠ some 'e' ∧ s.head? ≠ some 'E'

theorem readExponent_minus {e : Char} (he : e = 'e' ∨ e = 'E') (s : List Char) :
    readExponent (e :: '-' :: s) = (readDigits .expectedExponentDigit s).map
      fun found => (-(digitsValue found.1 : Int), found.2) := by
  have hmark : (decide (e = 'e') || decide (e = 'E')) = true := by simpa using he
  simp only [readExponent, hmark, if_true]
  cases readDigits .expectedExponentDigit s <;> rfl

theorem readExponent_plus {e : Char} (he : e = 'e' ∨ e = 'E') (s : List Char) :
    readExponent (e :: '+' :: s) = (readDigits .expectedExponentDigit s).map
      fun found => ((digitsValue found.1 : Int), found.2) := by
  have hmark : (decide (e = 'e') || decide (e = 'E')) = true := by simpa using he
  simp only [readExponent, hmark, if_true]
  cases readDigits .expectedExponentDigit s <;> rfl

theorem readExponent_unsigned {e : Char} (he : e = 'e' ∨ e = 'E') {s : List Char}
    (hm : s.head? ≠ some '-') (hp : s.head? ≠ some '+') :
    readExponent (e :: s) = (readDigits .expectedExponentDigit s).map
      fun found => ((digitsValue found.1 : Int), found.2) := by
  have hmark : (decide (e = 'e') || decide (e = 'E')) = true := by simpa using he
  cases s with
  | nil =>
    simp only [readExponent, hmark, if_true]
    rfl
  | cons c s =>
    have hcm : c ≠ '-' := by simpa using hm
    have hcp : c ≠ '+' := by simpa using hp
    cases hd : readDigits .expectedExponentDigit (c :: s) with
    | error stop => simp [readExponent, hmark, hcm, hcp, hd, Except.map]
    | ok found => simp [readExponent, hmark, hcm, hcp, hd, Except.map]

theorem readExponent_of_ne {e : Char} (he : ¬(e = 'e' ∨ e = 'E')) (s : List Char) :
    readExponent (e :: s) = .ok (0, e :: s) := by
  have hmark : (decide (e = 'e') || decide (e = 'E')) = false := by simpa using he
  simp [readExponent, hmark]

/-- How an exponent is read, by what the text begins with. -/
inductive ExponentStep : List Char → Except Stop (Int × List Char) → Prop
  | minus {e : Char} (he : e = 'e' ∨ e = 'E') (s : List Char) :
    ExponentStep (e :: '-' :: s) ((readDigits .expectedExponentDigit s).map
      fun found => (-(digitsValue found.1 : Int), found.2))
  | plus {e : Char} (he : e = 'e' ∨ e = 'E') (s : List Char) :
    ExponentStep (e :: '+' :: s) ((readDigits .expectedExponentDigit s).map
      fun found => ((digitsValue found.1 : Int), found.2))
  | unsigned {e : Char} {s : List Char} (he : e = 'e' ∨ e = 'E') (hm : s.head? ≠ some '-')
    (hp : s.head? ≠ some '+') :
    ExponentStep (e :: s) ((readDigits .expectedExponentDigit s).map
      fun found => ((digitsValue found.1 : Int), found.2))
  | none {s : List Char} (h : ∀ e ∈ s.head?, ¬(e = 'e' ∨ e = 'E')) : ExponentStep s (.ok (0, s))

theorem readExponent_step (s : List Char) : ExponentStep s (readExponent s) := by
  cases s with
  | nil => exact .none (by simp)
  | cons e s =>
    by_cases he : e = 'e' ∨ e = 'E'
    · by_cases hm : s.head? = some '-'
      · obtain ⟨s, rfl⟩ := List.head?_eq_some_iff.mp hm
        exact readExponent_minus he s ▸ .minus he s
      · by_cases hp : s.head? = some '+'
        · obtain ⟨s, rfl⟩ := List.head?_eq_some_iff.mp hp
          exact readExponent_plus he s ▸ .plus he s
        · exact readExponent_unsigned he hm hp ▸ .unsigned he hm hp
    · exact readExponent_of_ne he s ▸ .none (by simpa using he)

theorem reads_exponent : Reads readExponent Exponent NoExponent where
  sound {s rest power} h := by
    have hdigits {s : List Char} {f : List Char → Int}
        (h : ((readDigits .expectedExponentDigit s).map fun found => (f found.1, found.2)) =
          .ok (power, rest)) : ∃ digits, s = digits ++ rest ∧ Digits digits ∧ power = f digits := by
      obtain ⟨⟨digits, rest'⟩, hr, he⟩ := exists_of_map_eq_ok h
      cases he
      obtain ⟨t, rfl, rfl, hd⟩ := (reads_digits _).sound hr
      exact ⟨t, rfl, hd, rfl⟩
    have hstep := readExponent_step s
    generalize readExponent s = answer at h hstep
    cases hstep with
    | @minus e he _ =>
      obtain ⟨digits, rfl, hd, rfl⟩ := hdigits (f := fun ds => -(digitsValue ds : Int)) h
      exact ⟨e :: '-' :: digits, rfl, digitsValue_eq_decimal digits ▸ .minus he hd⟩
    | @plus e he _ =>
      obtain ⟨digits, rfl, hd, rfl⟩ := hdigits (f := fun ds => (digitsValue ds : Int)) h
      exact ⟨e :: '+' :: digits, rfl, digitsValue_eq_decimal digits ▸ .plus he hd⟩
    | @unsigned e _ he hm hp =>
      obtain ⟨digits, rfl, hd, rfl⟩ := hdigits (f := fun ds => (digitsValue ds : Int)) h
      exact ⟨e :: digits, rfl, digitsValue_eq_decimal digits ▸ .unsigned he hd⟩
    | none _ =>
      cases h
      exact ⟨[], rfl, .none⟩
  complete {t rest power} h hr := by
    have hread {digits : List Char} (hd : Digits digits) :
        readDigits .expectedExponentDigit (digits ++ rest) = .ok (digits, rest) :=
      (reads_digits _).complete ⟨rfl, hd⟩ hr.1
    cases h with
    | none =>
      cases rest with
      | nil => rfl
      | cons e rest =>
        have he : ¬(e = 'e' ∨ e = 'E') := by
          rintro (rfl | rfl)
          · exact hr.2.1 rfl
          · exact hr.2.2 rfl
        rw [List.nil_append, readExponent_of_ne he]
    | @unsigned e digits he hd =>
      obtain ⟨c, ds, rfl⟩ := List.exists_cons_of_ne_nil hd.1
      have hm : (c :: ds ++ rest).head? ≠ some '-' := fun hh => by
        obtain rfl : c = '-' := by simpa using hh
        exact absurd (hd.2 '-' List.mem_cons_self) (by decide)
      have hp : (c :: ds ++ rest).head? ≠ some '+' := fun hh => by
        obtain rfl : c = '+' := by simpa using hh
        exact absurd (hd.2 '+' List.mem_cons_self) (by decide)
      rw [List.cons_append, readExponent_unsigned he hm hp, hread hd, ← digitsValue_eq_decimal]
      rfl
    | plus he hd =>
      rw [List.cons_append, List.cons_append, readExponent_plus he, hread hd,
        ← digitsValue_eq_decimal]
      rfl
    | minus he hd =>
      rw [List.cons_append, List.cons_append, readExponent_minus he, hread hd,
        ← digitsValue_eq_decimal]
      rfl

/-! ## Numbers -/

/-- Whether a text cannot make the number before it longer. -/
def NoNumber (s : List Char) : Prop :=
  ∀ c ∈ s.head?, ¬('0' ≤ c ∧ c ≤ '9') ∧ c ≠ '.' ∧ c ≠ 'e' ∧ c ≠ 'E'

theorem noDigit_of_noNumber {s : List Char} (h : NoNumber s) : NoDigit s := fun c hc => (h c hc).1

theorem noExponent_of_noNumber {s : List Char} (h : NoNumber s) : NoExponent s :=
  ⟨noDigit_of_noNumber h, fun hs => (h _ hs).2.2.1 rfl, fun hs => (h _ hs).2.2.2 rfl⟩

theorem noFraction_exponent_append {t rest : List Char} {power : Int} (h : Exponent t power)
    (hr : NoNumber rest) : NoFraction (t ++ rest) := by
  have hmark {e : Char} {s : List Char} (he : e = 'e' ∨ e = 'E') : NoFraction (e :: s) := by
    rcases he with rfl | rfl <;> simp [NoFraction, NoDigit]
  cases h with
  | none => exact ⟨noDigit_of_noNumber hr, fun hs => (hr _ hs).2.1 rfl⟩
  | unsigned he _ => exact hmark he
  | plus he _ => exact hmark he
  | minus he _ => exact hmark he

theorem noDigit_fraction_append {t rest digits : List Char} (h : Fraction t digits)
    (hr : NoDigit rest) : NoDigit (t ++ rest) := by
  cases h with
  | none => exact hr
  | some hd => simp [NoDigit]

theorem exists_digit_of_whole {s : List Char} (h : Whole s) :
    ∃ c r, s = c :: r ∧ '0' ≤ c ∧ c ≤ '9' := by
  rcases h with rfl | ⟨⟨hne, hd⟩, -⟩
  · exact ⟨'0', [], rfl, by decide⟩
  · obtain ⟨c, r, rfl⟩ := List.exists_cons_of_ne_nil hne
    exact ⟨c, r, rfl, hd c List.mem_cons_self⟩

theorem exists_head_of_number {s : List Char} {x : Binary64} (h : Number s x) :
    ∃ c r, s = c :: r ∧ (c = '-' ∨ '0' ≤ c ∧ c ≤ '9') := by
  obtain @⟨negative, whole, fraction, digits, exponent, power, hw, hf, he⟩ := h
  cases negative with
  | true => exact ⟨'-', _, rfl, .inl rfl⟩
  | false =>
    obtain ⟨c, r, rfl, hc⟩ := exists_digit_of_whole hw
    exact ⟨c, _, rfl, .inr hc⟩

theorem readNumber_eq (negative : Bool) {s : List Char}
    (h : negative = false → s.head? ≠ some '-') :
    readNumber ((if negative then ['-'] else []) ++ s) = (do
      let (whole, s) ← readWhole s
      let (fraction, s) ← readFraction s
      let (exponent, s) ← readExponent s
      return (⟨negative, whole, fraction, exponent⟩, s)) := by
  cases negative with
  | true => rfl
  | false =>
    cases s with
    | nil => rfl
    | cons c s =>
      have hc : c ≠ '-' := by simpa using h rfl
      simp [readNumber, hc]

theorem exists_minus (s : List Char) : ∃ negative s', s = (if negative then ['-'] else []) ++ s' ∧
    (negative = false → s'.head? ≠ some '-') := by
  by_cases hm : s.head? = some '-'
  · obtain ⟨s', rfl⟩ := List.head?_eq_some_iff.mp hm
    exact ⟨true, s', rfl, by simp⟩
  · exact ⟨false, s, rfl, fun _ => hm⟩

theorem reads_number :
    Reads (fun s => (readNumber s).map fun found => (found.1.value, found.2)) Number NoNumber where
  sound {s rest x} h := by
    obtain ⟨⟨token, rest'⟩, hn, he⟩ := exists_of_map_eq_ok h
    cases he
    obtain ⟨negative, s, rfl, hs⟩ := exists_minus s
    rw [readNumber_eq negative hs] at hn
    obtain ⟨⟨whole, s₁⟩, hwhole, hn⟩ := exists_of_bind_eq_ok hn
    obtain ⟨⟨fraction, s₂⟩, hfraction, hn⟩ := exists_of_bind_eq_ok hn
    obtain ⟨⟨power, s₃⟩, hexponent, hn⟩ := exists_of_bind_eq_ok hn
    cases hn
    obtain ⟨t₁, rfl, rfl, hw⟩ := reads_whole.sound hwhole
    obtain ⟨t₂, rfl, hf⟩ := reads_fraction.sound hfraction
    obtain ⟨t₃, rfl, he⟩ := reads_exponent.sound hexponent
    refine ⟨(if negative then ['-'] else []) ++ t₁ ++ t₂ ++ t₃, by simp, ?_⟩
    rw [NumberToken.value, digitsValue_eq_decimal]
    exact .mk negative hw hf he
  complete {t rest x} h hr := by
    obtain @⟨negative, whole, fraction, digits, exponent, power, hw, hf, he⟩ := h
    have hfraction := noFraction_exponent_append he hr
    have hwhole := noDigit_fraction_append hf hfraction.1
    have hhead : negative = false → (whole ++ (fraction ++ (exponent ++ rest))).head? ≠ some '-' := by
      obtain ⟨c, r, rfl, hc⟩ := exists_digit_of_whole hw
      intro _ hh
      obtain rfl : c = '-' := by simpa using hh
      exact absurd hc (by decide)
    have h₁ := reads_whole.complete ⟨rfl, hw⟩ hwhole
    have h₂ := reads_fraction.complete hf hfraction
    have h₃ := reads_exponent.complete he (noExponent_of_noNumber hr)
    have hread := readNumber_eq negative hhead
    simp only [h₁, h₂, h₃, bind, Except.bind, pure, Except.pure] at hread
    simp only [List.append_assoc, hread, Except.map, NumberToken.value, digitsValue_eq_decimal]

end ModuleLoader.Json
