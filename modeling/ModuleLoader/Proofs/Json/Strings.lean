import ModuleLoader.Proofs.Json.Reader
import ModuleLoader.Proofs.Text.Pieces

/-! Strings. The reader decodes escapes as it goes, so it looks ahead for the second half of a pair
of surrogates; the grammar spells first and decodes then. -/

namespace ModuleLoader.Json

open Grammar Text

/-! ## Escapes -/

theorem shortEscape?_eq_some_iff {e c : Char} : shortEscape? e = some c ↔ Escape e c := by
  constructor
  · intro h
    unfold shortEscape? at h
    split_ifs at h
    all_goals
      subst e
      obtain rfl := Option.some.inj h
      constructor
  · rintro ⟨⟩ <;> rfl

theorem isAsciiDigit_iff {c : Char} : isAsciiDigit c = true ↔ 48 ≤ c.toNat ∧ c.toNat ≤ 57 := by
  simp only [isAsciiDigit, Bool.and_eq_true, decide_eq_true_eq]
  exact Iff.rfl

/-- The digits of one range are a shift of their values. -/
theorem hexDigit_of_shift {base low count : Nat}
    (h : ∀ k < count, HexDigit (Char.ofNat (base + k)) (k + low)) {c : Char} {n : Nat}
    (hb : base ≤ c.toNat) (hc : c.toNat < base + count) (hn : c.toNat - base + low = n) :
    HexDigit c n := by
  obtain ⟨k, hk⟩ : ∃ k, c.toNat = base + k := ⟨c.toNat - base, by omega⟩
  have he : c = Char.ofNat (base + k) := by rw [← hk, Char.ofNat_toNat]
  have hv : n = k + low := by omega
  rw [he, hv]
  exact h k (by omega)

theorem hexValue?_eq_some_iff {c : Char} {n : Nat} : hexValue? c = some n ↔ HexDigit c n := by
  constructor
  · intro h
    have hdigits : ∀ k < 10, HexDigit (Char.ofNat (48 + k)) (k + 0) := by decide
    have hlower : ∀ k < 6, HexDigit (Char.ofNat (97 + k)) (k + 10) := by decide
    have hupper : ∀ k < 6, HexDigit (Char.ofNat (65 + k)) (k + 10) := by decide
    have hrange {lo hi : Char} (hc : (decide (lo ≤ c) && decide (c ≤ hi)) = true) :
        lo.toNat ≤ c.toNat ∧ c.toNat ≤ hi.toNat := by
      simp only [Bool.and_eq_true, decide_eq_true_eq] at hc
      exact hc
    unfold hexValue? at h
    split_ifs at h with hd hl hu
    · obtain ⟨h₁, h₂⟩ := isAsciiDigit_iff.mp hd
      exact hexDigit_of_shift hdigits h₁ (by omega) (Option.some.inj h)
    · obtain ⟨h₁, h₂⟩ : 97 ≤ c.toNat ∧ c.toNat ≤ 102 := hrange hl
      exact hexDigit_of_shift hlower h₁ (by omega) (Option.some.inj h)
    · obtain ⟨h₁, h₂⟩ : 65 ≤ c.toNat ∧ c.toNat ≤ 70 := hrange hu
      exact hexDigit_of_shift hupper h₁ (by omega) (Option.some.inj h)
  · rintro ⟨hn, rfl | rfl⟩
    · revert n; decide
    · revert n; decide

theorem unit?_eq_some_iff {a b c d : Char} {n : Nat} :
    unit? a b c d = some n ↔ HexUnit a b c d n := by
  have hvalue (i j k l : Nat) :
      ((i * 16 + j) * 16 + k) * 16 + l = Nat.ofDigits 16 [l, k, j, i] := by
    simp only [Nat.ofDigits_cons, Nat.ofDigits_nil]
    omega
  simp only [unit?, bind, Option.bind_eq_some_iff, hexValue?_eq_some_iff, HexUnit, pure,
    Option.some.injEq, hvalue]
  constructor
  · rintro ⟨i, hi, j, hj, k, hk, l, hl, hn⟩
    exact ⟨i, j, k, l, hi, hj, hk, hl, hn.symm⟩
  · rintro ⟨i, j, k, l, hi, hj, hk, hl, hn⟩
    exact ⟨i, hi, j, hj, k, hk, l, hl, hn.symm⟩

theorem unitAt_eq_ok_iff {s : List Char} {n : Nat} :
    unitAt s = .ok n ↔ ∃ a b c d rest, s = a :: b :: c :: d :: rest ∧ HexUnit a b c d n := by
  constructor
  · intro h
    unfold unitAt at h
    split at h
    · next a b c d rest =>
      split at h
      · next unit hu =>
        obtain rfl := Except.ok.inj h
        exact ⟨a, b, c, d, rest, rfl, unit?_eq_some_iff.mp hu⟩
      · cases h
    · cases h
  · rintro ⟨a, b, c, d, rest, rfl, hu⟩
    simp [unitAt, unit?_eq_some_iff.mpr hu]

/-! ## Surrogates -/

theorem isHighSurrogate_iff {n : Nat} : isHighSurrogate n = true ↔ IsHigh n := by
  simp [isHighSurrogate, IsHigh]

theorem isLowSurrogate_iff {n : Nat} : isLowSurrogate n = true ↔ IsLow n := by
  simp [isLowSurrogate, IsLow]

def leadingLow? : List Element → Option Nat
  | .unit low :: _ => if IsLow low then some low else none
  | _ => none

theorem leadingLow?_eq_none {elements : List Element}
    (h : ∀ low rest, elements = .unit low :: rest → False) : leadingLow? elements = none := by
  match elements with
  | [] => rfl
  | .char c :: rest => rfl
  | .unit low :: rest => exact (h low rest rfl).elim

theorem decode_pair {high low : Nat} (hh : IsHigh high) (hl : IsLow low) (rest : List Element) :
    decode (.unit high :: .unit low :: rest) = pairChar high low :: decode rest := by
  rw [decode, if_pos ⟨hh, hl⟩, pairChar, Nat.mul_comm]

theorem unitChar_eq (n : Nat) :
    unitChar n = if IsHigh n ∨ IsLow n then '\uFFFD' else Char.ofNat n := by
  simp [unitChar, isHighSurrogate_iff, isLowSurrogate_iff, replacement]

/-- A unit stands alone unless it is a high surrogate before a low one. -/
theorem decode_unit {n : Nat} {rest : List Element} (h : IsHigh n → leadingLow? rest = none) :
    decode (.unit n :: rest) = unitChar n :: decode rest := by
  rw [unitChar_eq]
  match rest with
  | [] =>
    simp only [decode]
    split_ifs <;> rfl
  | .char c :: rest =>
    simp only [decode]
    split_ifs <;> rfl
  | .unit low :: rest =>
    have hpair : ¬(IsHigh n ∧ IsLow low) := by
      rintro ⟨hh, hl⟩
      simpa [leadingLow?, hl] using h hh
    simp only [decode, if_neg hpair]
    split_ifs <;> rfl

theorem lowEscape?_of_spells {s : List Char} {elements : List Element} (h : Spells s elements)
    (rest : List Char) : lowEscape? (s ++ '"' :: rest) = .ok (leadingLow? elements) := by
  cases h with
  | nil => rfl
  | plain hc hquote hslash h => simp [lowEscape?, after?_cons, hslash.symm, leadingLow?]
  | @escape e c s elements he h =>
    have hu : 'u' ≠ e := by rintro rfl; cases he
    simp [lowEscape?, after?_cons, hu, leadingLow?]
  | @unit a b c d value s elements hu h =>
    have hat : unitAt (a :: b :: c :: d :: (s ++ '"' :: rest)) = .ok value :=
      unitAt_eq_ok_iff.mpr ⟨a, b, c, d, _, rfl, hu⟩
    simp [lowEscape?, after?_cons, hat, leadingLow?, isLowSurrogate_iff]

/-! ## Reading -/

theorem exists_of_push_eq_ok {c : Char} {read : Except Stop (List Char × List Char)}
    {cs rest : List Char} (h : push c read = .ok (cs, rest)) :
    ∃ tail, cs = c :: tail ∧ read = .ok (tail, rest) := by
  cases read with
  | error stop => cases h
  | ok found =>
    obtain ⟨tail, s⟩ := found
    cases h
    exact ⟨tail, rfl, rfl⟩

theorem exists_of_lowEscape?_eq_some {s : List Char} {low : Nat}
    (h : lowEscape? s = .ok (some low)) : ∃ a b c d rest,
      s = '\\' :: 'u' :: a :: b :: c :: d :: rest ∧ HexUnit a b c d low ∧ IsLow low := by
  unfold lowEscape? at h
  split at h
  · cases h
  · next r hr =>
    split at h
    · next unit hu =>
      split at h
      · next hl =>
        obtain rfl := Option.some.inj (Except.ok.inj h)
        obtain ⟨a, b, c, d, rest, rfl, hunit⟩ := unitAt_eq_ok_iff.mp hu
        exact ⟨a, b, c, d, rest, after?_eq_some_iff.mp hr, hunit, isLowSurrogate_iff.mp hl⟩
      · cases h
    · cases h

/-- One step of the reader, unfolded once for the lemmas below. -/
alias readString_step := readString.eq_def

theorem readString_quote (s : List Char) : readString ('"' :: s) = .ok ([], s) := by
  rw [readString_step]
  rfl

theorem readString_plain {c : Char} (hc : 0x20 ≤ c.toNat) (hquote : c ≠ '"') (hslash : c ≠ '\\')
    (s : List Char) : readString (c :: s) = push c (readString s) := by
  rw [readString_step]
  simp [hquote, hslash, Nat.not_lt.mpr hc]

theorem readString_escape {e c : Char} (he : Escape e c) (s : List Char) :
    readString ('\\' :: e :: s) = push c (readString s) := by
  have hu : e ≠ 'u' := by rintro rfl; cases he
  rw [readString_step]
  simp [hu, shortEscape?_eq_some_iff.mpr he]

/-- An escaped unit before a text that does not complete a pair. -/
theorem readString_unit {a b c d : Char} {n : Nat} (hu : HexUnit a b c d n) {s : List Char}
    {low? : Option Nat} (hl : lowEscape? s = .ok low?) (hn : IsHigh n → low? = none) :
    readString ('\\' :: 'u' :: a :: b :: c :: d :: s) = push (unitChar n) (readString s) := by
  have hat : unitAt (a :: b :: c :: d :: s) = .ok n := unitAt_eq_ok_iff.mpr ⟨a, b, c, d, s, rfl, hu⟩
  by_cases hh : isHighSurrogate n = true
  · obtain rfl := hn (isHighSurrogate_iff.mp hh)
    simp [readString, hat, hh, hl, unitChar]
  · simp [readString, hat, hh]

theorem readString_pair {a b c d a' b' c' d' : Char} {high low : Nat}
    (hu : HexUnit a b c d high) (hh : IsHigh high) (hu' : HexUnit a' b' c' d' low) (hl : IsLow low)
    (s : List Char) :
    readString ('\\' :: 'u' :: a :: b :: c :: d :: '\\' :: 'u' :: a' :: b' :: c' :: d' :: s) =
      push (pairChar high low) (readString s) := by
  have hat (r : List Char) : unitAt (a :: b :: c :: d :: r) = .ok high :=
    unitAt_eq_ok_iff.mpr ⟨a, b, c, d, r, rfl, hu⟩
  have hat' : unitAt (a' :: b' :: c' :: d' :: s) = .ok low :=
    unitAt_eq_ok_iff.mpr ⟨a', b', c', d', s, rfl, hu'⟩
  have hlow : lowEscape? ('\\' :: 'u' :: a' :: b' :: c' :: d' :: s) = .ok (some low) := by
    simp [lowEscape?, after?_cons, hat', isLowSurrogate_iff.mpr hl]
  simp [readString, hat, isHighSurrogate_iff.mpr hh, hlow]

theorem readString_complete {t : List Char} {elements : List Element} (h : Spells t elements)
    (rest : List Char) : readString (t ++ '"' :: rest) = .ok (decode elements, rest) := by
  -- The induction goes along `decode`, which takes two units at a time where they are a pair.
  have hunit {n : Nat} {elements : List Element} {t : List Char}
      (hn : IsHigh n → leadingLow? elements = none) (h : Spells t (.unit n :: elements))
      (ih : ∀ {t : List Char}, Spells t elements →
        readString (t ++ '"' :: rest) = .ok (decode elements, rest)) :
      readString (t ++ '"' :: rest) = .ok (decode (.unit n :: elements), rest) := by
    cases h with
    | unit hu h =>
      have hread := readString_unit hu (lowEscape?_of_spells h rest) hn
      rw [decode_unit hn]
      simp [hread, ih h, push]
  induction elements using decode.induct generalizing t with
  | case1 =>
    cases h
    rw [List.nil_append, readString_quote, decode]
  | case2 c elements ih =>
    cases h with
    | plain hc hquote hslash h =>
      rw [List.cons_append, readString_plain hc hquote hslash, ih h, push, decode]
    | escape he h =>
      rw [List.cons_append, List.cons_append, readString_escape he, ih h, push, decode]
  | case3 high low elements hpair ih =>
    cases h with
    | unit hu h =>
      cases h with
      | unit hu' h =>
        have hread := readString_pair hu hpair.1 hu' hpair.2
        rw [decode_pair hpair.1 hpair.2]
        simp [hread, ih h, push]
  | case4 high low elements hpair _ ih =>
    exact hunit (fun hh => by simpa [leadingLow?] using fun hl => hpair ⟨hh, hl⟩) h ih
  | case5 high low elements hpair _ ih =>
    exact hunit (fun hh => by simpa [leadingLow?] using fun hl => hpair ⟨hh, hl⟩) h ih
  | case6 n elements hnext _ ih => exact hunit (fun _ => leadingLow?_eq_none hnext) h ih
  | case7 n elements hnext _ ih => exact hunit (fun _ => leadingLow?_eq_none hnext) h ih

theorem hexUnit_of_unitAt {a b c d : Char} {n : Nat} {s : List Char}
    (h : unitAt (a :: b :: c :: d :: s) = .ok n) : HexUnit a b c d n := by
  obtain ⟨a', b', c', d', s', hs, hu⟩ := unitAt_eq_ok_iff.mp h
  cases hs
  exact hu

/-- A unit that does not start a pair in the text does not start one in what the text spells. -/
theorem decode_unit_of_spells {n : Nat} {t rest : List Char} {elements : List Element}
    (ht : Spells t elements) (hn : IsHigh n → lowEscape? (t ++ '"' :: rest) = .ok none) :
    decode (.unit n :: elements) = unitChar n :: decode elements := by
  refine decode_unit fun hh => ?_
  have hl := lowEscape?_of_spells ht rest
  rw [hn hh] at hl
  exact (Except.ok.inj hl).symm

theorem readString_sound {s cs rest : List Char} (h : readString s = .ok (cs, rest)) :
    ∃ t elements, s = t ++ '"' :: rest ∧ Spells t elements ∧ decode elements = cs := by
  fun_induction readString s generalizing cs rest with
  | case1 => cases h
  | case2 r =>
    cases h
    exact ⟨[], [], rfl, .nil, by rw [decode]⟩
  | case3 => cases h
  | case4 n a b c d s hh stop hl hne hat => simp [hat, hh, hl] at h
  | case5 n a b c d s hh hl hne hat ih =>
    simp only [hat, hh, hl, if_true] at h
    obtain ⟨tail, rfl, hr⟩ := exists_of_push_eq_ok h
    obtain ⟨t, elements, rfl, ht, rfl⟩ := ih hr
    have hd := decode_unit_of_spells ht fun _ : IsHigh n => hl
    refine ⟨'\\' :: 'u' :: a :: b :: c :: d :: t, .unit n :: elements, rfl,
      .unit (hexUnit_of_unitAt hat) ht, ?_⟩
    rw [hd, unitChar, hh, Bool.true_or, if_pos rfl]
  | case6 n a b c d hh low e f a' b' c' d' s hne hl hat ih =>
    simp only [hat, hh, hl, if_true] at h
    obtain ⟨tail, rfl, hr⟩ := exists_of_push_eq_ok h
    obtain ⟨t, elements, rfl, ht, rfl⟩ := ih hr
    obtain ⟨_, _, _, _, _, hs, hu, hlow⟩ := exists_of_lowEscape?_eq_some hl
    cases hs
    exact ⟨_, .unit n :: .unit low :: elements, rfl, .unit (hexUnit_of_unitAt hat) (.unit hu ht),
      decode_pair (isHighSurrogate_iff.mp hh) hlow elements⟩
  | case7 n a b c d s hh low hl hshort hne hat =>
    obtain ⟨_, _, _, _, _, hs, -, -⟩ := exists_of_lowEscape?_eq_some hl
    exact (hshort _ _ _ _ _ _ _ hs).elim
  | case8 n a b c d s hh hne hat ih =>
    simp only [hat, hh] at h
    obtain ⟨tail, rfl, hr⟩ := exists_of_push_eq_ok h
    obtain ⟨t, elements, rfl, ht, rfl⟩ := ih hr
    have hn : ¬IsHigh n := fun hi => hh (isHighSurrogate_iff.mpr hi)
    exact ⟨'\\' :: 'u' :: a :: b :: c :: d :: t, .unit n :: elements, rfl,
      .unit (hexUnit_of_unitAt hat) ht, decode_unit fun hi => absurd hi hn⟩
  | case9 s hshort =>
    split at h
    · next unit a b c d s hat => exact (hshort unit a b c d s hat rfl).elim
    · cases h
  | case10 e s hu plain he hne ih =>
    obtain ⟨tail, rfl, hr⟩ := exists_of_push_eq_ok h
    obtain ⟨t, elements, rfl, ht, rfl⟩ := ih hr
    exact ⟨'\\' :: e :: t, .char plain :: elements, rfl,
      .escape (shortEscape?_eq_some_iff.mp he) ht, by rw [decode]⟩
  | case11 => cases h
  | case12 => cases h
  | case13 c s hquote hslash hc ih =>
    obtain ⟨tail, rfl, hr⟩ := exists_of_push_eq_ok h
    obtain ⟨t, elements, rfl, ht, rfl⟩ := ih hr
    exact ⟨c :: t, .char c :: elements, rfl, .plain (Nat.not_lt.mp hc) hquote hslash ht,
      by rw [decode]⟩

/-! ## Quoted texts -/

theorem exists_stringText {s cs rest : List Char} (h : readString s = .ok (cs, rest)) :
    ∃ t, '"' :: s = t ++ rest ∧ StringText t (String.ofList cs) := by
  obtain ⟨t, elements, rfl, ht, rfl⟩ := readString_sound h
  exact ⟨'"' :: t ++ ['"'], by simp, .quoted ht⟩

theorem exists_readString_eq_ok {t : List Char} {text : String} (h : StringText t text)
    (rest : List Char) :
    ∃ s cs, t ++ rest = '"' :: s ∧ readString s = .ok (cs, rest) ∧ String.ofList cs = text := by
  cases h with
  | @quoted s elements h =>
    exact ⟨s ++ '"' :: rest, decode elements, by simp, readString_complete h rest, rfl⟩

end ModuleLoader.Json
