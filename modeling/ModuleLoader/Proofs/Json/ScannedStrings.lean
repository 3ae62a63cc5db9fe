import ModuleLoader.Proofs.Json.Scanner

/-! Strings by byte offsets. What needs no decoding is cut out in one piece, and an escape is decoded
from the bytes behind its backslash, as the reader of strings does it character by character. -/

namespace ModuleLoader.Json

open Grammar Text

variable {text s : List Char} {pos : Nat}

/-! ## Units -/

theorem ascii_of_isHexDigit {c : Char} (h : isHexDigit c = true) : c.toNat < 0x80 := by
  obtain ⟨n, hn⟩ := Option.isSome_iff_exists.mp h
  obtain ⟨hlt, rfl | rfl⟩ := hexValue?_eq_some_iff.mp hn
  · revert n; decide
  · revert n; decide

theorem byteLength_hex {digits : List Char} (h : digits.all isHexDigit = true) :
    byteLength digits = digits.length :=
  byteLength_ascii fun c hc => ascii_of_isHexDigit (List.all_eq_true.mp h c hc)

theorem unit?_eq (a b c d : Char) : unit? a b c d =
    if [a, b, c, d].all isHexDigit then some (hexNumber [a, b, c, d]) else none := by
  have hall : [a, b, c, d].all isHexDigit = ((hexValue? a).isSome && (hexValue? b).isSome &&
      (hexValue? c).isSome && (hexValue? d).isSome) := by
    simp [isHexDigit, Bool.and_assoc]
  rw [hall]
  simp only [unit?, hexNumber, List.foldl_cons, List.foldl_nil]
  cases hexValue? a <;> cases hexValue? b <;> cases hexValue? c <;> cases hexValue? d <;> simp

/-- Hexadecimal digits at the front are just a front of as many bytes. -/
theorem takeBytes?_hex {digits : List Char} (h : digits.all isHexDigit = true) (s : List Char) :
    takeBytes? digits.length (digits ++ s) = some (digits, s) := by
  rw [← byteLength_hex h, takeBytes?_append]

theorem unitAt_eq (s : List Char) : unitAt s =
    match takeBytes? 4 s with
    | none => .error ⟨.truncatedUnit, s⟩
    | some (digits, _) =>
      if digits.all isHexDigit then .ok (hexNumber digits) else .error ⟨.invalidUnit, s⟩ := by
  by_cases h : ∃ digits r, s = digits ++ r ∧ digits.length = 4 ∧ digits.all isHexDigit = true
  · obtain ⟨digits, r, rfl, hlength, hall⟩ := h
    obtain ⟨a, b, c, d, rfl⟩ : ∃ a b c d, digits = [a, b, c, d] := List.length_eq_four.mp hlength
    have hcut : takeBytes? 4 ([a, b, c, d] ++ r) = some ([a, b, c, d], r) := takeBytes?_hex hall r
    rw [hcut]
    simp only [hall, if_true]
    simp only [List.cons_append, List.nil_append, unitAt, unit?_eq, hall, if_true]
  · have hstop : unitAt s = .error (unitStop s) := by
      unfold unitAt
      split
      · next a b c d r =>
        have hall : ¬[a, b, c, d].all isHexDigit = true := fun hall => h ⟨_, r, rfl, rfl, hall⟩
        rw [unit?_eq, if_neg hall]
      · rfl
    rw [hstop, unitStop]
    cases hcut : takeBytes? 4 s with
    | none => rfl
    | some cut =>
      obtain ⟨digits, r⟩ := cut
      obtain ⟨hs, hlength⟩ := eq_of_takeBytes? hcut
      have hall : ¬digits.all isHexDigit = true := fun hall =>
        h ⟨digits, r, hs, byteLength_hex hall ▸ hlength, hall⟩
      simp only [Option.isSome_some, if_true, if_neg hall]

/-- A unit and what stands behind its four digits. -/
def readUnit (s : List Char) : Except Stop (Nat × List Char) :=
  (unitAt s).map fun unit => (unit, s.drop 4)

theorem follows_unit (h : At text pos s) :
    Follows text Prod.mk (readUnit s) (scanUnit text pos) := by
  rw [readUnit, unitAt_eq, scanUnit, h.slice?_add]
  cases hcut : takeBytes? 4 s with
  | none => exact .stop h
  | some cut =>
    obtain ⟨digits, r⟩ := cut
    obtain ⟨rfl, hlength⟩ := eq_of_takeBytes? hcut
    dsimp only [Option.map_some]
    split
    · next hall =>
      have hdrop : (digits ++ r).drop 4 = r := by
        rw [← hlength, byteLength_hex hall, List.drop_left]
      have hr := h.append
      rw [hlength] at hr
      rw [← hdrop] at hr
      exact .ok hr
    · exact .stop h

theorem stop_of_unitAt {stop : Stop} (h : unitAt s = .error stop) : stop = unitStop s := by
  unfold unitAt at h
  split at h
  · split at h
    · cases h
    · exact (Except.error.inj h).symm
  · exact (Except.error.inj h).symm

/-! ## Escapes -/

/-- The character of a unit before a text that may hold the second half of a pair. -/
def readPair (unit : Nat) (s : List Char) : Except Stop (Char × List Char) :=
  if isHighSurrogate unit then
    match after? ['\\', 'u'] s with
    | none => .ok (replacement, s)
    | some r => do
      let (low, rest) ← readUnit r
      if isLowSurrogate low then return (pairChar unit low, rest) else return (replacement, s)
  else .ok (unitChar unit, s)

/-- The character of an escape behind its backslash. -/
def readEscape : List Char → Except Stop (Char × List Char)
  | [] => .error ⟨.unterminatedEscape, []⟩
  | e :: s =>
    if e = 'u' then do
      let (unit, rest) ← readUnit s
      readPair unit rest
    else match shortEscape? e with
      | some plain => .ok (plain, s)
      | none => .error ⟨.invalidEscape (leadByte e), e :: s⟩

theorem push_eq_map (c : Char) (x : Except Stop (List Char × List Char)) :
    push c x = x.map fun found => (c :: found.1, found.2) := by
  cases x <;> rfl

/-- The two halves of a pair, as the reader of strings takes them. -/
theorem push_readPair {unit : Nat} (hh : isHighSurrogate unit = true) (s : List Char) : (do
    let (c, s) ← readPair unit s
    push c (readString s)) =
      match lowEscape? s with
      | .error stop => .error stop
      | .ok none => push replacement (readString s)
      | .ok (some low) => push (pairChar unit low) (readString (s.drop 6)) := by
  simp only [readPair, hh, if_true, lowEscape?]
  cases hr : after? ['\\', 'u'] s with
  | none => rfl
  | some r =>
    obtain rfl := after?_eq_some_iff.mp hr
    cases hu : unitAt r with
    | error stop => simp [readUnit, hu, bind, Except.bind, Except.map]
    | ok low =>
      by_cases hl : isLowSurrogate low = true
      · simp [readUnit, hu, hl, bind, Except.bind, Except.map, pure, Except.pure]
      · simp [readUnit, hu, hl, bind, Except.bind, Except.map, pure, Except.pure]

theorem readString_backslash (s : List Char) : readString ('\\' :: s) = (do
    let (c, s) ← readEscape s
    push c (readString s)) := by
  rw [readString_step]
  cases s with
  | nil => rfl
  | cons e s =>
    by_cases he : e = 'u'
    · subst he
      cases hu : unitAt s with
      | error stop =>
        rw [stop_of_unitAt hu] at hu
        simp [readEscape, readUnit, hu, bind, Except.bind, Except.map]
      | ok unit =>
        obtain ⟨a, b, c, d, r, rfl, -⟩ := unitAt_eq_ok_iff.mp hu
        have hescape : readEscape ('u' :: a :: b :: c :: d :: r) = readPair unit r := by
          simp [readEscape, readUnit, hu, bind, Except.bind, Except.map]
        rw [hescape]
        by_cases hh : isHighSurrogate unit = true
        · rw [push_readPair hh]
          cases hl : lowEscape? r with
          | error stop => simp [hu, hh, hl]
          | ok low? =>
            cases low? with
            | none => simp [hu, hh, hl]
            | some low =>
              obtain ⟨_, _, _, _, _, rfl, -, -⟩ := exists_of_lowEscape?_eq_some hl
              simp [hu, hh, hl]
        · simp [readPair, hu, hh, bind, Except.bind]
    · cases hc : shortEscape? e with
      | none => simp [readEscape, he, hc, bind, Except.bind]
      | some plain => simp [readEscape, he, hc, bind, Except.bind]

/-- What a string holds as it is stands in front of what is read behind it. -/
theorem readString_run {run : List Char} (h : ∀ c ∈ run, isPlain c = true) (s : List Char) :
    readString (run ++ s) = (readString s).map fun found => (run ++ found.1, found.2) := by
  induction run with
  | nil =>
    rw [List.nil_append]
    cases readString s <;> rfl
  | cons c run ih =>
    obtain ⟨hquote, hslash, hc⟩ := isPlain_iff.mp (h c List.mem_cons_self)
    rw [List.cons_append, readString_plain hc hquote hslash,
      ih fun d hd => h d (List.mem_cons_of_mem _ hd), push_eq_map]
    cases readString s <;> rfl

theorem follows_pair (unit : Nat) (h : At text pos s) :
    Follows text Prod.mk (readPair unit s) (scanPair text unit pos) := by
  unfold readPair scanPair
  by_cases hh : isHighSurrogate unit = true
  · simp only [hh, if_true]
    rw [h.bytesFrom?_eq, demand_some_bind, isPrefixOf_utf8 (by decide)]
    cases hr : after? ['\\', 'u'] s with
    | none => exact .ok h
    | some r =>
      obtain rfl := after?_eq_some_iff.mp hr
      have hstep : At text (pos + 2) r := (h.step (by decide)).step (by decide)
      refine (follows_unit hstep).bind fun low rest stop _ hrest => ?_
      dsimp only
      split
      · exact .ok hrest
      · exact .ok h
  · simp only [if_neg hh]
    exact .ok h

theorem ascii_of_shortEscape? {e c : Char} (h : shortEscape? e = some c) : e.toNat < 0x80 := by
  cases shortEscape?_eq_some_iff.mp h <;> decide

theorem shortEscape?_lead (c : Char) : shortEscape? (Char.ofUInt8 (lead c)) = shortEscape? c := by
  by_cases hc : c.toNat < 0x80
  · rw [lead_ascii hc]
    exact forall_ascii (P := fun c => shortEscape? (Char.ofUInt8 c.toUInt8) = shortEscape? c)
      (by decide +kernel) hc
  · have hlead : shortEscape? (Char.ofUInt8 (lead c)) = none :=
      forall_beyond (P := fun b => shortEscape? (Char.ofUInt8 b) = none) (by decide +kernel)
        (le_lead (Nat.not_lt.mp hc))
    rw [hlead, eq_comm, Option.eq_none_iff_forall_ne_some]
    exact fun _ h => hc (ascii_of_shortEscape? h)

theorem follows_escape (h : At text pos s) :
    Follows text Prod.mk (readEscape s) (scanEscape text pos) := by
  unfold readEscape scanEscape
  rw [h.byteAt?_eq]
  cases s with
  | nil => exact .stop h
  | cons e s =>
    simp only [List.head?_cons, Option.map_some, lead_eq_iff (d := 'u') (by decide)]
    by_cases he : e = 'u'
    · subst he
      simp only [if_true]
      exact (follows_unit (h.step (by decide))).bind fun unit _ _ _ hrest => follows_pair unit hrest
    · simp only [if_neg he]
      rw [shortEscape?_lead]
      cases hc : shortEscape? e with
      | none =>
        rw [toNat_lead]
        exact .stop h
      | some plain => exact .ok (h.step (ascii_of_shortEscape? hc))

theorem suffix_of_readUnit {unit : Nat} {rest : List Char} (h : readUnit s = .ok (unit, rest)) :
    rest <:+ s := by
  obtain ⟨n, -, he⟩ := exists_of_map_eq_ok h
  cases he
  exact List.drop_suffix 4 s

theorem suffix_of_readPair {unit : Nat} {c : Char} {rest : List Char}
    (h : readPair unit s = .ok (c, rest)) : rest <:+ s := by
  have heq {d : Char} {r : List Char}
      (he : (.ok (d, r) : Except Stop (Char × List Char)) = .ok (c, rest)) : r = rest :=
    (Prod.mk.inj (Except.ok.inj he)).2
  unfold readPair at h
  split at h
  · cases hr : after? ['\\', 'u'] s with
    | none =>
      rw [hr] at h
      exact heq h ▸ List.suffix_refl s
    | some r =>
      rw [hr] at h
      have hs : r <:+ s := ⟨['\\', 'u'], (after?_eq_some_iff.mp hr).symm⟩
      obtain ⟨⟨low, rest'⟩, hu, he⟩ := exists_of_bind_eq_ok h
      dsimp only at he
      split at he
      · exact heq he ▸ (suffix_of_readUnit hu).trans hs
      · exact heq he ▸ List.suffix_refl s
  · exact heq h ▸ List.suffix_refl s

/-- An escape takes a character at least. -/
theorem length_lt_of_readEscape {c : Char} {rest : List Char} (h : readEscape s = .ok (c, rest)) :
    rest.length < s.length := by
  cases s with
  | nil => cases h
  | cons e s =>
    have hsuffix : rest <:+ s := by
      by_cases he : e = 'u'
      · simp only [readEscape, if_pos he] at h
        obtain ⟨⟨unit, rest'⟩, hu, hp⟩ := exists_of_bind_eq_ok h
        exact (suffix_of_readPair hp).trans (suffix_of_readUnit hu)
      · simp only [readEscape, if_neg he] at h
        split at h
        · cases h
          exact List.suffix_refl _
        · cases h
    exact Nat.lt_succ_of_le hsuffix.length_le

/-! ## Strings -/

theorem readString_control {c : Char} (hc : isPlain c = false) (hquote : c ≠ '"') (hslash : c ≠ '\\')
    (s : List Char) : readString (c :: s) = .error ⟨.controlInString, c :: s⟩ := by
  have hlt : c.toNat < 0x20 := by
    by_contra hle
    rw [isPlain_iff.mpr ⟨hquote, hslash, Nat.not_lt.mp hle⟩] at hc
    cases hc
  rw [readString_step]
  simp [hquote, hslash, hlt]

/-- The first character behind what a string holds as it is. -/
theorem not_isPlain_of_dropWhile {c : Char} {r : List Char} (h : s.dropWhile isPlain = c :: r) :
    isPlain c = false := by
  have hne : s.dropWhile isPlain ≠ [] := by rw [h]; exact List.cons_ne_nil c r
  have hhead := List.head_dropWhile_not isPlain hne
  simpa [h] using hhead

theorem follows_string {fuel : Nat} (hf : s.length < fuel) (h : At text pos s) :
    Follows text Prod.mk (readString s) (scanString text fuel pos) := by
  induction fuel generalizing s pos with
  | zero => exact absurd hf (Nat.not_lt_zero _)
  | succ fuel ih =>
    have hstop := h.dropWhile agree_plain
    have hplain : ∀ c ∈ s.takeWhile isPlain, isPlain c = true :=
      List.all_eq_true.mp List.all_takeWhile
    have hsplit := List.takeWhile_append_dropWhile (p := isPlain) (l := s)
    have hcut : slice? pos (passOver isPlainByte text pos) text = some (s.takeWhile isPlain) := by
      rw [← hsplit] at h
      exact h.slice?_eq hstop
    have hread := readString_run hplain (s.dropWhile isPlain)
    rw [hsplit] at hread
    rw [hread, scanString]
    dsimp only
    rw [hstop.byteAt?_eq, hcut]
    have hlength : (s.dropWhile isPlain).length ≤ s.length :=
      (List.dropWhile_suffix isPlain).length_le
    cases hd : s.dropWhile isPlain with
    | nil =>
      rw [hd] at hstop
      exact .stop hstop
    | cons c r =>
      have hc := not_isPlain_of_dropWhile hd
      rw [hd] at hstop hlength
      rw [List.length_cons] at hlength
      simp only [List.head?_cons, Option.map_some, lead_eq_iff (d := '"') (by decide),
        lead_eq_iff (d := '\\') (by decide)]
      by_cases hquote : c = '"'
      · subst hquote
        rw [readString_quote]
        have hend : At text (passOver isPlainByte text pos + 1) r := hstop.step (by decide)
        simp only [if_true, Except.map, List.append_nil]
        exact .ok hend
      · by_cases hslash : c = '\\'
        · subst hslash
          have hbind : (readString ('\\' :: r)).map (fun found =>
              (s.takeWhile isPlain ++ found.1, found.2)) = (do
              let escaped ← readEscape r
              let found ← readString escaped.2
              return (s.takeWhile isPlain ++ escaped.1 :: found.1, found.2)) := by
            rw [readString_backslash]
            cases readEscape r with
            | error stop => rfl
            | ok found =>
              simp only [bind, Except.bind, push_eq_map]
              cases readString found.2 <;> rfl
          rw [hbind]
          refine (follows_escape (hstop.step (by decide))).bind fun c s next he hs => ?_
          have hshort := length_lt_of_readEscape he
          exact (ih (by omega) hs).bind fun cs rest last _ hrest => .ok hrest
        · rw [readString_control hc hquote hslash]
          simp only [if_neg hquote, if_neg hslash]
          exact .stop hstop

end ModuleLoader.Json
