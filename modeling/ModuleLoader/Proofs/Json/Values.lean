import ModuleLoader.Proofs.Json.Lists

/-! Values and documents. The reader takes exactly the texts of the grammar and gives what they
mean, level by level of nesting. -/

namespace ModuleLoader.Json

open Grammar Text

/-! ## Scalars -/

theorem value_of_scalar {depth : Nat} {s : List Char} {value : Json} (h : Scalar s value) :
    ValueText depth s value := by
  cases depth with
  | zero => exact h
  | succ depth => exact .inl h

theorem readWord_sound {word : String} {value v : Json} {s rest : List Char}
    (h : readWord word value s = .ok (v, rest)) : s = word.toList ++ rest ∧ v = value := by
  unfold readWord at h
  split at h
  · next r hr =>
    cases h
    exact ⟨after?_eq_some_iff.mp hr, rfl⟩
  · cases h

theorem readWord_complete (word : String) (value : Json) (rest : List Char) :
    readWord word value (word.toList ++ rest) = .ok (value, rest) := by
  have h : after? word.toList (word.toList ++ rest) = some rest := after?_eq_some_iff.mpr rfl
  rw [readWord, h]

def readScalar : List Char → Except Stop (Json × List Char)
  | [] => .error ⟨.endOfInput, []⟩
  | c :: r =>
    if c = '"' then do
      let (text, rest) ← readString r
      return (.string (String.ofList text), rest)
    else if c = 't' then readWord "true" (.bool true) (c :: r)
    else if c = 'f' then readWord "false" (.bool false) (c :: r)
    else if c = 'n' then readWord "null" .null (c :: r)
    else if c = '-' || isAsciiDigit c then do
      let (token, rest) ← readNumber (c :: r)
      return (.number token.value, rest)
    else .error ⟨.unexpected (leadByte c), c :: r⟩

theorem readValue_of_scalar (depth : Nat) {s : List Char} (hb : s.head? ≠ some '\x7b')
    (ha : s.head? ≠ some '[') : readValue depth s = readScalar s := by
  cases s with
  | nil => rw [readValue, readScalar]
  | cons c r =>
    have hb' : c ≠ '\x7b' := by simpa using hb
    have ha' : c ≠ '[' := by simpa using ha
    rw [readValue.eq_def, readScalar]
    simp [hb', ha']

theorem readScalar_number {c : Char} (hc : c = '-' ∨ '0' ≤ c ∧ c ≤ '9') (r : List Char) :
    readScalar (c :: r) =
      ((readNumber (c :: r)).map fun found => (found.1.value, found.2)).map
        fun found => (.number found.1, found.2) := by
  have hmark : (decide (c = '-') || isAsciiDigit c) = true := by
    simpa [← isAsciiDigit_iff_le] using hc
  have hother : c ≠ '"' ∧ c ≠ 't' ∧ c ≠ 'f' ∧ c ≠ 'n' := by
    refine ⟨?_, ?_, ?_, ?_⟩
    all_goals
      rintro rfl
      exact absurd hc (by decide)
  obtain ⟨hquote, ht, hf, hn⟩ := hother
  rw [readScalar, if_neg hquote, if_neg ht, if_neg hf, if_neg hn, if_pos hmark]
  cases readNumber (c :: r) <;> rfl

theorem reads_scalar : Reads readScalar Scalar NoNumber where
  sound {s rest value} h := by
    cases s with
    | nil => cases h
    | cons c r =>
      by_cases hnumber : c = '-' ∨ '0' ≤ c ∧ c ≤ '9'
      · rw [readScalar_number hnumber] at h
        obtain ⟨⟨x, rest'⟩, hx, he⟩ := exists_of_map_eq_ok h
        cases he
        obtain ⟨t, ht, hn⟩ := reads_number.sound hx
        exact ⟨t, ht, .number hn⟩
      · have hmark : ¬(decide (c = '-') || isAsciiDigit c) = true := by
          simpa [← isAsciiDigit_iff_le] using hnumber
        rw [readScalar] at h
        split_ifs at h with hquote ht hf hn
        · obtain ⟨⟨cs, rest'⟩, hs, he⟩ := exists_of_bind_eq_ok h
          cases he
          obtain ⟨t, ht, htext⟩ := exists_stringText hs
          exact ⟨t, by rw [hquote, ht], .string htext⟩
        · obtain ⟨hs, rfl⟩ := readWord_sound h
          exact ⟨_, hs, .true⟩
        · obtain ⟨hs, rfl⟩ := readWord_sound h
          exact ⟨_, hs, .false⟩
        · obtain ⟨hs, rfl⟩ := readWord_sound h
          exact ⟨_, hs, .null⟩
  complete {t rest value} h hr := by
    cases h with
    | null => exact readWord_complete "null" .null rest
    | true => exact readWord_complete "true" (.bool true) rest
    | false => exact readWord_complete "false" (.bool false) rest
    | number hn =>
      obtain ⟨c, r, rfl, hc⟩ := exists_head_of_number hn
      have hread := reads_number.complete hn hr
      rw [List.cons_append] at hread ⊢
      rw [readScalar_number hc, hread]
      rfl
    | string ht =>
      obtain ⟨r, cs, hquote, hread, rfl⟩ := exists_readString_eq_ok ht rest
      rw [hquote, readScalar, if_pos rfl, hread]
      rfl

/-! ## Values -/

theorem exists_head_of_scalar {s : List Char} {value : Json} (h : Scalar s value) :
    ∃ c r, s = c :: r ∧ ¬IsBlank c ∧ c ∉ ['\x7b', '\x7d', '[', ']'] := by
  cases h with
  | null => exact ⟨'n', _, rfl, by simp [IsBlank], by decide⟩
  | true => exact ⟨'t', _, rfl, by simp [IsBlank], by decide⟩
  | false => exact ⟨'f', _, rfl, by simp [IsBlank], by decide⟩
  | number hn =>
    obtain ⟨c, r, rfl, hc⟩ := exists_head_of_number hn
    refine ⟨c, r, rfl, ?_, ?_⟩
    · rintro (rfl | rfl | rfl | rfl) <;> exact absurd hc (by decide)
    · intro hm
      simp only [List.mem_cons, List.not_mem_nil, or_false] at hm
      rcases hm with rfl | rfl | rfl | rfl <;> exact absurd hc (by decide)
  | string ht =>
    cases ht
    exact ⟨'"', _, rfl, by simp [IsBlank], by decide⟩

theorem exists_head_of_value {depth : Nat} {s : List Char} {value : Json}
    (h : ValueText depth s value) : ∃ c r, s = c :: r ∧ ¬IsBlank c ∧ c ≠ ']' ∧ c ≠ '\x7d' := by
  have hscalar (h : Scalar s value) : ∃ c r, s = c :: r ∧ ¬IsBlank c ∧ c ≠ ']' ∧ c ≠ '\x7d' := by
    obtain ⟨c, r, rfl, hb, hm⟩ := exists_head_of_scalar h
    simp only [List.mem_cons, List.not_mem_nil, or_false, not_or] at hm
    exact ⟨c, r, rfl, hb, hm.2.2.2, hm.2.1⟩
  cases depth with
  | zero => exact hscalar h
  | succ depth =>
    rcases h with h | h | h
    · exact hscalar h
    · cases h <;> exact ⟨'[', _, rfl, by simp [IsBlank], by decide, by decide⟩
    · cases h <;> exact ⟨'\x7b', _, rfl, by simp [IsBlank], by decide, by decide⟩

theorem readValue_bracket (depth : Nat) (r : List Char) :
    readValue (depth + 1) ('[' :: r) = readArray (readValue depth) r := by
  rw [readValue.eq_def]
  rfl

theorem readValue_brace (depth : Nat) (r : List Char) :
    readValue (depth + 1) ('\x7b' :: r) = readObject (readValue depth) r := by
  rw [readValue.eq_def]
  rfl

/-- How a value is read, by what the text begins with. Both brackets are refused at the limit. -/
inductive ValueStep : Nat → List Char → Except Stop (Json × List Char) → Prop
  | refused {c : Char} (hc : c = '\x7b' ∨ c = '[') (r : List Char) :
    ValueStep 0 (c :: r) (.error ⟨.nestingTooDeep, c :: r⟩)
  | object (depth : Nat) (r : List Char) :
    ValueStep (depth + 1) ('\x7b' :: r) (readObject (readValue depth) r)
  | array (depth : Nat) (r : List Char) :
    ValueStep (depth + 1) ('[' :: r) (readArray (readValue depth) r)
  | scalar {depth : Nat} {s : List Char} (hb : s.head? ≠ some '\x7b') (ha : s.head? ≠ some '[') :
    ValueStep depth s (readScalar s)

theorem readValue_step (depth : Nat) (s : List Char) : ValueStep depth s (readValue depth s) := by
  by_cases hb : s.head? = some '\x7b'
  · obtain ⟨r, rfl⟩ := List.head?_eq_some_iff.mp hb
    cases depth with
    | zero =>
      rw [readValue.eq_def]
      exact .refused (.inl rfl) r
    | succ depth => exact readValue_brace depth r ▸ .object depth r
  · by_cases ha : s.head? = some '['
    · obtain ⟨r, rfl⟩ := List.head?_eq_some_iff.mp ha
      cases depth with
      | zero =>
        rw [readValue.eq_def]
        exact .refused (.inr rfl) r
      | succ depth => exact readValue_bracket depth r ▸ .array depth r
    · exact readValue_of_scalar depth hb ha ▸ .scalar hb ha

theorem readValue_scalar_complete (depth : Nat) {t rest : List Char} {value : Json}
    (h : Scalar t value) (hr : NoNumber rest) :
    readValue depth (t ++ rest) = .ok (value, rest) := by
  have hread := reads_scalar.complete h hr
  obtain ⟨c, r, rfl, -, hm⟩ := exists_head_of_scalar h
  simp only [List.mem_cons, List.not_mem_nil, or_false, not_or] at hm
  rwa [readValue_of_scalar depth (by simpa using hm.1) (by simpa using hm.2.2.1)]

theorem reads_value (depth : Nat) : Reads (readValue depth) (ValueText depth) NoNumber := by
  have hscalar {depth : Nat} {s rest : List Char} {value : Json}
      (h : readScalar s = .ok (value, rest)) : ∃ t, s = t ++ rest ∧ ValueText depth t value := by
    obtain ⟨t, ht, hs⟩ := reads_scalar.sound h
    exact ⟨t, ht, value_of_scalar hs⟩
  induction depth with
  | zero =>
    refine ⟨fun {s rest value} h => ?_, fun h hr => readValue_scalar_complete 0 h hr⟩
    have hstep := readValue_step 0 s
    generalize readValue 0 s = answer at h hstep
    cases hstep with
    | refused hc r => cases h
    | scalar hb ha => exact hscalar h
  | succ depth ih =>
    have hitem := readsItem_padded ih fun _ _ h => exists_head_of_value h
    have hmember := readsItem_member hitem
    constructor
    · intro s rest value h
      have hstep := readValue_step (depth + 1) s
      generalize readValue (depth + 1) s = answer at h hstep
      cases hstep with
      | object _ r =>
        obtain ⟨t, ht, hobject⟩ := readObject_sound hmember h
        exact ⟨t, ht, .inr (.inr hobject)⟩
      | array _ r =>
        obtain ⟨t, ht, harray⟩ := readArray_sound hitem h
        exact ⟨t, ht, .inr (.inl harray)⟩
      | scalar hb ha => exact hscalar h
    · intro t rest value h hr
      rcases h with h | h | h
      · exact readValue_scalar_complete _ h hr
      · obtain ⟨s, hs, hread⟩ := readArray_complete hitem h rest
        rw [hs, readValue_bracket, hread]
      · obtain ⟨s, hs, hread⟩ := readObject_complete hmember h rest
        rw [hs, readValue_brace, hread]

theorem readDocument_eq_ok_iff (s : List Char) (value : Json) :
    readDocument s = .ok value ↔ Padded (ValueText depthLimit) s value := by
  have hitem := readsItem_padded (reads_value depthLimit) fun _ _ h => exists_head_of_value h
  constructor
  · intro h
    obtain ⟨⟨v, rest⟩, hv, hrest⟩ := exists_of_bind_eq_ok h
    obtain ⟨t, ht, hp⟩ := hitem.sound hv
    dsimp only at hrest
    split at hrest
    · next hend =>
      cases hrest
      rw [hend, List.append_nil] at ht
      exact ht ▸ hp
    · cases hrest
  · intro h
    have hend : Closes [] := by simp [Closes]
    obtain ⟨rest, hread, hskip⟩ := hitem.complete h hend
    rw [List.append_nil] at hread
    rw [readDocument, hread]
    simp only [bind, Except.bind, hskip, pure, Except.pure]

/-- A text is read just when it is a value with blanks around it, by the grammar, in which arrays
and objects nest at most 512 deep, and it is read as what the grammar says it means. -/
theorem parse_eq_ok_iff (text : String) (value : Json) :
    parse text = .ok value ↔ Padded (ValueText 512) text.toList value := by
  have hdocument := readDocument_eq_ok_iff text.toList value
  rw [← show depthLimit = 512 from rfl, ← hdocument, parse]
  cases readDocument text.toList with
  | ok v => simp
  | error stop => simp

end ModuleLoader.Json
