import ModuleLoader.Proofs.Json.Offsets

/-! Where readers stop. What a reader has passed over when it stops can be completed to a text of its
rule, so nothing before the place of a fault is wrong yet. -/

namespace ModuleLoader.Json

open Grammar Text

variable {α : Type}

/-- Whether a text can be completed to one of the rule. -/
def Viable (Rule : List Char → α → Prop) (front : List Char) : Prop := ∃ back a, Rule (front ++ back) a

/-- Whether a reader stops behind a text that can be completed. -/
def Halts (read : List Char → Except Stop (α × List Char)) (Rule : List Char → α → Prop) : Prop :=
  ∀ ⦃s stop⦄, read s = .error stop → ∃ front, s = front ++ stop.rest ∧ Viable Rule front

theorem exists_of_bind_eq_error {ε β : Type} {x : Except ε α} {f : α → Except ε β} {e : ε}
    (h : (x >>= f) = .error e) : x = .error e ∨ ∃ a, x = .ok a ∧ f a = .error e := by
  cases x with
  | error e' => exact .inl (congrArg Except.error (Except.error.inj h))
  | ok a => exact .inr ⟨a, rfl, h⟩

theorem map_eq_error_iff {ε β : Type} {x : Except ε α} {f : α → β} {e : ε} :
    x.map f = .error e ↔ x = .error e := by
  cases x <;> simp [Except.map]

/-! ## Strings -/

theorem hexUnit_zero : HexUnit '0' '0' '0' '0' 0 :=
  unit?_eq_some_iff.mp (by decide)

theorem eq_of_lowEscape?_eq_error {s : List Char} {stop : Stop} (h : lowEscape? s = .error stop) :
    s = '\\' :: 'u' :: stop.rest := by
  unfold lowEscape? at h
  split at h
  · cases h
  · next r hr =>
    split at h
    · cases h
    · next stop' hu =>
      obtain rfl := Except.error.inj h
      have hrest : stop'.rest = r := congrArg Stop.rest (stop_of_unitAt hu)
      rw [hrest]
      exact after?_eq_some_iff.mp hr

theorem eq_of_push_eq_error {c : Char} {read : Except Stop (List Char × List Char)} {stop : Stop}
    (h : push c read = .error stop) : read = .error stop := by
  cases read with
  | error stop' => exact h
  | ok found => cases h

theorem halts_string {s : List Char} {stop : Stop} (h : readString s = .error stop) :
    ∃ front, s = front ++ stop.rest ∧ Viable Spells front := by
  have hunit {a b c d : Char} {n : Nat} {t : List Char} (hat : unitAt (a :: b :: c :: d :: t) = .ok n)
      (ih : ∃ front, t = front ++ stop.rest ∧ Viable Spells front) :
      ∃ front, '\\' :: 'u' :: a :: b :: c :: d :: t = front ++ stop.rest ∧ Viable Spells front := by
    obtain ⟨front, rfl, back, elements, hs⟩ := ih
    exact ⟨'\\' :: 'u' :: a :: b :: c :: d :: front, rfl, back, _, .unit (hexUnit_of_unitAt hat) hs⟩
  fun_induction readString s with
  | case1 =>
    cases h
    exact ⟨[], rfl, [], [], .nil⟩
  | case2 => cases h
  | case3 =>
    cases h
    exact ⟨['\\'], rfl, ['n'], _, .escape .lineFeed .nil⟩
  | case4 n a b c d s hh stop' hl hne hat =>
    simp only [hat, hh, hl, if_true] at h
    obtain rfl := Except.error.inj h
    rw [eq_of_lowEscape?_eq_error hl]
    exact ⟨['\\', 'u', a, b, c, d, '\\', 'u'], rfl, ['0', '0', '0', '0'], _,
      .unit (hexUnit_of_unitAt hat) (.unit hexUnit_zero .nil)⟩
  | case5 n a b c d s hh hl hne hat ih =>
    simp only [hat, hh, hl, if_true] at h
    exact hunit hat (ih (eq_of_push_eq_error h))
  | case6 n a b c d hh low e f a' b' c' d' s hne hl hat ih =>
    simp only [hat, hh, hl, if_true] at h
    obtain ⟨_, _, _, _, _, hs, hu, -⟩ := exists_of_lowEscape?_eq_some hl
    cases hs
    exact hunit hat (hunit (unitAt_eq_ok_iff.mpr ⟨_, _, _, _, _, rfl, hu⟩)
      (ih (eq_of_push_eq_error h)))
  | case7 n a b c d s hh low hl hshort hne hat =>
    obtain ⟨_, _, _, _, _, hs, -, -⟩ := exists_of_lowEscape?_eq_some hl
    exact (hshort _ _ _ _ _ _ _ hs).elim
  | case8 n a b c d s hh hne hat ih =>
    simp only [hat, hh] at h
    exact hunit hat (ih (eq_of_push_eq_error h))
  | case9 s hshort =>
    split at h
    · next unit a b c d s hat => exact (hshort unit a b c d s hat rfl).elim
    · cases h
      exact ⟨['\\', 'u'], rfl, ['0', '0', '0', '0'], _, .unit hexUnit_zero .nil⟩
  | case10 e s hu plain he hne ih =>
    obtain ⟨front, rfl, back, elements, hs⟩ := ih (eq_of_push_eq_error h)
    exact ⟨'\\' :: e :: front, rfl, back, _, .escape (shortEscape?_eq_some_iff.mp he) hs⟩
  | case11 e s hu he hne =>
    cases h
    exact ⟨['\\'], rfl, ['n'], _, .escape .lineFeed .nil⟩
  | case12 c s hquote hslash hc =>
    cases h
    exact ⟨[], rfl, [], [], .nil⟩
  | case13 c s hquote hslash hc ih =>
    obtain ⟨front, rfl, back, elements, hs⟩ := ih (eq_of_push_eq_error h)
    exact ⟨c :: front, rfl, back, _, .plain (Nat.not_lt.mp hc) hquote hslash hs⟩

/-! ## Numbers -/

theorem rest_of_readDigits {fault : Fault} {s : List Char} {stop : Stop}
    (h : readDigits fault s = .error stop) : stop.rest = s := by
  unfold readDigits at h
  split at h
  · cases h
    rfl
  · cases h

theorem rest_of_readWhole {s : List Char} {stop : Stop} (h : readWhole s = .error stop) :
    stop.rest = s := by
  unfold readWhole at h
  split at h
  · cases h
  · exact rest_of_readDigits h

theorem halts_fraction : Halts readFraction Fraction := by
  intro s stop h
  unfold readFraction at h
  split at h
  · rw [rest_of_readDigits h]
    exact ⟨['.'], rfl, ['0'], _, .some digits_zero⟩
  · cases h

theorem halts_exponent : Halts readExponent Exponent := by
  intro s stop h
  have hstep := readExponent_step s
  generalize readExponent s = answer at h hstep
  cases hstep with
  | @minus e he _ =>
    rw [rest_of_readDigits (map_eq_error_iff.mp h)]
    exact ⟨[e, '-'], rfl, ['0'], _, .minus he digits_zero⟩
  | @plus e he _ =>
    rw [rest_of_readDigits (map_eq_error_iff.mp h)]
    exact ⟨[e, '+'], rfl, ['0'], _, .plus he digits_zero⟩
  | @unsigned e _ he hm hp =>
    rw [rest_of_readDigits (map_eq_error_iff.mp h)]
    exact ⟨[e], rfl, ['0'], _, .unsigned he digits_zero⟩
  | none _ => cases h

theorem halts_number {s : List Char} {stop : Stop} (h : readNumber s = .error stop) :
    ∃ front, s = front ++ stop.rest ∧ Viable Number front := by
  obtain ⟨negative, s, rfl, hs⟩ := exists_minus s
  let sign : List Char := if negative then ['-'] else []
  rw [readNumber_eq negative hs] at h
  rcases exists_of_bind_eq_error h with hw | ⟨⟨whole, s₁⟩, hw, hrest⟩
  · rw [rest_of_readWhole hw]
    exact ⟨sign, rfl, ['0'] ++ [] ++ [], _, by
      simpa [sign] using Number.mk negative (.inl rfl) .none .none⟩
  obtain ⟨t₁, rfl, rfl, hwhole⟩ := reads_whole.sound hw
  rcases exists_of_bind_eq_error hrest with hf | ⟨⟨fraction, s₂⟩, hf, hlast⟩
  · obtain ⟨front, rfl, back, digits, hfraction⟩ := halts_fraction hf
    exact ⟨sign ++ t₁ ++ front, by simp [sign], back ++ [], _, by
      simpa [sign] using Number.mk negative hwhole hfraction .none⟩
  obtain ⟨t₂, rfl, hfraction⟩ := reads_fraction.sound hf
  rcases exists_of_bind_eq_error hlast with he | ⟨⟨power, s₃⟩, -, hok⟩
  · obtain ⟨front, rfl, back, power, hexponent⟩ := halts_exponent he
    exact ⟨sign ++ t₁ ++ t₂ ++ front, by simp [sign], back, _, by
      simpa [sign] using Number.mk negative hwhole hfraction hexponent⟩
  · cases hok

/-! ## Values -/

theorem viable_scalar_nil : Viable Scalar [] := ⟨_, _, .null⟩

theorem rest_of_readWord {word : String} {value : Json} {s : List Char} {stop : Stop}
    (h : readWord word value s = .error stop) : stop.rest = s := by
  unfold readWord at h
  split at h
  · cases h
  · cases h
    rfl

theorem halts_scalar : Halts readScalar Scalar := by
  intro s stop h
  have hhere (hr : stop.rest = s) : ∃ front, s = front ++ stop.rest ∧ Viable Scalar front :=
    ⟨[], hr.symm, viable_scalar_nil⟩
  cases s with
  | nil =>
    cases h
    exact hhere rfl
  | cons c r =>
    by_cases hnumber : c = '-' ∨ '0' ≤ c ∧ c ≤ '9'
    · rw [readScalar_number hnumber, map_eq_error_iff, map_eq_error_iff] at h
      obtain ⟨front, hs, back, x, hn⟩ := halts_number h
      exact ⟨front, hs, back, _, .number hn⟩
    · have hmark : ¬(decide (c = '-') || isAsciiDigit c) = true := by
        simpa [← isAsciiDigit_iff_le] using hnumber
      rw [readScalar] at h
      split_ifs at h with hquote ht hf hn
      · rcases exists_of_bind_eq_error h with hs | ⟨found, -, hok⟩
        · obtain ⟨front, rfl, back, elements, hspells⟩ := halts_string hs
          exact ⟨'"' :: front, by rw [hquote]; rfl, back ++ ['"'], _, .string <| by
            simpa using StringText.quoted hspells⟩
        · cases hok
      · exact hhere (rest_of_readWord h)
      · exact hhere (rest_of_readWord h)
      · exact hhere (rest_of_readWord h)
      · cases h
        exact hhere rfl

/-! ## Lists of items -/

theorem halts_padded {read : List Char → Except Stop (α × List Char)} {Rule : List Char → α → Prop}
    (h : Halts read Rule) : Halts (fun s => read (skipBlanks s)) (Padded Rule) := by
  intro s stop hs
  obtain ⟨blanks, hb, hblanks⟩ := exists_blanks s
  obtain ⟨front, hfront, back, a, ha⟩ := h hs
  have hnone : Blanks [] := by simp [Blanks]
  exact ⟨blanks ++ front, by rw [List.append_assoc, ← hfront, ← hblanks], back, a, by
    simpa using Padded.mk hb ha hnone⟩

section Separated

variable {read : List Char → Except Stop (α × List Char)} {Rule : List Char → α → Prop}
  {close : Char} {fault : Fault}

theorem viable_separated {front : List Char} (h : Viable Rule front) :
    Viable (Separated Rule) front := by
  obtain ⟨back, a, ha⟩ := h
  exact ⟨back, [a], .one ha⟩

/-- Before a comma there is an item, and behind it the list can go on. -/
theorem halts_separated (h : ReadsItem read Rule) (hh : Halts read Rule)
    (hn : Viable Rule []) (fuel : Nat) :
    Halts (readSeparated read close fault fuel) (Separated Rule) := by
  induction fuel with
  | zero =>
    intro s stop hs
    cases hs
    exact ⟨[], rfl, viable_separated hn⟩
  | succ fuel ih =>
    intro s stop hs
    rcases exists_of_bind_eq_error hs with hs | ⟨⟨a, s'⟩, ha, hnext⟩
    · obtain ⟨front, hfront, hv⟩ := hh hs
      exact ⟨front, hfront, viable_separated hv⟩
    obtain ⟨t, rfl, ht⟩ := h.sound ha
    dsimp only at hnext
    split at hnext
    · next hend =>
      cases hnext
      exact ⟨t, by rw [hend], [], [a], by simpa using Separated.one ht⟩
    · next c r hr =>
      split at hnext
      · next hc =>
        rcases exists_of_bind_eq_error hnext with hi | ⟨found, -, hok⟩
        · obtain ⟨front, rfl, back, items, hitems⟩ := ih hi
          exact ⟨t ++ ',' :: front, by simp [hr, hc], back, _, by
            simpa using Separated.cons ht hitems⟩
        · cases hok
      · split at hnext
        · cases hnext
        · cases hnext
          exact ⟨t, by rw [hr], [], [a], by simpa using Separated.one ht⟩

end Separated

/-! ## Arrays and objects -/

section Brackets

variable {item : List Char → Except Stop (Json × List Char)} {Item : List Char → Json → Prop}

theorem stringText_empty : StringText ['"', '"'] "" := .quoted .nil

theorem blanks_nil : Blanks [] := by simp [Blanks]

theorem halts_member (h : Halts item Item) (hn : Viable Item []) :
    Halts (readMember item) (Member Item) := by
  obtain ⟨text, value, hvalue⟩ := hn
  have hpadded : Padded Item text value := by simpa using Padded.mk blanks_nil hvalue blanks_nil
  intro s stop hs
  obtain ⟨front, hf, hfront⟩ := exists_blanks s
  unfold readMember at hs
  split at hs
  · next r hr =>
    rcases exists_of_bind_eq_error hs with hk | ⟨⟨key, s₁⟩, hk, hnext⟩
    · obtain ⟨spelled, rfl, back, elements, hspells⟩ := halts_string hk
      refine ⟨front ++ '"' :: spelled, by rw [hfront, hr]; simp, back ++ '"' :: ':' :: text,
        (String.ofList (decode elements), value), ?_⟩
      simpa using Member.mk (Padded.mk hf (.quoted hspells) blanks_nil) hpadded
    obtain ⟨t, ht, htext⟩ := exists_stringText hk
    obtain ⟨back, hb, hback⟩ := exists_blanks s₁
    have hkey := Padded.mk hf htext hb
    dsimp only at hnext
    split at hnext
    · next r' hr' =>
      rcases exists_of_bind_eq_error hnext with hv | ⟨found, -, hok⟩
      · obtain ⟨front', hfront', back', value', hv'⟩ := halts_padded h hv
        refine ⟨front ++ t ++ back ++ ':' :: front', ?_, back', (String.ofList key, value'), ?_⟩
        · rw [hfront, hr, ht, hback, hr', hfront']
          simp
        · simpa using Member.mk hkey hv'
      · cases hok
    · cases hnext
      refine ⟨front ++ t ++ back, ?_, ':' :: text, _, Member.mk hkey hpadded⟩
      rw [hfront, hr, ht, List.append_assoc, List.append_assoc, ← hback]
  · cases hs
    refine ⟨front, hfront, '"' :: '"' :: ':' :: text, ("", value), ?_⟩
    simpa using Member.mk (Padded.mk hf stringText_empty blanks_nil) hpadded

theorem halts_array (h : ReadsItem (fun s => item (skipBlanks s)) (Padded Item))
    (hh : Halts item Item) (hn : Viable Item []) {s : List Char} {stop : Stop}
    (hs : readArray item s = .error stop) :
    ∃ front, '[' :: s = front ++ stop.rest ∧ Viable (ArrayText Item) front := by
  obtain ⟨text, value, hvalue⟩ := hn
  have hnil : Viable (Padded Item) [] :=
    ⟨text, value, by simpa using Padded.mk blanks_nil hvalue blanks_nil⟩
  unfold readArray at hs
  split at hs
  · cases hs
  · rcases exists_of_bind_eq_error hs with hi | ⟨found, -, hok⟩
    · rw [readItems_eq, readSeparated_skipBlanks h] at hi
      obtain ⟨front, rfl, back, items, hitems⟩ := halts_separated h (halts_padded hh) hnil _ hi
      exact ⟨'[' :: front, rfl, back ++ [']'], _, by simpa using ArrayText.items hitems⟩
    · cases hok

theorem halts_object (h : ReadsItem (readMember item) (Member Item)) (hh : Halts item Item)
    (hn : Viable Item []) {s : List Char} {stop : Stop} (hs : readObject item s = .error stop) :
    ∃ front, '\x7b' :: s = front ++ stop.rest ∧ Viable (ObjectText Item) front := by
  obtain ⟨text, value, hvalue⟩ := hn
  have hpadded : Padded Item text value := by simpa using Padded.mk blanks_nil hvalue blanks_nil
  have hkey : Padded StringText ['"', '"'] "" := by
    simpa using Padded.mk blanks_nil stringText_empty blanks_nil
  have hnil : Viable (Member Item) [] :=
    ⟨'"' :: '"' :: ':' :: text, ("", value), by simpa using Member.mk hkey hpadded⟩
  unfold readObject at hs
  split at hs
  · cases hs
  · rcases exists_of_bind_eq_error hs with hi | ⟨found, -, hok⟩
    · rw [readMembers_eq, readSeparated_skipBlanks h] at hi
      obtain ⟨front, rfl, back, pairs, hpairs⟩ :=
        halts_separated h (halts_member hh ⟨text, value, hvalue⟩) hnil _ hi
      exact ⟨'\x7b' :: front, rfl, back ++ ['\x7d'], _, by
        simpa using ObjectText.members hpairs (Members.collects_ofList pairs)⟩
    · cases hok

end Brackets

theorem viable_value_nil (depth : Nat) : Viable (ValueText depth) [] :=
  ⟨_, _, value_of_scalar .null⟩

theorem halts_value (depth : Nat) : Halts (readValue depth) (ValueText depth) := by
  have hscalar {depth : Nat} {s : List Char} {stop : Stop} (h : readScalar s = .error stop) :
      ∃ front, s = front ++ stop.rest ∧ Viable (ValueText depth) front := by
    obtain ⟨front, hs, back, value, hv⟩ := halts_scalar h
    exact ⟨front, hs, back, value, value_of_scalar hv⟩
  induction depth with
  | zero =>
    intro s stop h
    have hstep := readValue_step 0 s
    generalize readValue 0 s = answer at h hstep
    cases hstep with
    | refused hc r =>
      -- The bracket is refused where it stands, and a scalar could stand there.
      cases h
      exact ⟨[], rfl, viable_value_nil 0⟩
    | scalar hb ha => exact hscalar h
  | succ depth ih =>
    have hitem := readsItem_padded (reads_value depth) fun _ _ h => exists_head_of_value h
    have hmember := readsItem_member hitem
    intro s stop h
    have hstep := readValue_step (depth + 1) s
    generalize readValue (depth + 1) s = answer at h hstep
    cases hstep with
    | object _ r =>
      obtain ⟨front, hs, back, value, hv⟩ := halts_object hmember ih (viable_value_nil depth) h
      exact ⟨front, hs, back, value, .inr (.inr hv)⟩
    | array _ r =>
      obtain ⟨front, hs, back, value, hv⟩ := halts_array hitem ih (viable_value_nil depth) h
      exact ⟨front, hs, back, value, .inr (.inl hv)⟩
    | scalar hb ha => exact hscalar h

/-! ## Documents -/

theorem halts_document {s : List Char} {stop : Stop} (h : readDocument s = .error stop) :
    ∃ front, s = front ++ stop.rest ∧ Viable (Padded (ValueText depthLimit)) front := by
  have hitem := readsItem_padded (reads_value depthLimit) fun _ _ h => exists_head_of_value h
  rcases exists_of_bind_eq_error h with hv | ⟨⟨value, rest⟩, hv, hend⟩
  · exact halts_padded (halts_value depthLimit) hv
  · obtain ⟨t, ht, hp⟩ := hitem.sound hv
    dsimp only at hend
    split at hend
    · cases hend
    · cases hend
      exact ⟨t, ht, [], value, by simpa using hp⟩

/-- The front that a refused text is refused behind. -/
theorem exists_front_of_parse {text : String} {e : ParseError} (h : parse text = .error e) :
    ∃ front rest, text.toList = front ++ rest ∧ byteLength front = e.offset ∧
      Viable (Padded (ValueText depthLimit)) front := by
  unfold parse at h
  cases hs : readDocument text.toList with
  | ok value =>
    rw [hs] at h
    cases h
  | error stop =>
    rw [hs] at h
    obtain ⟨front, hfront, hviable⟩ := halts_document hs
    cases h
    refine ⟨front, stop.rest, hfront, ?_, hviable⟩
    rw [hfront, byteLength_append]
    dsimp only
    omega

/-- A refused text is refused at an offset between two of its characters or at its end, and what
stands before it can be completed to a text that is read. On its way there, as on the way through any
text, no index is outside of the text and no cut is inside of a character. -/
theorem refused_at_first_fault (text : String) :
    parseByOffsets? text = some (parse text) ∧
    ∀ e, parse text = .error e →
      e.offset ≤ text.utf8ByteSize ∧ (String.Pos.Raw.mk e.offset).IsValid text ∧
        ∃ front rest, text = front ++ rest ∧ front.utf8ByteSize = e.offset ∧
          ∃ back value, parse (front ++ back) = .ok value := by
  refine ⟨parseByOffsets?_eq text, fun e h => ?_⟩
  obtain ⟨front, rest, hfront, hoffset, back, value, hvalue⟩ := exists_front_of_parse h
  have htext : text = String.ofList front ++ String.ofList rest := by
    rw [← String.ofList_append, ← hfront, String.ofList_toList]
  have hsize : (String.ofList front).utf8ByteSize = e.offset := by
    rw [utf8ByteSize_ofList, hoffset]
  refine ⟨?_, ?_, String.ofList front, String.ofList rest, htext, hsize, String.ofList back, value, ?_⟩
  · rw [htext, String.utf8ByteSize_append, hsize]
    exact Nat.le_add_right _ _
  · refine String.Pos.Raw.isValid_iff_exists_append.mpr ⟨_, _, htext, ?_⟩
    rw [← hsize]
    rfl
  · rw [parse_eq_ok_iff, ← String.ofList_append, String.toList_ofList]
    exact hvalue

/-- A pair of surrogates that breaks off in its second half, inside of a string, an array and an object
that are still open, is refused behind the last mark that is right. -/
theorem refused_at_first_fault_in_pair :
    parse "\x7b\"é\": [1, \"\\ud83d\\u12\"]\x7d" = .error ⟨20, .invalidUnit⟩ ∧
      ∃ front rest, "\x7b\"é\": [1, \"\\ud83d\\u12\"]\x7d" = front ++ rest ∧
        front.utf8ByteSize = 20 ∧ ∃ back value, parse (front ++ back) = .ok value := by
  have hparse : parse "\x7b\"é\": [1, \"\\ud83d\\u12\"]\x7d" = .error ⟨20, .invalidUnit⟩ := by
    have hunit : (parse "\x7b\"é\": [1, \"\\ud83d\\u12\"]\x7d").map (fun _ => ()) =
        .error ⟨20, .invalidUnit⟩ := by decide +kernel
    exact map_eq_error_iff.mp hunit
  obtain ⟨-, hfault⟩ := refused_at_first_fault "\x7b\"é\": [1, \"\\ud83d\\u12\"]\x7d"
  exact ⟨hparse, (hfault _ hparse).2.2⟩

end ModuleLoader.Json
