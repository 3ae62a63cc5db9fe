import ModuleLoader.Proofs.Json.ScannedStrings
import ModuleLoader.Proofs.Json.Values

/-! Documents by byte offsets. Every reading of a number or of a value by offsets is the reading of
what is left, so none of the indices and cuts that are made on the way fails. -/

namespace ModuleLoader.Json

open Grammar Text

variable {α γ : Type} {text s : List Char} {pos : Nat}

/-! ## Numbers -/

theorem Follows.forget {f : α → γ} {x : Except Stop (α × List Char)} {y : Scan Nat}
    (h : Follows text (fun _ pos => pos) x y) :
    Follows text (fun _ pos => pos) (x.map fun found => (f found.1, found.2)) y := by
  cases h with
  | ok h => exact .ok h
  | stop h => exact .stop h

theorem follows_digits (fault : Fault) (h : At text pos s) :
    Follows text (fun _ pos => pos) (readDigits fault s) (skipDigits text fault pos) := by
  have hend := h.dropWhile agree_digit
  unfold readDigits skipDigits takeDigits
  rw [h.byteAt?_eq]
  cases s with
  | nil => exact .stop h
  | cons c s =>
    simp only [List.head?_cons, Option.map_some, agree_digit.lead]
    by_cases hc : isAsciiDigit c = true
    · rw [List.dropWhile_cons_of_pos hc] at hend
      rw [List.takeWhile_cons_of_pos hc, List.dropWhile_cons_of_pos hc, if_pos hc]
      exact .ok hend
    · rw [List.takeWhile_cons_of_neg hc, if_neg hc]
      exact .stop h

theorem follows_whole (h : At text pos s) :
    Follows text (fun _ pos => pos) (readWhole s) (skipWhole text pos) := by
  refine follows_mark h (by decide) (fun r hs hr => ?_) fun hzero => ?_
  · subst hs
    exact .ok hr
  · unfold readWhole
    split
    · exact absurd rfl hzero
    · exact follows_digits _ h

theorem follows_fraction (h : At text pos s) :
    Follows text (fun _ pos => pos) (readFraction s) (skipFraction text pos) := by
  refine follows_mark h (by decide) (fun r hs hr => ?_) fun hpoint => ?_
  · subst hs
    exact follows_digits _ hr
  · unfold readFraction
    split
    · exact absurd rfl hpoint
    · exact .ok h

theorem follows_exponent (h : At text pos s) :
    Follows text (fun _ pos => pos) (readExponent s) (skipExponent text pos) := by
  have hbehind {e : Char} {r : List Char} (he : e = 'e' ∨ e = 'E') (h : At text pos (e :: r)) :
      At text (pos + 1) r := h.step (by rcases he with rfl | rfl <;> decide)
  unfold skipExponent
  simp only [h.byteAt?_eq_some_iff (d := 'e') (by decide),
    h.byteAt?_eq_some_iff (d := 'E') (by decide)]
  have hstep := readExponent_step s
  generalize readExponent s = answer at hstep ⊢
  cases hstep with
  | minus he r =>
    have hr := hbehind he h
    rw [if_pos (by simpa using he), if_pos (.inl ((hr.byteAt?_eq_some_iff (by decide)).mpr rfl))]
    exact (follows_digits _ (hr.step (by decide))).forget (f := fun ds => -(digitsValue ds : Int))
  | plus he r =>
    have hr := hbehind he h
    rw [if_pos (by simpa using he), if_pos (.inr ((hr.byteAt?_eq_some_iff (by decide)).mpr rfl))]
    exact (follows_digits _ (hr.step (by decide))).forget (f := fun ds => (digitsValue ds : Int))
  | @unsigned e r he hm hp =>
    have hr := hbehind he h
    simp only [hr.byteAt?_eq_some_iff (d := '-') (by decide),
      hr.byteAt?_eq_some_iff (d := '+') (by decide)]
    rw [if_pos (by simpa using he), if_neg (not_or.mpr ⟨hm, hp⟩)]
    exact (follows_digits _ hr).forget (f := fun ds => (digitsValue ds : Int))
  | none hnone =>
    rw [if_neg fun hc => hc.elim (fun he => hnone _ he (.inl rfl)) fun he => hnone _ he (.inr rfl)]
    exact .ok h

theorem follows_token (h : At text pos s) :
    Follows text (fun _ pos => pos) (readNumber s) (skipNumber text pos) := by
  have hparts {negative : Bool} {s : List Char} {pos : Nat} (h : At text pos s) :
      Follows text (fun _ pos => pos) (do
        let whole ← readWhole s
        let fraction ← readFraction whole.2
        let exponent ← readExponent fraction.2
        return ((⟨negative, whole.1, fraction.1, exponent.1⟩ : NumberToken), exponent.2)) (do
        let pos ← skipWhole text pos
        let pos ← skipFraction text pos
        skipExponent text pos) := by
    refine (follows_whole h).bind fun whole s₁ pos₁ _ h₁ => ?_
    refine (follows_fraction h₁).bind fun fraction s₂ pos₂ _ h₂ => ?_
    exact (follows_exponent h₂).forget
  obtain ⟨negative, s, rfl, hs⟩ := exists_minus s
  rw [readNumber_eq negative hs, skipNumber]
  simp only [h.byteAt?_eq_some_iff (d := '-') (by decide)]
  cases negative with
  | true => exact hparts (h.step (by decide))
  | false =>
    simp only [Bool.false_eq_true, if_false, List.nil_append] at h ⊢
    rw [if_neg (hs rfl)]
    exact hparts h

theorem double?_eq {t : List Char} {x : Binary64} (h : Number t x) : double? t = some x := by
  have hend : NoNumber [] := by simp [NoNumber]
  have hread := reads_number.complete h hend
  rw [List.append_nil] at hread
  obtain ⟨⟨token, rest⟩, ht, he⟩ := exists_of_map_eq_ok hread
  cases he
  rw [double?, ht]

theorem follows_number (h : At text pos s) : Follows text Prod.mk (do
    let (token, rest) ← readNumber s
    return (Json.number token.value, rest)) (scanNumber text pos) := by
  refine (follows_token h).bind fun token rest stop hn hrest => ?_
  have hvalue : (readNumber s).map (fun found => (found.1.value, found.2)) =
      .ok (token.value, rest) := by rw [hn]; rfl
  obtain ⟨t, rfl, hnumber⟩ := reads_number.sound hvalue
  dsimp only
  rw [h.slice?_eq hrest, demand_some_bind, double?_eq hnumber, demand_some_bind]
  exact .ok hrest

/-! ## Values -/

theorem follows_word {word : String} (hw : word.toList.all (·.toNat < 0x80) = true) (value : Json)
    (h : At text pos s) :
    Follows text Prod.mk (readWord word value s) (scanWord text word value pos) := by
  unfold readWord scanWord
  rw [h.bytesFrom?_eq, demand_some_bind, isPrefixOf_utf8 hw]
  cases hr : after? word.toList s with
  | none => exact .stop h
  | some rest =>
    rw [after?_eq_some_iff.mp hr] at h
    exact .ok h.append

theorem at_skipBlanks (h : At text pos s) : At text (passOver isBlankByte text pos) (skipBlanks s) :=
  h.dropWhile agree_blank

section Separated

variable {read : List Char → Except Stop (α × List Char)} {Rule : List Char → α → Prop}
  {item : Nat → Scan (α × Nat)} {close : Char} {fault : Fault}

/-- Each item takes something of the text, so that its length is fuel enough for both. -/
theorem follows_separated (hr : ReadsItem read Rule)
    (hi : ∀ ⦃s pos⦄, At text pos s → Follows text Prod.mk (read s) (item pos))
    (hc : close.toNat < 0x80) {n m : Nat} (hn : s.length < n) (hm : s.length < m)
    (h : At text pos s) : Follows text Prod.mk (readSeparated read close fault n s)
      (scanSeparated text item close fault m pos) := by
  induction n generalizing m s pos with
  | zero => exact absurd hn (Nat.not_lt_zero _)
  | succ n ih =>
    obtain ⟨m, rfl⟩ := Nat.exists_eq_add_one_of_ne_zero (Nat.ne_zero_of_lt hm)
    rw [readSeparated, scanSeparated]
    refine (hi h).bind fun a s' pos' ha hs' => ?_
    obtain ⟨t, rfl, -⟩ := hr.sound ha
    have hb := at_skipBlanks hs'
    dsimp only
    simp only [hb.byteAt?_eq_some_iff (d := ',') (by decide), hb.byteAt?_eq_some_iff hc]
    cases hd : skipBlanks s' with
    | nil =>
      rw [hd] at hb
      exact .stop hb
    | cons c r =>
      rw [hd] at hb
      simp only [hd, List.length_append, List.length_cons] at hn hm
      simp only [List.head?_cons, Option.some.injEq]
      by_cases hcomma : c = ','
      · subst hcomma
        simp only [if_true]
        exact (ih (by omega) (by omega) (hb.step (by decide))).bind fun items _ _ _ hrest => .ok hrest
      · by_cases hclose : c = close
        · subst hclose
          simp only [if_neg hcomma, if_true]
          exact .ok (hb.step hc)
        · simp only [if_neg hcomma, if_neg hclose]
          exact .stop hb

end Separated

section Brackets

variable {read : List Char → Except Stop (Json × List Char)} {Rule : List Char → Json → Prop}
  {item : Nat → Scan (Json × Nat)}

theorem follows_member (hi : ∀ ⦃s pos⦄, At text pos s → Follows text Prod.mk (read s) (item pos))
    (h : At text pos s) : Follows text Prod.mk (readMember read s) (scanMember text item pos) := by
  have hb := at_skipBlanks h
  unfold readMember
  refine follows_mark hb (by decide) (fun r hs hkey => ?_) fun hquote => ?_
  · rw [hs]
    refine (follows_string (Nat.lt_succ_of_le hkey.length_le) hkey).bind fun key s₁ pos₁ _ h₁ => ?_
    have hb₁ := at_skipBlanks h₁
    dsimp only
    refine follows_mark hb₁ (by decide) (fun r' hs' hr' => ?_) fun hcolon => ?_
    · rw [hs']
      exact (hi (at_skipBlanks hr')).bind fun value _ _ _ hrest => .ok hrest
    · split
      · next r' hs' => exact absurd (congrArg List.head? hs') hcolon
      · exact .stop hb₁
  · split
    · next r hs => exact absurd (congrArg List.head? hs) hquote
    · exact .stop hb

theorem follows_array (hr : ReadsItem (fun s => read (skipBlanks s)) Rule)
    (hi : ∀ ⦃s pos⦄, At text pos s → Follows text Prod.mk (read s) (item pos)) (h : At text pos s) :
    Follows text Prod.mk (readArray read s) (scanArray text item pos) := by
  have hb := at_skipBlanks h
  unfold readArray
  refine follows_mark hb (by decide) (fun r hs hr => ?_) fun hclose => ?_
  · rw [hs]
    exact .ok hr
  · split
    · next r hs => exact absurd (congrArg List.head? hs) hclose
    · rw [readItems_eq]
      have hlength := hb.length_le
      exact (follows_separated hr (fun _ _ h => hi (at_skipBlanks h)) (by decide) (Nat.lt_succ_self _)
        (Nat.lt_succ_of_le hlength) hb).bind fun items _ _ _ hrest => .ok hrest

theorem follows_object (hr : ReadsItem (readMember read) (Member Rule))
    (hi : ∀ ⦃s pos⦄, At text pos s → Follows text Prod.mk (read s) (item pos)) (h : At text pos s) :
    Follows text Prod.mk (readObject read s) (scanObject text item pos) := by
  have hb := at_skipBlanks h
  unfold readObject
  refine follows_mark hb (by decide) (fun r hs hr => ?_) fun hclose => ?_
  · rw [hs]
    exact .ok hr
  · split
    · next r hs => exact absurd (congrArg List.head? hs) hclose
    · rw [readMembers_eq]
      have hlength := hb.length_le
      exact (follows_separated hr (fun _ _ h => follows_member hi h) (by decide) (Nat.lt_succ_self _)
        (Nat.lt_succ_of_le hlength) hb).bind fun items _ _ _ hrest => .ok hrest

end Brackets

/-- Where no bracket stands in front, a value is a scalar. -/
theorem follows_scalar (depth : Nat) (hb : s.head? ≠ some '\x7b') (ha : s.head? ≠ some '[')
    (h : At text pos s) : Follows text Prod.mk (readScalar s) (scanValue text depth pos) := by
  rw [scanValue.eq_def, h.byteAt?_eq]
  cases s with
  | nil => exact .stop h
  | cons c r =>
    have hb' : c ≠ '\x7b' := by simpa using hb
    have ha' : c ≠ '[' := by simpa using ha
    simp only [List.head?_cons, Option.map_some, lead_eq_iff (d := '\x7b') (by decide),
      lead_eq_iff (d := '[') (by decide), lead_eq_iff (d := '"') (by decide),
      lead_eq_iff (d := 't') (by decide), lead_eq_iff (d := 'f') (by decide),
      lead_eq_iff (d := 'n') (by decide), lead_eq_iff (d := '-') (by decide), agree_digit.lead,
      if_neg hb', if_neg ha', readScalar]
    have hmark : (c = '-' ∨ isAsciiDigit c = true) ↔ (decide (c = '-') || isAsciiDigit c) = true := by
      simp
    simp only [hmark]
    split_ifs with hquote ht hf hn hnumber
    · subst hquote
      have hr := h.step (by decide)
      exact (follows_string (Nat.lt_succ_of_le hr.length_le) hr).bind fun cs _ _ _ hrest => .ok hrest
    · exact follows_word (by decide) _ h
    · exact follows_word (by decide) _ h
    · exact follows_word (by decide) _ h
    · exact follows_number h
    · rw [toNat_lead]
      exact .stop h

theorem follows_value (depth : Nat) (h : At text pos s) :
    Follows text Prod.mk (readValue depth s) (scanValue text depth pos) := by
  induction depth generalizing s pos with
  | zero =>
    have hstep := readValue_step 0 s
    generalize readValue 0 s = answer at hstep ⊢
    cases hstep with
    | refused hc r =>
      rw [scanValue.eq_def, h.byteAt?_eq]
      rcases hc with rfl | rfl
      · exact .stop h
      · exact .stop h
    | scalar hb ha => exact follows_scalar 0 hb ha h
  | succ depth ih =>
    have hitem := readsItem_padded (reads_value depth) fun _ _ h => exists_head_of_value h
    have hstep := readValue_step (depth + 1) s
    generalize readValue (depth + 1) s = answer at hstep ⊢
    cases hstep with
    | object _ r =>
      rw [scanValue.eq_def, h.byteAt?_eq]
      exact follows_object (readsItem_member hitem) (fun _ _ h => ih h) (h.step (by decide))
    | array _ r =>
      rw [scanValue.eq_def, h.byteAt?_eq]
      exact follows_array hitem (fun _ _ h => ih h) (h.step (by decide))
    | scalar hb ha => exact follows_scalar _ hb ha h

/-- The reading by offsets is the reading of the text, so that no index and no cut of it fails. -/
theorem parseByOffsets?_eq (text : String) : parseByOffsets? text = some (parse text) := by
  have hvalue := follows_value depthLimit (at_skipBlanks (at_zero text.toList))
  unfold parseByOffsets? scanDocument parse readDocument
  generalize readValue depthLimit (skipBlanks text.toList) = read at hvalue ⊢
  generalize scanValue text.toList depthLimit _ = scan at hvalue ⊢
  cases hvalue with
  | stop h =>
    rw [h.eq_sub]
    rfl
  | @ok value rest pos h =>
    have hb := at_skipBlanks h
    change (if passOver isBlankByte text.toList pos = (utf8 text.toList).length then pure value
      else throw ⟨_, .trailingContent⟩ : Scan Json).run = _
    simp only [hb.eq_length_iff]
    simp only [bind, Except.bind]
    cases hd : skipBlanks rest with
    | nil => rfl
    | cons c r =>
      rw [hd] at hb
      rw [if_neg (List.cons_ne_nil c r), hb.eq_sub]
      rfl

end ModuleLoader.Json
