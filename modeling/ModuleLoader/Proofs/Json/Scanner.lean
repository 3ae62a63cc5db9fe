import ModuleLoader.Proofs.Json.Strings
import ModuleLoader.Proofs.Text.Bytes

/-! Reading by byte offsets. The text is kept whole and an offset into its bytes moves along. Indices
and cuts are made at the offset, and where one cannot be made there is no reading at all. A reading
by offsets follows a reader if it does in the text what the reader does with what is left of it. -/

namespace ModuleLoader.Json

open Text

variable {α β γ : Type}

/-- A reading that may refuse the text. It is nothing at all where an index or a cut fails or where a
loop runs out of fuel. -/
abbrev Scan (β : Type) : Type := ExceptT ParseError Option β

/-- What has to be there. -/
def demand (found : Option β) : Scan β := found.map Except.ok

theorem demand_some_bind (b : β) (g : β → Scan γ) : (demand (some b) >>= g) = g b := rfl

/-! ## Readers by offsets -/

def isBlankByte (b : UInt8) : Bool :=
  b == ' '.toUInt8 || b == '\t'.toUInt8 || b == '\n'.toUInt8 || b == '\r'.toUInt8

def isDigitByte (b : UInt8) : Bool := '0'.toUInt8 ≤ b && b ≤ '9'.toUInt8

/-- A byte that a string holds as it is. -/
def isPlainByte (b : UInt8) : Bool :=
  b != '"'.toUInt8 && b != '\\'.toUInt8 && 0x20 ≤ b

def isHexDigit (c : Char) : Bool := (hexValue? c).isSome

def hexNumber (digits : List Char) : Nat :=
  digits.foldl (fun n c => n * 16 + (hexValue? c).getD 0) 0

section Offsets

variable (text : List Char)

def scanUnit (pos : Nat) : Scan (Nat × Nat) :=
  match slice? pos (pos + 4) text with
  | none => throw ⟨pos, .truncatedUnit⟩
  | some digits =>
    if digits.all isHexDigit then pure (hexNumber digits, pos + 4) else throw ⟨pos, .invalidUnit⟩

/-- The character of a unit, together with a low surrogate behind a high one. -/
def scanPair (unit pos : Nat) : Scan (Char × Nat) := do
  if isHighSurrogate unit then
    let bytes ← demand (bytesFrom? text pos)
    if (utf8 ['\\', 'u']).isPrefixOf bytes then
      let (low, stop) ← scanUnit text (pos + 2)
      if isLowSurrogate low then return (pairChar unit low, stop) else return (replacement, pos)
    else return (replacement, pos)
  else return (unitChar unit, pos)

/-- The character of an escape behind its backslash. -/
def scanEscape (pos : Nat) : Scan (Char × Nat) := do
  match byteAt? text pos with
  | none => throw ⟨pos, .unterminatedEscape⟩
  | some b =>
    if b = 'u'.toUInt8 then
      let (unit, stop) ← scanUnit text (pos + 1)
      scanPair text unit stop
    else match shortEscape? (Char.ofUInt8 b) with
      | some plain => return (plain, pos + 1)
      | none => throw ⟨pos, .invalidEscape b.toNat⟩

/-- The characters up to the closing quote. What needs no decoding is cut out of the text. -/
def scanString : Nat → Nat → Scan (List Char × Nat)
  | 0, _ => demand none
  | fuel + 1, start => do
    let stop := passOver isPlainByte text start
    match byteAt? text stop with
    | none => throw ⟨stop, .unterminatedString⟩
    | some b =>
      if b = '"'.toUInt8 then
        let run ← demand (slice? start stop text)
        return (run, stop + 1)
      else if b = '\\'.toUInt8 then
        let run ← demand (slice? start stop text)
        let (c, next) ← scanEscape text (stop + 1)
        let (cs, last) ← scanString fuel next
        return (run ++ c :: cs, last)
      else throw ⟨stop, .controlInString⟩

def skipDigits (fault : Fault) (pos : Nat) : Scan Nat :=
  match byteAt? text pos with
  | none => throw ⟨pos, fault⟩
  | some b => if isDigitByte b then pure (passOver isDigitByte text pos) else throw ⟨pos, fault⟩

def skipWhole (pos : Nat) : Scan Nat :=
  if byteAt? text pos = some '0'.toUInt8 then pure (pos + 1) else skipDigits text .expectedDigit pos

def skipFraction (pos : Nat) : Scan Nat :=
  if byteAt? text pos = some '.'.toUInt8 then skipDigits text .expectedFractionDigit (pos + 1)
  else pure pos

def skipExponent (pos : Nat) : Scan Nat :=
  if byteAt? text pos = some 'e'.toUInt8 ∨ byteAt? text pos = some 'E'.toUInt8 then
    if byteAt? text (pos + 1) = some '-'.toUInt8 ∨ byteAt? text (pos + 1) = some '+'.toUInt8 then
      skipDigits text .expectedExponentDigit (pos + 2)
    else skipDigits text .expectedExponentDigit (pos + 1)
  else pure pos

def skipNumber (pos : Nat) : Scan Nat := do
  let pos := if byteAt? text pos = some '-'.toUInt8 then pos + 1 else pos
  let pos ← skipWhole text pos
  let pos ← skipFraction text pos
  skipExponent text pos

/-- The double that a whole text writes. -/
def double? (s : List Char) : Option Binary64 :=
  match readNumber s with
  | .ok (token, []) => some token.value
  | _ => none

/-- A number is cut out of the text and read again. -/
def scanNumber (start : Nat) : Scan (Json × Nat) := do
  let stop ← skipNumber text start
  let piece ← demand (slice? start stop text)
  let value ← demand (double? piece)
  return (.number value, stop)

def scanWord (word : String) (value : Json) (pos : Nat) : Scan (Json × Nat) := do
  let bytes ← demand (bytesFrom? text pos)
  if (utf8 word.toList).isPrefixOf bytes then return (value, pos + byteLength word.toList)
  else throw ⟨pos, .expectedWord word⟩

/-- Items up to the closing mark. -/
def scanSeparated (item : Nat → Scan (α × Nat)) (close : Char) (fault : Fault) :
    Nat → Nat → Scan (List α × Nat)
  | 0, _ => demand none
  | fuel + 1, pos => do
    let (a, pos) ← item pos
    let pos := passOver isBlankByte text pos
    if byteAt? text pos = some ','.toUInt8 then
      let (rest, stop) ← scanSeparated item close fault fuel (pos + 1)
      return (a :: rest, stop)
    else if byteAt? text pos = some close.toUInt8 then return ([a], pos + 1)
    else throw ⟨pos, fault⟩

def scanArray (item : Nat → Scan (Json × Nat)) (pos : Nat) : Scan (Json × Nat) := do
  let pos := passOver isBlankByte text pos
  if byteAt? text pos = some ']'.toUInt8 then return (.array [], pos + 1)
  else
    let (items, stop) ← scanSeparated text (fun pos => item (passOver isBlankByte text pos)) ']'
      .expectedItemEnd (byteLength text + 1) pos
    return (.array items, stop)

def scanMember (item : Nat → Scan (Json × Nat)) (pos : Nat) : Scan ((String × Json) × Nat) := do
  let pos := passOver isBlankByte text pos
  if byteAt? text pos = some '"'.toUInt8 then
    let (key, stop) ← scanString text (byteLength text + 1) (pos + 1)
    let pos := passOver isBlankByte text stop
    if byteAt? text pos = some ':'.toUInt8 then
      let (value, stop) ← item (passOver isBlankByte text (pos + 1))
      return ((String.ofList key, value), stop)
    else throw ⟨pos, .expectedColon⟩
  else throw ⟨pos, .expectedKey⟩

def scanObject (item : Nat → Scan (Json × Nat)) (pos : Nat) : Scan (Json × Nat) := do
  let pos := passOver isBlankByte text pos
  if byteAt? text pos = some '\x7d'.toUInt8 then return (.object Members.empty, pos + 1)
  else
    let (pairs, stop) ← scanSeparated text (scanMember text item) '\x7d' .expectedMemberEnd
      (byteLength text + 1) pos
    return (.object (Members.ofList pairs), stop)

/-- A value in which arrays and objects nest at most `depth` deep. -/
def scanValue (depth pos : Nat) : Scan (Json × Nat) := do
  match byteAt? text pos with
  | none => throw ⟨pos, .endOfInput⟩
  | some b =>
    if b = '\x7b'.toUInt8 then
      match depth with
      | 0 => throw ⟨pos, .nestingTooDeep⟩
      | depth + 1 => scanObject text (scanValue depth) (pos + 1)
    else if b = '['.toUInt8 then
      match depth with
      | 0 => throw ⟨pos, .nestingTooDeep⟩
      | depth + 1 => scanArray text (scanValue depth) (pos + 1)
    else if b = '"'.toUInt8 then
      let (cs, stop) ← scanString text (byteLength text + 1) (pos + 1)
      return (.string (String.ofList cs), stop)
    else if b = 't'.toUInt8 then scanWord text "true" (.bool true) pos
    else if b = 'f'.toUInt8 then scanWord text "false" (.bool false) pos
    else if b = 'n'.toUInt8 then scanWord text "null" .null pos
    else if b = '-'.toUInt8 ∨ isDigitByte b then scanNumber text pos
    else throw ⟨pos, .unexpected b.toNat⟩

def scanDocument : Scan Json := do
  let (value, stop) ← scanValue text depthLimit (passOver isBlankByte text 0)
  let stop := passOver isBlankByte text stop
  if stop = (utf8 text).length then return value else throw ⟨stop, .trailingContent⟩

end Offsets

/-- The reading of a text by offsets, if all of its indices and cuts can be made. -/
def parseByOffsets? (text : String) : Option (Except ParseError Json) := (scanDocument text.toList).run

/-! ## Following a reader -/

variable {text s : List Char} {pos : Nat} {place : α → Nat → β}

/-- Whether a reading by offsets does in the text what a reader does with what is left of it. The
answer is made of the value and of the offset of what the reader leaves. -/
inductive Follows (text : List Char) (place : α → Nat → β) :
    Except Stop (α × List Char) → Scan β → Prop where
  | ok {a : α} {rest : List Char} {pos : Nat} (h : At text pos rest) :
    Follows text place (.ok (a, rest)) (pure (place a pos))
  | stop {fault : Fault} {rest : List Char} {pos : Nat} (h : At text pos rest) :
    Follows text place (.error ⟨fault, rest⟩) (throw ⟨pos, fault⟩)

theorem Follows.bind {δ : Type} {place' : γ → Nat → δ} {x : Except Stop (α × List Char)} {y : Scan β}
    {f : α × List Char → Except Stop (γ × List Char)} {g : β → Scan δ} (h : Follows text place x y)
    (hf : ∀ ⦃a rest pos⦄, x = .ok (a, rest) → At text pos rest →
      Follows text place' (f (a, rest)) (g (place a pos))) :
    Follows text place' (x >>= f) (y >>= g) := by
  cases h with
  | ok h => exact hf rfl h
  | stop h => exact .stop h

/-- What is read depends on whether the text goes on with a mark. -/
theorem follows_mark {d : Char} {x : Except Stop (α × List Char)} {y z : Scan β} (h : At text pos s)
    (hd : d.toNat < 0x80) (hy : ∀ r, s = d :: r → At text (pos + 1) r → Follows text place x y)
    (hz : s.head? ≠ some d → Follows text place x z) :
    Follows text place x (if byteAt? text pos = some d.toUInt8 then y else z) := by
  split
  · next hb =>
    obtain ⟨r, rfl⟩ := List.head?_eq_some_iff.mp ((h.byteAt?_eq_some_iff hd).mp hb)
    exact hy r rfl (h.step hd)
  · next hb => exact hz fun hs => hb ((h.byteAt?_eq_some_iff hd).mpr hs)

theorem agree_blank : Agree isBlankByte isJsonBlank where
  ascii := by decide +kernel
  beyond {c b} hc hb := by
    have hbyte : isBlankByte b = false := forall_beyond (P := fun b => isBlankByte b = false)
      (by decide +kernel) hb
    rw [hbyte, eq_comm, ← Bool.not_eq_true, isJsonBlank_iff]
    rintro (rfl | rfl | rfl | rfl) <;> exact absurd hc (by decide)

theorem agree_digit : Agree isDigitByte isAsciiDigit where
  ascii := by decide +kernel
  beyond {c b} hc hb := by
    have hbyte : isDigitByte b = false := forall_beyond (P := fun b => isDigitByte b = false)
      (by decide +kernel) hb
    rw [hbyte, eq_comm, ← Bool.not_eq_true, isAsciiDigit_iff]
    omega

def isPlain (c : Char) : Bool := c != '"' && c != '\\' && 0x20 ≤ c.toNat

theorem isPlain_iff {c : Char} : isPlain c = true ↔ c ≠ '"' ∧ c ≠ '\\' ∧ 0x20 ≤ c.toNat := by
  simp [isPlain, and_assoc]

theorem agree_plain : Agree isPlainByte isPlain where
  ascii := by decide +kernel
  beyond {c b} hc hb := by
    have hbyte : isPlainByte b = true := forall_beyond (P := fun b => isPlainByte b = true)
      (by decide +kernel) hb
    rw [hbyte, eq_comm, isPlain_iff]
    refine ⟨?_, ?_, by omega⟩
    · rintro rfl
      exact absurd hc (by decide)
    · rintro rfl
      exact absurd hc (by decide)

end ModuleLoader.Json
