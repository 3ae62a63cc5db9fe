import ModuleLoader.Json.Fault
import ModuleLoader.Json.Value
import ModuleLoader.Text.Split
import ModuleLoader.Text.Utf8
import ModuleLoader.Text.Word

/-! Reading JSON texts. Each reader takes the text that is left and gives a value and what is left
after it, or stops at the text before which the first fault stands. Arrays and objects nest at most
`depthLimit` deep. -/

namespace ModuleLoader.Json

open Text

def depthLimit : Nat := 512

/-- A fault and the text that starts where it was found. -/
structure Stop where
  fault : Fault
  rest : List Char

def isJsonBlank (c : Char) : Bool := c == ' ' || c == '\t' || c == '\n' || c == '\r'

def skipBlanks (s : List Char) : List Char := s.dropWhile isJsonBlank

/-! ## Strings -/

def hexValue? (c : Char) : Option Nat :=
  if isAsciiDigit c then some (c.toNat - '0'.toNat)
  else if 'a' ≤ c && c ≤ 'f' then some (c.toNat - 'a'.toNat + 10)
  else if 'A' ≤ c && c ≤ 'F' then some (c.toNat - 'A'.toNat + 10)
  else none

/-- The UTF-16 unit that four hexadecimal digits name. -/
def unit? (a b c d : Char) : Option Nat := do
  let a ← hexValue? a
  let b ← hexValue? b
  let c ← hexValue? c
  let d ← hexValue? d
  return ((a * 16 + b) * 16 + c) * 16 + d

/-- The fault of a text that does not start with four hexadecimal digits: it is cut short unless
its first four bytes are whole characters. -/
def unitStop (s : List Char) : Stop :=
  ⟨if (takeBytes? 4 s).isSome then .invalidUnit else .truncatedUnit, s⟩

def isHighSurrogate (unit : Nat) : Bool := 0xD800 ≤ unit && unit < 0xDC00

def isLowSurrogate (unit : Nat) : Bool := 0xDC00 ≤ unit && unit < 0xE000

/-- The character of a unit on its own. A surrogate names none. -/
def unitChar (unit : Nat) : Char :=
  if isHighSurrogate unit || isLowSurrogate unit then replacement else Char.ofNat unit

def pairChar (high low : Nat) : Char :=
  Char.ofNat (0x10000 + (high - 0xD800) * 0x400 + (low - 0xDC00))

/-- The character that a one-letter escape names. -/
def shortEscape? (c : Char) : Option Char :=
  if c = '"' then some '"'
  else if c = '\\' then some '\\'
  else if c = '/' then some '/'
  else if c = 'b' then some '\x08'
  else if c = 'f' then some '\x0c'
  else if c = 'n' then some '\n'
  else if c = 'r' then some '\r'
  else if c = 't' then some '\t'
  else none

def push (c : Char) : Except Stop (List Char × List Char) → Except Stop (List Char × List Char)
  | .ok (cs, rest) => .ok (c :: cs, rest)
  | .error stop => .error stop

def unitAt (s : List Char) : Except Stop Nat :=
  match s with
  | a :: b :: c :: d :: _ =>
    match unit? a b c d with
    | some unit => .ok unit
    | none => .error (unitStop s)
  | _ => .error (unitStop s)

/-- The low surrogate that an escape at the front names, if there is such an escape. -/
def lowEscape? (s : List Char) : Except Stop (Option Nat) :=
  match after? ['\\', 'u'] s with
  | none => .ok none
  | some r =>
    match unitAt r with
    | .ok unit => .ok (if isLowSurrogate unit then some unit else none)
    | .error stop => .error stop

/-- The characters up to the closing quote. Two escaped surrogates that form a pair are one
character. -/
def readString : List Char → Except Stop (List Char × List Char)
  | [] => .error ⟨.unterminatedString, []⟩
  | c :: r =>
    if c = '"' then .ok ([], r)
    else if c = '\\' then
      match r with
      | [] => .error ⟨.unterminatedEscape, []⟩
      | e :: r₂ =>
        if e = 'u' then
          match unitAt r₂, r₂ with
          | .ok unit, _ :: _ :: _ :: _ :: r₃ =>
            if isHighSurrogate unit then
              match lowEscape? r₃ with
              | .error stop => .error stop
              | .ok none => push replacement (readString r₃)
              | .ok (some low) =>
                match r₃ with
                | _ :: _ :: _ :: _ :: _ :: _ :: r₄ => push (pairChar unit low) (readString r₄)
                | _ => .error (unitStop r₃)
            else push (unitChar unit) (readString r₃)
          | _, _ => .error (unitStop r₂)
        else match shortEscape? e with
          | some plain => push plain (readString r₂)
          | none => .error ⟨.invalidEscape (leadByte e), r⟩
    else if c.toNat < 0x20 then .error ⟨.controlInString, c :: r⟩
    else push c (readString r)

/-! ## Numbers -/

structure NumberToken where
  negative : Bool
  whole : List Char
  fraction : List Char
  exponent : Int

def digitsValue (ds : List Char) : Nat := ds.foldl (fun n c => n * 10 + (c.toNat - '0'.toNat)) 0

def NumberToken.value (t : NumberToken) : Binary64 :=
  Binary64.ofDecimal t.negative (digitsValue (t.whole ++ t.fraction))
    (t.exponent - t.fraction.length)

def takeDigits (s : List Char) : List Char × List Char :=
  (s.takeWhile isAsciiDigit, s.dropWhile isAsciiDigit)

/-- One digit or more, or a stop with the given fault. -/
def readDigits (fault : Fault) (s : List Char) : Except Stop (List Char × List Char) :=
  match takeDigits s with
  | ([], _) => .error ⟨fault, s⟩
  | found => .ok found

/-- The whole part: a zero on its own, or digits that start with another one. -/
def readWhole : List Char → Except Stop (List Char × List Char)
  | '0' :: r => .ok (['0'], r)
  | s => readDigits .expectedDigit s

def readFraction : List Char → Except Stop (List Char × List Char)
  | '.' :: r => readDigits .expectedFractionDigit r
  | s => .ok ([], s)

def readExponent (s : List Char) : Except Stop (Int × List Char) :=
  match s with
  | [] => .ok (0, [])
  | c :: r =>
    if c = 'e' || c = 'E' then
      let (negative, r) := match r with
        | '-' :: r => (true, r)
        | '+' :: r => (false, r)
        | r => (false, r)
      match readDigits .expectedExponentDigit r with
      | .error stop => .error stop
      | .ok (ds, rest) =>
        .ok (if negative then -(digitsValue ds : Int) else digitsValue ds, rest)
    else .ok (0, s)

def readNumber (s : List Char) : Except Stop (NumberToken × List Char) := do
  let (negative, s) := match s with
    | '-' :: r => (true, r)
    | s => (false, s)
  let (whole, s) ← readWhole s
  let (fraction, s) ← readFraction s
  let (exponent, s) ← readExponent s
  return (⟨negative, whole, fraction, exponent⟩, s)

/-! ## Values -/

def readWord (word : String) (value : Json) (s : List Char) : Except Stop (Json × List Char) :=
  match after? word.toList s with
  | some rest => .ok (value, rest)
  | none => .error ⟨.expectedWord word, s⟩

/-- Items up to the closing bracket. At most `fuel` are read. -/
def readItems (item : List Char → Except Stop (Json × List Char)) : Nat → List Char → Except Stop (List Json × List Char)
  | 0, s => .error ⟨.expectedItemEnd, s⟩
  | fuel + 1, s => do
    let (value, s) ← item (skipBlanks s)
    match skipBlanks s with
    | ',' :: r =>
      let (values, s) ← readItems item fuel r
      return (value :: values, s)
    | ']' :: r => return ([value], r)
    | s => throw ⟨.expectedItemEnd, s⟩

def readMember (item : List Char → Except Stop (Json × List Char)) (s : List Char) : Except Stop ((String × Json) × List Char) := do
  match skipBlanks s with
  | '"' :: r =>
    let (key, s) ← readString r
    match skipBlanks s with
    | ':' :: r =>
      let (value, s) ← item (skipBlanks r)
      return ((String.ofList key, value), s)
    | s => throw ⟨.expectedColon, s⟩
  | s => throw ⟨.expectedKey, s⟩

/-- Members up to the closing brace, as they are written. At most `fuel` are read. -/
def readMembers (item : List Char → Except Stop (Json × List Char)) : Nat → List Char → Except Stop (List (String × Json) × List Char)
  | 0, s => .error ⟨.expectedMemberEnd, s⟩
  | fuel + 1, s => do
    let (pair, s) ← readMember item s
    match skipBlanks s with
    | ',' :: r =>
      let (pairs, s) ← readMembers item fuel r
      return (pair :: pairs, s)
    | '\x7d' :: r => return ([pair], r)
    | s => throw ⟨.expectedMemberEnd, s⟩

def readArray (item : List Char → Except Stop (Json × List Char)) (s : List Char) : Except Stop (Json × List Char) :=
  match skipBlanks s with
  | ']' :: r => .ok (.array [], r)
  | s => do
    let (items, rest) ← readItems item (s.length + 1) s
    return (.array items, rest)

def readObject (item : List Char → Except Stop (Json × List Char)) (s : List Char) : Except Stop (Json × List Char) :=
  match skipBlanks s with
  | '\x7d' :: r => .ok (.object Members.empty, r)
  | s => do
    let (pairs, rest) ← readMembers item (s.length + 1) s
    return (.object (Members.ofList pairs), rest)

/-- A value in which arrays and objects nest at most `depth` deep. -/
def readValue : Nat → List Char → Except Stop (Json × List Char)
  | _, [] => .error ⟨.endOfInput, []⟩
  | depth, c :: r =>
    if c = '\x7b' then
      match depth with
      | 0 => .error ⟨.nestingTooDeep, c :: r⟩
      | depth + 1 => readObject (readValue depth) r
    else if c = '[' then
      match depth with
      | 0 => .error ⟨.nestingTooDeep, c :: r⟩
      | depth + 1 => readArray (readValue depth) r
    else if c = '"' then do
      let (text, rest) ← readString r
      return (.string (String.ofList text), rest)
    else if c = 't' then readWord "true" (.bool true) (c :: r)
    else if c = 'f' then readWord "false" (.bool false) (c :: r)
    else if c = 'n' then readWord "null" .null (c :: r)
    else if c = '-' || isAsciiDigit c then do
      let (token, rest) ← readNumber (c :: r)
      return (.number token.value, rest)
    else .error ⟨.unexpected (leadByte c), c :: r⟩

def readDocument (s : List Char) : Except Stop Json := do
  let (value, rest) ← readValue depthLimit (skipBlanks s)
  match skipBlanks rest with
  | [] => return value
  | rest => throw ⟨.trailingContent, rest⟩

def parse (text : String) : Except ParseError Json :=
  match readDocument text.toList with
  | .ok value => .ok value
  | .error stop => .error ⟨byteLength text.toList - byteLength stop.rest, stop.fault⟩

end ModuleLoader.Json
