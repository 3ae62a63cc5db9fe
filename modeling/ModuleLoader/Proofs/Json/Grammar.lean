import Mathlib.Data.Nat.Digits.Defs
import ModuleLoader.Json.Value

/-! The grammar of JSON, rule by rule, with what each text means. A rule relates a text to its
meaning and says nothing of how it is read. -/

namespace ModuleLoader.Json.Grammar

def IsBlank (c : Char) : Prop := c = ' ' ∨ c = '\t' ∨ c = '\n' ∨ c = '\r'

def Blanks (s : List Char) : Prop := ∀ c ∈ s, IsBlank c

/-! ## Strings -/

inductive Escape : Char → Char → Prop where
  | quote : Escape '"' '"'
  | backslash : Escape '\\' '\\'
  | slash : Escape '/' '/'
  | backspace : Escape 'b' '\x08'
  | formFeed : Escape 'f' '\x0c'
  | lineFeed : Escape 'n' '\n'
  | carriageReturn : Escape 'r' '\r'
  | tab : Escape 't' '\t'

def HexDigit (c : Char) (value : Nat) : Prop :=
  value < 16 ∧ (c = Nat.digitChar value ∨ c = (Nat.digitChar value).toUpper)

instance (c : Char) (value : Nat) : Decidable (HexDigit c value) :=
  inferInstanceAs (Decidable (_ ∧ _))

def HexUnit (a b c d : Char) (unit : Nat) : Prop :=
  ∃ i j k l, HexDigit a i ∧ HexDigit b j ∧ HexDigit c k ∧ HexDigit d l ∧
    unit = Nat.ofDigits 16 [l, k, j, i]

/-- What a piece of a string stands for. A unit alone need not be a character. -/
inductive Element where
  | char (c : Char)
  | unit (value : Nat)

/-- The text between the quotes of a string, piece by piece. -/
inductive Spells : List Char → List Element → Prop where
  | nil : Spells [] []
  | plain {c : Char} {s : List Char} {elements : List Element} (hc : 0x20 ≤ c.toNat)
    (hquote : c ≠ '"') (hslash : c ≠ '\\') (h : Spells s elements) :
    Spells (c :: s) (.char c :: elements)
  | escape {e c : Char} {s : List Char} {elements : List Element} (he : Escape e c)
    (h : Spells s elements) : Spells ('\\' :: e :: s) (.char c :: elements)
  | unit {a b c d : Char} {value : Nat} {s : List Char} {elements : List Element}
    (hu : HexUnit a b c d value) (h : Spells s elements) :
    Spells ('\\' :: 'u' :: a :: b :: c :: d :: s) (.unit value :: elements)

def IsHigh (unit : Nat) : Prop := 0xD800 ≤ unit ∧ unit < 0xDC00

def IsLow (unit : Nat) : Prop := 0xDC00 ≤ unit ∧ unit < 0xE000

instance (unit : Nat) : Decidable (IsHigh unit) := inferInstanceAs (Decidable (_ ∧ _))

instance (unit : Nat) : Decidable (IsLow unit) := inferInstanceAs (Decidable (_ ∧ _))

/-- The characters of a string. A high surrogate and a low one behind it are one character, and a
surrogate alone is a replacement character. -/
def decode : List Element → List Char
  | [] => []
  | .char c :: rest => c :: decode rest
  | .unit high :: .unit low :: rest =>
    if IsHigh high ∧ IsLow low then
      Char.ofNat (0x10000 + 0x400 * (high - 0xD800) + (low - 0xDC00)) :: decode rest
    else if IsHigh high ∨ IsLow high then '\uFFFD' :: decode (.unit low :: rest)
    else Char.ofNat high :: decode (.unit low :: rest)
  | .unit value :: rest =>
    if IsHigh value ∨ IsLow value then '\uFFFD' :: decode rest else Char.ofNat value :: decode rest

example : decode [.unit 0xDE00, .unit 0xD83D, .unit 0xDE00] = ['\uFFFD', Char.ofNat 0x1F600] := by
  decide

inductive StringText : List Char → String → Prop where
  | quoted {s : List Char} {elements : List Element} (h : Spells s elements) :
    StringText ('"' :: s ++ ['"']) (String.ofList (decode elements))

/-! ## Numbers -/

def Digits (s : List Char) : Prop := s ≠ [] ∧ ∀ c ∈ s, '0' ≤ c ∧ c ≤ '9'

theorem digits_zero : Digits ['0'] := ⟨by simp, by simp⟩

def decimal (s : List Char) : Nat := Nat.ofDigits 10 (s.reverse.map fun c => c.toNat - '0'.toNat)

/-- A whole part has no zero in front of other digits. -/
def Whole (s : List Char) : Prop := s = ['0'] ∨ Digits s ∧ s.head? ≠ some '0'

inductive Fraction : List Char → List Char → Prop where
  | none : Fraction [] []
  | some {digits : List Char} (h : Digits digits) : Fraction ('.' :: digits) digits

inductive Exponent : List Char → Int → Prop where
  | none : Exponent [] 0
  | unsigned {e : Char} {digits : List Char} (he : e = 'e' ∨ e = 'E') (h : Digits digits) :
    Exponent (e :: digits) (decimal digits)
  | plus {e : Char} {digits : List Char} (he : e = 'e' ∨ e = 'E') (h : Digits digits) :
    Exponent (e :: '+' :: digits) (decimal digits)
  | minus {e : Char} {digits : List Char} (he : e = 'e' ∨ e = 'E') (h : Digits digits) :
    Exponent (e :: '-' :: digits) (-decimal digits)

/-- A number is the double nearest to the decimal that it writes. -/
inductive Number : List Char → Binary64 → Prop where
  | mk (negative : Bool) {whole fraction digits exponent : List Char} {power : Int}
    (hw : Whole whole) (hf : Fraction fraction digits) (he : Exponent exponent power) :
    Number ((if negative then ['-'] else []) ++ whole ++ fraction ++ exponent)
      (.ofDecimal negative (decimal (whole ++ digits)) (power - digits.length))

/-! ## Values -/

inductive Scalar : List Char → Json → Prop where
  | null : Scalar "null".toList .null
  | true : Scalar "true".toList (.bool true)
  | false : Scalar "false".toList (.bool false)
  | number {s : List Char} {x : Binary64} (h : Number s x) : Scalar s (.number x)
  | string {s : List Char} {text : String} (h : StringText s text) : Scalar s (.string text)

section Lists

variable {α : Type}

inductive Padded (Item : List Char → α → Prop) : List Char → α → Prop where
  | mk {front s back : List Char} {item : α} (hf : Blanks front) (h : Item s item)
    (hb : Blanks back) : Padded Item (front ++ s ++ back) item

/-- One item or more, with commas between. -/
inductive Separated (Item : List Char → α → Prop) : List Char → List α → Prop where
  | one {s : List Char} {item : α} (h : Item s item) : Separated Item s [item]
  | cons {s rest : List Char} {item : α} {items : List α} (h : Item s item)
    (hr : Separated Item rest items) : Separated Item (s ++ ',' :: rest) (item :: items)

end Lists

inductive Member (Item : List Char → Json → Prop) : List Char → String × Json → Prop where
  | mk {key s : List Char} {name : String} {value : Json} (hk : Padded StringText key name)
    (h : Padded Item s value) : Member Item (key ++ ':' :: s) (name, value)

/-- The members that pairs stand for. A key is where it came first, with the value that came last. -/
structure Collects (pairs : List (String × Json)) (members : Members Json) : Prop where
  keys : members.keys = (pairs.map Prod.fst).eraseDups
  get? (key : String) : members.get? key = pairs.reverse.lookup key

inductive ArrayText (Item : List Char → Json → Prop) : List Char → Json → Prop where
  | empty {s : List Char} (h : Blanks s) : ArrayText Item ('[' :: s ++ [']']) (.array [])
  | items {s : List Char} {values : List Json} (h : Separated (Padded Item) s values) :
    ArrayText Item ('[' :: s ++ [']']) (.array values)

inductive ObjectText (Item : List Char → Json → Prop) : List Char → Json → Prop where
  | empty {s : List Char} (h : Blanks s) :
    ObjectText Item ('\x7b' :: s ++ ['\x7d']) (.object Members.empty)
  | members {s : List Char} {pairs : List (String × Json)} {members : Members Json}
    (h : Separated (Member Item) s pairs) (hm : Collects pairs members) :
    ObjectText Item ('\x7b' :: s ++ ['\x7d']) (.object members)

/-- A value in which arrays and objects nest at most `depth` deep. -/
def ValueText : Nat → List Char → Json → Prop
  | 0, s, value => Scalar s value
  | depth + 1, s, value =>
    Scalar s value ∨ ArrayText (ValueText depth) s value ∨ ObjectText (ValueText depth) s value

end ModuleLoader.Json.Grammar
