/-! What can be wrong with a JSON text, and where. -/

namespace ModuleLoader.Json

/-- The causes of a refusal. A byte that fits nowhere is kept as its value. -/
inductive Fault where
  | endOfInput
  | unexpected (byte : Nat)
  | expectedWord (word : String)
  | nestingTooDeep
  | expectedKey
  | expectedColon
  | expectedMemberEnd
  | expectedItemEnd
  | unterminatedString
  | controlInString
  | unterminatedEscape
  | invalidEscape (byte : Nat)
  | truncatedUnit
  | invalidUnit
  | expectedDigit
  | expectedFractionDigit
  | expectedExponentDigit
  | trailingContent
deriving DecidableEq

/-- The wording of a fault. A byte is shown as the character of that code. -/
def Fault.reason : Fault → String
  | endOfInput => "unexpected end of input"
  | unexpected byte => "unexpected character `" ++ String.singleton (Char.ofNat byte) ++ "`"
  | expectedWord word => "expected `" ++ word ++ "`"
  | nestingTooDeep => "nesting too deep"
  | expectedKey => "expected string key"
  | expectedColon => "expected `:` after object key"
  | expectedMemberEnd => "expected `,` or `\x7d` in object"
  | expectedItemEnd => "expected `,` or `]` in array"
  | unterminatedString => "unterminated string"
  | controlInString => "control character in string"
  | unterminatedEscape => "unterminated escape"
  | invalidEscape byte => "invalid escape `\\" ++ String.singleton (Char.ofNat byte) ++ "`"
  | truncatedUnit => "truncated \\u escape"
  | invalidUnit => "invalid \\u escape"
  | expectedDigit => "expected digit"
  | expectedFractionDigit => "expected digit after decimal point"
  | expectedExponentDigit => "expected digit in exponent"
  | trailingContent => "unexpected trailing content"

/-- A refused text: the fault and the number of bytes before it. -/
structure ParseError where
  offset : Nat
  fault : Fault
deriving DecidableEq

def ParseError.message (e : ParseError) : String :=
  e.fault.reason ++ " at byte " ++ toString e.offset

end ModuleLoader.Json
