import ModuleLoader.Decimal.Shortest
import ModuleLoader.Json.Value
import ModuleLoader.Text.Quoted

/-! Compact JSON text: no blanks, members in their own order, and null for what is no finite
number. -/

namespace ModuleLoader.Json

open Text

mutual

def render : Json → String
  | null => "null"
  | bool true => "true"
  | bool false => "false"
  | number x => if x.isFinite then x.toText else "null"
  | string s => quote s
  | array items => "[" ++ renderItems items ++ "]"
  | object ⟨entries⟩ => "\x7b" ++ renderMembers entries ++ "\x7d"

def renderItems : List Json → String
  | [] => ""
  | [item] => item.render
  | item :: rest => item.render ++ "," ++ renderItems rest

def renderMembers : List (String × Json) → String
  | [] => ""
  | [(key, value)] => quote key ++ ":" ++ value.render
  | (key, value) :: rest => quote key ++ ":" ++ value.render ++ "," ++ renderMembers rest

end

end ModuleLoader.Json
