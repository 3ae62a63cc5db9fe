import ModuleLoader.Text.Quoted

/-! Documents: structured output, written as indented JSON. -/

namespace ModuleLoader

inductive Document where
  | flag (value : Bool)
  | count (value : Nat)
  | text (value : String)
  | list (items : List Document)
  | record (fields : List (String × Document))

namespace Document

def lineBreak (depth : Nat) : String := "\n" ++ String.ofList (List.replicate (2 * depth) ' ')

/-- Written parts between brackets, each on a line of its own. No parts leave the brackets alone. -/
def enclose (opening closing : String) (depth : Nat) (parts : List String) : String :=
  if parts.isEmpty then opening ++ closing
  else
    opening ++ ",".intercalate (parts.map (lineBreak (depth + 1) ++ ·)) ++ lineBreak depth ++ closing

mutual

/-- The text of a document inside `depth` others. -/
def pretty (depth : Nat) : Document → String
  | .flag value => if value then "true" else "false"
  | .count value => toString value
  | .text value => Text.quote value
  | .list items => enclose "[" "]" depth (prettyItems (depth + 1) items)
  | .record fields => enclose "\x7b" "\x7d" depth (prettyFields (depth + 1) fields)

def prettyItems (depth : Nat) : List Document → List String
  | [] => []
  | item :: rest => pretty depth item :: prettyItems depth rest

def prettyFields (depth : Nat) : List (String × Document) → List String
  | [] => []
  | (name, value) :: rest =>
    (Text.quote name ++ ": " ++ pretty depth value) :: prettyFields depth rest

end

def render (d : Document) : String := d.pretty 0

end Document

end ModuleLoader
