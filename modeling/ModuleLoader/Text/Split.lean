/-! Cutting text at slices and line ends. -/

namespace ModuleLoader.Text

/-- What follows `lead` at the front of the text, if the text starts with it. -/
def after? (lead s : List Char) : Option (List Char) := lead.isPrefixOf? s

@[simp] theorem after?_nil (s : List Char) : after? [] s = some s := rfl

@[simp] theorem after?_cons_nil (a : Char) (lead : List Char) : after? (a :: lead) [] = none := rfl

theorem after?_cons (a c : Char) (lead s : List Char) :
    after? (a :: lead) (c :: s) = if a = c then after? lead s else none := by
  change (if a == c then after? lead s else none) = _
  simp only [beq_iff_eq]

def startsWith (lead s : List Char) : Bool := lead.isPrefixOf s

/-- The text before and after the first occurrence of `needle`. -/
def cutAt? (needle : List Char) : List Char → Option (List Char × List Char)
  | [] => (after? needle []).map ([], ·)
  | c :: r =>
    match after? needle (c :: r) with
    | some rest => some ([], rest)
    | none => (cutAt? needle r).map fun (before, rest) => (c :: before, rest)

def contains (needle s : List Char) : Bool := (cutAt? needle s).isSome

/-- A line without the carriage return before its line feed. -/
def dropReturn (line : List Char) : List Char :=
  if line.getLast? = some '\r' then line.dropLast else line

/-- The lines of a text. Each line feed ends a line, together with one carriage return before it;
what follows the last line feed is a line of its own unless it is empty. -/
def lines (s : List Char) : List (List Char) :=
  let pieces := s.splitOn '\n'
  pieces.dropLast.map dropReturn ++ (pieces.getLast?.toList.filter (· ≠ []))

/-- Every backslash as a forward slash. -/
def forwardSlashes (s : String) : String :=
  String.ofList (s.toList.map fun c => if c = '\\' then '/' else c)

theorem toList_forwardSlashes (s : String) :
    (forwardSlashes s).toList = s.toList.map fun c => if c = '\\' then '/' else c := by
  simp [forwardSlashes]

end ModuleLoader.Text
