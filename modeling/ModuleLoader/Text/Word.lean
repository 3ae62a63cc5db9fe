import ModuleLoader.Text.WordTable

/-! Word characters and the identifiers spelled with them. -/

namespace ModuleLoader.Text

def isAsciiLetter (c : Char) : Bool := ('a' ≤ c && c ≤ 'z') || ('A' ≤ c && c ≤ 'Z')

def isAsciiDigit (c : Char) : Bool := '0' ≤ c && c ≤ '9'

/-- A letter, mark, decimal digit or connector of any script. -/
def isWord (c : Char) : Bool :=
  isAsciiLetter c || isAsciiDigit c || c == '_' ||
    (128 ≤ c.toNat && wordRanges.any fun (lo, hi) => lo ≤ c.toNat && c.toNat ≤ hi)

/-- A character that may continue an identifier. -/
def isNamePart (c : Char) : Bool := isWord c || c == '$'

/-- A character that may start an identifier. Only ASCII letters may. -/
def isNameStart (c : Char) : Bool := isAsciiLetter c || c == '_' || c == '$'

/-- The identifier at the front of a text and what follows it. -/
def takeName? : List Char → Option (List Char × List Char)
  | [] => none
  | c :: r => if isNameStart c then some (c :: r.takeWhile isNamePart, r.dropWhile isNamePart) else none

theorem eq_append_of_takeName? {s name rest : List Char} (h : takeName? s = some (name, rest)) :
    s = name ++ rest := by
  cases s with
  | nil => simp [takeName?] at h
  | cons c r =>
    by_cases hc : isNameStart c = true
    · simp only [takeName?, hc, if_true, Option.some.injEq, Prod.mk.injEq] at h
      rw [← h.1, ← h.2]
      simp
    · simp [takeName?, hc] at h

theorem takeWhile_dropWhile_isNamePart (s : List Char) :
    (s.dropWhile isNamePart).takeWhile isNamePart = [] := by
  induction s with
  | nil => rfl
  | cons c r ih =>
    cases h : isNamePart c with
    | true => simpa [h] using ih
    | false => simp [h]

/-- A character that may continue an identifier written in ASCII. -/
def isAsciiNamePart (c : Char) : Bool := isNameStart c || isAsciiDigit c

/-- Whether the whole text is one identifier written in ASCII. -/
def isAsciiName : List Char → Bool
  | [] => false
  | c :: r => isNameStart c && r.all isAsciiNamePart

end ModuleLoader.Text
