import ModuleLoader.Text.Blank
import ModuleLoader.Text.Split
import ModuleLoader.Text.Word
import ModuleLoader.Transpile.Brackets

/-! The names that declarations bind: plain names and the names inside destructuring patterns. -/

namespace ModuleLoader.Transpile

open Text

/-- A binding without the dots of a rest element. -/
def dropDots : List Char → List Char
  | '.' :: '.' :: '.' :: rest => dropDots rest
  | s => s

/-- The name at the front of a binding that is no pattern. -/
def plainName (s : List Char) : List (List Char) :=
  let name := s.takeWhile isAsciiNamePart
  if isAsciiName name then [name] else []

/-- The text between the brackets of a pattern, whose opening one is gone already. -/
def insideBrackets (close : Char) (s : List Char) : List Char :=
  let trimmed := trimEnd s
  if trimmed.getLast? = some close then trimmed.dropLast else s

/-- An element of a pattern without its default value. -/
def withoutDefault (element : List Char) : List Char := beforeTop '=' (trim element)

/-- The names that a binding binds, from left to right. Patterns nest at most `fuel` deep. -/
def bindingNames : Nat → List Char → List (List Char)
  | 0, _ => []
  | fuel + 1, s =>
    match dropDots (trim s) with
    | '\x7b' :: rest =>
      (splitTop ',' (insideBrackets '\x7d' rest)).flatMap fun element =>
        bindingNames fuel (afterTop ':' (withoutDefault element))
    | '[' :: rest =>
      (splitTop ',' (insideBrackets ']' rest)).flatMap fun element =>
        bindingNames fuel (withoutDefault element)
    | s => plainName s

section

variable {s rest : List Char} {fuel : Nat}

theorem bindingNames_object (h : dropDots (trim s) = '\x7b' :: rest) :
    bindingNames (fuel + 1) s = (splitTop ',' (insideBrackets '\x7d' rest)).flatMap fun element =>
      bindingNames fuel (afterTop ':' (withoutDefault element)) := by
  rw [bindingNames, h]
  rfl

theorem bindingNames_array (h : dropDots (trim s) = '[' :: rest) :
    bindingNames (fuel + 1) s = (splitTop ',' (insideBrackets ']' rest)).flatMap fun element =>
      bindingNames fuel (withoutDefault element) := by
  rw [bindingNames, h]
  rfl

theorem bindingNames_plain (h : ∀ c r, dropDots (trim s) = c :: r → c ≠ '\x7b' ∧ c ≠ '[') :
    bindingNames (fuel + 1) s = plainName (dropDots (trim s)) := by
  rw [bindingNames]
  split
  · next r hr => exact absurd rfl (h _ r hr).1
  · next r hr => exact absurd rfl (h _ r hr).2
  · rfl

end

/-- A binding is an object pattern, an array pattern or no pattern at all. -/
theorem pattern_cases (s : List Char) :
    (∃ r, s = '\x7b' :: r) ∨ (∃ r, s = '[' :: r) ∨ ∀ c r, s = c :: r → c ≠ '\x7b' ∧ c ≠ '[' := by
  by_cases hbrace : ∃ r, s = '\x7b' :: r
  · exact .inl hbrace
  by_cases hbracket : ∃ r, s = '[' :: r
  · exact .inr (.inl hbracket)
  refine .inr (.inr fun c r h => ⟨?_, ?_⟩)
  · rintro rfl
    exact hbrace ⟨r, h⟩
  · rintro rfl
    exact hbracket ⟨r, h⟩

/-- Declarators without the semicolons at their end. -/
def dropSemicolons (s : List Char) : List Char :=
  ((trimEnd s).reverse.dropWhile (· == ';')).reverse

def declaredNames (declarators : List Char) : List (List Char) :=
  (splitTop ',' (dropSemicolons declarators)).flatMap fun declarator =>
    bindingNames (declarator.length + 1) (beforeTop '=' declarator)

end ModuleLoader.Transpile
