import ModuleLoader.Json.Parser
import ModuleLoader.Proofs.Json.Grammar

/-! Readers and the texts that they read. A reader belongs to a rule of the grammar if it takes the
texts of the rule off the front of what is left, and no others. -/

namespace ModuleLoader.Json

open Grammar

/-- A reader of a rule. What follows the text must not make it longer. -/
structure Reads {α : Type} (read : List Char → Except Stop (α × List Char))
    (Rule : List Char → α → Prop) (Follow : List Char → Prop) : Prop where
  sound {s rest : List Char} {a : α} : read s = .ok (a, rest) → ∃ t, s = t ++ rest ∧ Rule t a
  complete {t rest : List Char} {a : α} : Rule t a → Follow rest → read (t ++ rest) = .ok (a, rest)

theorem exists_of_bind_eq_ok {ε α β : Type} {x : Except ε α} {f : α → Except ε β} {b : β}
    (h : (x >>= f) = .ok b) : ∃ a, x = .ok a ∧ f a = .ok b := by
  cases x with
  | error e => cases h
  | ok a => exact ⟨a, rfl, h⟩

theorem exists_of_map_eq_ok {ε α β : Type} {x : Except ε α} {f : α → β} {b : β}
    (h : x.map f = .ok b) : ∃ a, x = .ok a ∧ f a = b := by
  cases x with
  | error e => cases h
  | ok a => exact ⟨a, rfl, Except.ok.inj h⟩

/-! ## Blanks -/

theorem isJsonBlank_iff {c : Char} : isJsonBlank c = true ↔ IsBlank c := by
  simp [isJsonBlank, IsBlank, or_assoc]

theorem skipBlanks_cons (c : Char) (s : List Char) :
    skipBlanks (c :: s) = if isJsonBlank c = true then skipBlanks s else c :: s := by
  by_cases hc : isJsonBlank c = true
  · simp [skipBlanks, hc]
  · simp [skipBlanks, hc]

theorem exists_blanks (s : List Char) : ∃ blanks, Blanks blanks ∧ s = blanks ++ skipBlanks s := by
  induction s with
  | nil => exact ⟨[], by simp [Blanks], rfl⟩
  | cons c s ih =>
    by_cases hc : isJsonBlank c = true
    · obtain ⟨blanks, hb, hs⟩ := ih
      refine ⟨c :: blanks, ?_, ?_⟩
      · simpa [Blanks, isJsonBlank_iff.mp hc] using hb
      · rw [skipBlanks_cons, if_pos hc, List.cons_append, ← hs]
    · exact ⟨[], by simp [Blanks], by rw [skipBlanks_cons, if_neg hc]; rfl⟩

/-- Whether a text does not start with a blank. -/
def Solid (s : List Char) : Prop := ∀ c ∈ s.head?, ¬IsBlank c

theorem skipBlanks_of_solid {s : List Char} (h : Solid s) : skipBlanks s = s := by
  cases s with
  | nil => rfl
  | cons c s =>
    have hc : ¬isJsonBlank c = true := fun hb => h c rfl (isJsonBlank_iff.mp hb)
    rw [skipBlanks_cons, if_neg hc]

theorem solid_skipBlanks (s : List Char) : Solid (skipBlanks s) := by
  induction s with
  | nil => simp [skipBlanks, Solid]
  | cons c s ih =>
    rw [skipBlanks_cons]
    split
    · exact ih
    · next hc => simpa [Solid, ← isJsonBlank_iff] using hc

theorem skipBlanks_append {blanks s : List Char} (hb : Blanks blanks) (hs : Solid s) :
    skipBlanks (blanks ++ s) = s := by
  induction blanks with
  | nil => exact skipBlanks_of_solid hs
  | cons c rest ih =>
    have hc : isJsonBlank c = true := isJsonBlank_iff.mpr (hb c List.mem_cons_self)
    rw [List.cons_append, skipBlanks_cons, if_pos hc]
    exact ih fun d hd => hb d (List.mem_cons_of_mem _ hd)

end ModuleLoader.Json
