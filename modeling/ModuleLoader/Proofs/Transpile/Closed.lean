import Mathlib.Data.List.Induction
import ModuleLoader.Proofs.Transpile.Nesting

/-! Texts that leave nothing open. The nesting behind a text is the one at its start exactly if all
its literals are closed and each opening bracket in it has a closing one. -/

namespace ModuleLoader.Transpile

open Nesting

/-- A text in which literals and brackets are closed. Any closing bracket closes any opening one, and
one without an opening bracket counts for nothing. -/
inductive Closed : List Char → Prop
  | nil : Closed []
  | plain {c r} (hm : isMark c = false) (hr : Closed r) : Closed (c :: r)
  | literal {q body r} (hq : isQuote q = true) (hb : LiteralBody q body) (hr : Closed r) :
    Closed (q :: (body ++ q :: r))
  | group {o inner c r} (ho : isOpening o = true) (hi : Balanced (fun _ => True) inner)
    (hc : isClosing c = true) (hr : Closed r) : Closed (o :: (inner ++ c :: r))
  | stray {c r} (hc : isClosing c = true) (hr : Closed r) : Closed (c :: r)

variable {n : Nesting} {c q : Char} {depth : Nat} {s : List Char}

theorem Nesting.next_of_stray (h : isClosing c = true) : (outside 0).next c = outside 0 := by
  obtain ⟨hq, ho⟩ := isMark_of_isClosing h
  simp [next, outside, h, hq, ho]

theorem Closed.run_start (h : Closed s) : Nesting.start.run s = .start := by
  change (outside 0).run s = outside 0
  induction h with
  | nil => rfl
  | plain hm _ ih => rwa [run_cons, next_of_not_isMark hm]
  | @literal q body r hq hb _ ih =>
    rw [run_cons, next_of_isQuote hq, run_append, (hb.scan q 0).1, run_cons,
      next_inside_self (ne_backslash_of_isQuote hq), ih]
  | @group o inner c r ho hi hc _ ih =>
    rw [run_cons, next_of_isOpening ho, run_append, (hi.scan c 1).1, run_cons,
      next_of_isClosing hc, ih]
  | stray hc _ ih => rwa [run_cons, next_of_stray hc]

/-! ## From the nesting back to the text -/

/-- A character is plain, opens a literal, opens a bracket or closes one. -/
theorem mark_cases (c : Char) :
    isMark c = false ∨ isQuote c = true ∨ isOpening c = true ∨ isClosing c = true := by
  unfold isMark
  cases isQuote c <;> cases isOpening c <;> cases isClosing c <;> simp

theorem length_rest_lt (c : Char) (front : List Char) (d : Char) (rest : List Char) :
    rest.length < (c :: (front ++ d :: rest)).length := by
  simp only [List.length_append, List.length_cons]
  omega

/-- A literal that has been left was closed. -/
theorem exists_literalBody (hq : isQuote q = true) {n : Nesting} (hn : n.quote = none)
    (h : (inside depth q).run s = n) :
    ∃ body rest, s = body ++ q :: rest ∧ LiteralBody q body ∧ (outside depth).run rest = n := by
  induction hl : s.length using Nat.strongRecOn generalizing s with
  | ind len ih =>
    subst hl
    cases s with
    | nil =>
      subst h
      cases hn
    | cons c r =>
      by_cases hc : c = q
      · subst hc
        rw [run_cons, next_inside_self (ne_backslash_of_isQuote hq)] at h
        exact ⟨[], r, rfl, .nil, h⟩
      by_cases he : c = '\\'
      · subst he
        cases r with
        | nil =>
          subst h
          cases hn
        | cons d r =>
          have hback : ((inside depth q).next '\\').next d = inside depth q := by
            simp [next, inside]
          rw [run_cons, run_cons, hback] at h
          obtain ⟨body, rest, rfl, hb, hr⟩ := ih r.length (length_rest_lt _ [] _ _) h rfl
          exact ⟨'\\' :: d :: body, rest, rfl, .escaped hb, hr⟩
      · rw [run_cons, next_inside_of_ne hc he] at h
        obtain ⟨body, rest, rfl, hb, hr⟩ := ih r.length (by simp) h rfl
        exact ⟨c :: body, rest, rfl, .plain hc he hb, hr⟩

/-- A bracket that is not open any more was closed, with balanced text in it. -/
theorem exists_balanced (h : (outside (depth + 1)).run s = outside 0) :
    ∃ inner c rest, s = inner ++ c :: rest ∧ Balanced (fun _ => True) inner ∧ isClosing c = true ∧
      (outside depth).run rest = outside 0 := by
  induction hl : s.length using Nat.strongRecOn generalizing s depth with
  | ind len ih =>
    subst hl
    cases s with
    | nil => cases h
    | cons c r =>
      rw [run_cons] at h
      rcases mark_cases c with hm | hq | ho | hc
      · rw [next_of_not_isMark hm] at h
        obtain ⟨inner, d, rest, rfl, hi, hd, hr⟩ := ih r.length (by simp) h rfl
        exact ⟨c :: inner, d, rest, rfl, .plain trivial hm hi, hd, hr⟩
      · rw [next_of_isQuote hq] at h
        obtain ⟨body, after, rfl, hb, ha⟩ := exists_literalBody hq rfl h
        obtain ⟨inner, d, rest, rfl, hi, hd, hr⟩ := ih after.length (length_rest_lt _ _ _ _) ha rfl
        exact ⟨c :: (body ++ c :: inner), d, rest, by simp, .literal hq hb hi, hd, hr⟩
      · rw [next_of_isOpening ho] at h
        obtain ⟨inside, d, after, rfl, hi, hd, ha⟩ := ih r.length (by simp) h rfl
        obtain ⟨inner, d', rest, rfl, hi', hd', hr⟩ := ih after.length (length_rest_lt _ _ _ _) ha rfl
        exact ⟨c :: (inside ++ d :: inner), d', rest, by simp, .group ho hi hd hi', hd', hr⟩
      · rw [next_of_isClosing hc] at h
        exact ⟨[], c, r, rfl, .nil, hc, h⟩

theorem closed_of_run (h : Nesting.start.run s = .start) : Closed s := by
  change (outside 0).run s = outside 0 at h
  induction hl : s.length using Nat.strongRecOn generalizing s with
  | ind len ih =>
    subst hl
    cases s with
    | nil => exact .nil
    | cons c r =>
      rw [run_cons] at h
      rcases mark_cases c with hm | hq | ho | hc
      · rw [next_of_not_isMark hm] at h
        exact .plain hm (ih r.length (by simp) h rfl)
      · rw [next_of_isQuote hq] at h
        obtain ⟨body, rest, rfl, hb, hr⟩ := exists_literalBody hq rfl h
        exact .literal hq hb (ih rest.length (length_rest_lt _ _ _ _) hr rfl)
      · rw [next_of_isOpening ho] at h
        obtain ⟨inner, d, rest, rfl, hi, hd, hr⟩ := exists_balanced h
        exact .group ho hi hd (ih rest.length (length_rest_lt _ _ _ _) hr rfl)
      · rw [next_of_stray hc] at h
        exact .stray hc (ih r.length (by simp) h rfl)

theorem run_start_iff : Nesting.start.run s = .start ↔ Closed s :=
  ⟨closed_of_run, Closed.run_start⟩

/-! ## Places at the top -/

/-- Outside of a literal no backslash is pending. -/
def Nesting.IsSound (n : Nesting) : Prop := n.quote = none → n.escaped = false

theorem Nesting.IsSound.next (h : n.IsSound) (c : Char) : (n.next c).IsSound := by
  intro hnext
  cases hq : n.quote with
  | none =>
    have he : n.escaped = false := h hq
    simp only [Nesting.next, hq]
    split_ifs <;> exact he
  | some q =>
    simp only [Nesting.next, hq] at hnext ⊢
    split_ifs at hnext ⊢ with he hb hc
    · simpa using he
    · rw [hq] at hnext
      cases hnext

theorem Nesting.isSound_run (s : List Char) : (Nesting.start.run s).IsSound := by
  induction s using List.reverseRecOn with
  | nil => exact fun _ => rfl
  | append_singleton s c ih =>
    rw [run_append, run_cons, run_nil]
    exact ih.next c

/-- A character that is no mark is at the top exactly if the text before it leaves nothing open. -/
theorem isTop_run_iff (hm : isMark c = false) :
    (Nesting.start.run s).isTop c = true ↔ Closed s := by
  have hsound := isSound_run s
  rw [← run_start_iff]
  generalize Nesting.start.run s = n at hsound ⊢
  obtain ⟨depth, quote, escaped⟩ := n
  constructor
  · intro htop
    obtain rfl : quote = none := by
      cases quote with
      | none => rfl
      | some q => cases htop
    obtain rfl : escaped = false := hsound rfl
    obtain ⟨-, rfl⟩ := isTop_outside_iff.mp htop
    rfl
  · intro hstart
    rw [hstart]
    exact isTop_outside_iff.mpr ⟨hm, rfl⟩

end ModuleLoader.Transpile
