import Mathlib.Data.List.Infix
import ModuleLoader.Proofs.Text.Pieces
import ModuleLoader.Text.Utf8

/-! Cutting texts at byte offsets. A cut can be made exactly where the characters before it take that
many bytes. -/

namespace ModuleLoader.Text

variable {front piece tail s : List Char} {start stop : Nat}

theorem byteLength_pos (h : s ≠ []) : 0 < byteLength s := by
  cases s with
  | nil => exact absurd rfl h
  | cons c s =>
    have hpos := c.utf8Size_pos
    rw [byteLength_cons]
    omega

theorem takeBytes?_append (front rest : List Char) :
    takeBytes? (byteLength front) (front ++ rest) = some (front, rest) := by
  induction front with
  | nil => simp [takeBytes?]
  | cons c front ih =>
    have hpos := c.utf8Size_pos
    obtain ⟨n, hn⟩ := Nat.exists_eq_add_one_of_ne_zero
      (show c.utf8Size + byteLength front ≠ 0 by omega)
    have hrest : n + 1 - c.utf8Size = byteLength front := by omega
    rw [byteLength_cons, List.cons_append, hn, takeBytes?, if_pos (by omega), hrest, ih]
    rfl

theorem eq_of_takeBytes? {n : Nat} {rest : List Char} (h : takeBytes? n s = some (front, rest)) :
    s = front ++ rest ∧ byteLength front = n := by
  induction s generalizing n front with
  | nil =>
    cases n with
    | zero =>
      obtain ⟨rfl, rfl⟩ : [] = front ∧ [] = rest := by simpa [takeBytes?] using h
      exact ⟨rfl, rfl⟩
    | succ n => simp [takeBytes?] at h
  | cons c s ih =>
    cases n with
    | zero =>
      obtain ⟨rfl, rfl⟩ : [] = front ∧ c :: s = rest := by simpa [takeBytes?] using h
      exact ⟨rfl, rfl⟩
    | succ n =>
      by_cases hc : c.utf8Size ≤ n + 1
      · rw [takeBytes?, if_pos hc] at h
        obtain ⟨⟨below, rest'⟩, hb, he⟩ := Option.map_eq_some_iff.mp h
        obtain ⟨rfl, rfl⟩ := Prod.mk.inj he
        obtain ⟨rfl, hl⟩ := ih hb
        exact ⟨rfl, by rw [byteLength_cons]; omega⟩
      · simp [takeBytes?, hc] at h

/-- The text between two byte offsets. There is none if they are not in order, lie outside of the text
or inside of a character. -/
def slice? (start stop : Nat) (s : List Char) : Option (List Char) :=
  if start ≤ stop then
    (takeBytes? start s).bind fun cut => (takeBytes? (stop - start) cut.2).map Prod.fst
  else none

theorem slice?_eq_some_iff : slice? start stop s = some piece ↔
    ∃ front back, s = front ++ piece ++ back ∧ byteLength front = start ∧
      byteLength (front ++ piece) = stop := by
  constructor
  · intro h
    by_cases hle : start ≤ stop
    · rw [slice?, if_pos hle] at h
      obtain ⟨⟨front, rest⟩, hf, hr⟩ := Option.bind_eq_some_iff.mp h
      obtain ⟨⟨piece', back⟩, hp, he⟩ := Option.map_eq_some_iff.mp hr
      obtain rfl : piece' = piece := he
      obtain ⟨rfl, hstart⟩ := eq_of_takeBytes? hf
      obtain ⟨rfl, hstop⟩ := eq_of_takeBytes? hp
      refine ⟨front, back, by simp, hstart, ?_⟩
      rw [byteLength_append]
      omega
    · simp [slice?, hle] at h
  · rintro ⟨front, back, rfl, rfl, rfl⟩
    rw [byteLength_append, slice?, if_pos (Nat.le_add_right _ _), Nat.add_sub_cancel_left,
      List.append_assoc, takeBytes?_append, Option.bind_some, takeBytes?_append]
    rfl

theorem startsWith_reverse_iff : startsWith tail.reverse s.reverse = true ↔ tail <:+ s := by
  rw [startsWith_iff, List.reverse_prefix]

/-- A front that takes fewer bytes than what stands before the tail leaves something between them. -/
theorem exists_between (hf : front <+: s) (ht : tail <:+ s)
    (h : byteLength front + byteLength tail < byteLength s) :
    ∃ piece, piece ≠ [] ∧ s = front ++ piece ++ tail := by
  obtain ⟨before, rfl⟩ := ht
  rw [byteLength_append] at h
  rcases List.prefix_or_prefix_of_prefix hf (List.prefix_append before tail) with hb | hb
  · obtain ⟨piece, rfl⟩ := hb
    refine ⟨piece, ?_, rfl⟩
    rintro rfl
    simp at h
  · obtain ⟨rest, rfl⟩ := hb
    rw [byteLength_append] at h
    omega

end ModuleLoader.Text
