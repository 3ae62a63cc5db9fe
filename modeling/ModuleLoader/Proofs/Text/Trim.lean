import Mathlib.Data.List.Basic
import Mathlib.Data.List.DropRight
import Mathlib.Data.List.TakeWhile
import ModuleLoader.Text.Blank

/-! Trimming takes away the blanks around a text and nothing else. -/

namespace ModuleLoader.Text

/-- A fact about the characters of a text is decided by going through the text, and not through all
characters that there are. -/
instance (priority := 1100) decidableForallMem (s : List Char) (p : Char → Prop) [DecidablePred p] :
    Decidable (∀ c ∈ s, p c) := List.decidableBAll p s

def AllBlank (s : List Char) : Prop := ∀ c ∈ s, isBlank c = true

variable {s front back core : List Char}

theorem AllBlank.nil : AllBlank [] := fun _ h => absurd h List.not_mem_nil

theorem AllBlank.space : AllBlank [' '] := by simp [AllBlank, isBlank]

theorem AllBlank.append (hf : AllBlank front) (hb : AllBlank back) : AllBlank (front ++ back) :=
  fun c hc => (List.mem_append.mp hc).elim (hf c) (hb c)

theorem trimStart_eq_nil_iff : trimStart s = [] ↔ AllBlank s := List.dropWhile_eq_nil_iff

theorem trimStart_append_of_blank (h : AllBlank front) (s : List Char) :
    trimStart (front ++ s) = trimStart s := List.dropWhile_append_of_pos h

theorem exists_trimStart (s : List Char) : ∃ front, AllBlank front ∧ s = front ++ trimStart s :=
  ⟨s.takeWhile isBlank, fun _ hc => List.mem_takeWhile_imp hc, List.takeWhile_append_dropWhile.symm⟩

theorem starts_trimStart (h : trimStart s ≠ []) :
    ∃ c r, trimStart s = c :: r ∧ isBlank c = false := by
  obtain ⟨c, r, hc⟩ := List.exists_cons_of_ne_nil h
  have hhead := List.head_dropWhile_not isBlank (l := s) h
  simp only [trimStart] at hc
  simp only [hc, List.head_cons] at hhead
  exact ⟨c, r, hc, by simpa using hhead⟩

theorem trimStart_append_of_ne_nil (h : trimStart s ≠ []) (t : List Char) :
    trimStart (s ++ t) = trimStart s ++ t := by
  obtain ⟨c, r, hr⟩ := List.exists_cons_of_ne_nil h
  have hdrop : s.dropWhile isBlank = c :: r := hr
  rw [hr, trimStart, List.dropWhile_append, hdrop]
  rfl

theorem trimEnd_eq_reverse (s : List Char) : trimEnd s = (trimStart s.reverse).reverse := rfl

theorem ends_trimEnd (h : trimEnd s ≠ []) :
    ∃ front c, trimEnd s = front ++ [c] ∧ isBlank c = false := by
  rw [trimEnd_eq_reverse, Ne, List.reverse_eq_nil_iff] at h
  obtain ⟨c, r, hr, hc⟩ := starts_trimStart h
  exact ⟨r.reverse, c, by rw [trimEnd_eq_reverse, hr, List.reverse_cons], hc⟩

theorem exists_trimEnd (s : List Char) : ∃ back, AllBlank back ∧ s = trimEnd s ++ back := by
  obtain ⟨front, hf, hs⟩ := exists_trimStart s.reverse
  refine ⟨front.reverse, fun c hc => hf c (List.mem_reverse.mp hc), ?_⟩
  rw [trimEnd_eq_reverse, ← List.reverse_append, ← hs, List.reverse_reverse]

/-- Only what follows the last character that is kept is dropped at the end. -/
theorem rdropWhile_append_cons {p : Char → Bool} {c : Char} (hc : p c = false)
    (front s : List Char) : (front ++ c :: s).rdropWhile p = front ++ c :: s.rdropWhile p := by
  induction s using List.reverseRecOn with
  | nil => exact List.rdropWhile_concat_neg p front c (by simp [hc])
  | append_singleton s x ih =>
    have hassoc : front ++ c :: (s ++ [x]) = (front ++ c :: s) ++ [x] := by simp
    rw [hassoc]
    by_cases hx : p x = true
    · rw [List.rdropWhile_concat_pos _ _ _ hx, List.rdropWhile_concat_pos _ _ _ hx, ih]
    · rw [List.rdropWhile_concat_neg _ _ _ hx, List.rdropWhile_concat_neg _ _ _ hx, hassoc]

theorem trimEnd_append_cons {c : Char} (hc : isBlank c = false) (front s : List Char) :
    trimEnd (front ++ c :: s) = front ++ c :: trimEnd s := rdropWhile_append_cons hc front s

theorem trimEnd_eq_self (h : ∃ front c, s = front ++ [c] ∧ isBlank c = false) : trimEnd s = s := by
  obtain ⟨front, c, rfl, hc⟩ := h
  exact trimEnd_append_cons hc front []

theorem trimEnd_append_of_blank (h : AllBlank back) (s : List Char) :
    trimEnd (s ++ back) = trimEnd s := by
  have hb : AllBlank back.reverse := fun c hc => h c (List.mem_reverse.mp hc)
  rw [trimEnd_eq_reverse, List.reverse_append, trimStart_append_of_blank hb, trimEnd_eq_reverse]

theorem trimEnd_append_of_ne_nil (h : trimEnd s ≠ []) (front : List Char) :
    trimEnd (front ++ s) = front ++ trimEnd s := by
  obtain ⟨back, hb, hs⟩ := exists_trimEnd s
  obtain ⟨mid, c, hm, hc⟩ := ends_trimEnd h
  rw [hs, ← List.append_assoc, trimEnd_append_of_blank hb, trimEnd_append_of_blank hb, hm]
  have hself : trimEnd (mid ++ [c]) = mid ++ [c] := trimEnd_eq_self ⟨mid, c, rfl, hc⟩
  rw [hself]
  exact trimEnd_eq_self ⟨front ++ mid, c, (List.append_assoc _ _ _).symm, hc⟩

theorem trimEnd_isPrefix (s : List Char) : trimEnd s <+: s := List.rdropWhile_prefix isBlank s

theorem trimEnd_eq_nil_iff : trimEnd s = [] ↔ AllBlank s := by
  rw [trimEnd_eq_reverse, List.reverse_eq_nil_iff, trimStart_eq_nil_iff]
  simp [AllBlank]

theorem trim_eq_nil_iff : trim s = [] ↔ AllBlank s := by
  obtain ⟨front, hf, hs⟩ := exists_trimStart s
  rw [trim, trimEnd_eq_nil_iff]
  constructor
  · intro h
    rw [hs]
    exact hf.append h
  · intro h c hc
    exact h c (hs ▸ List.mem_append_right front hc)

theorem mem_trim {d : Char} (h : d ∈ s) (hd : isBlank d = false) : d ∈ trim s := by
  obtain ⟨front, hf, hs⟩ := exists_trimStart s
  obtain ⟨back, hb, ht⟩ := exists_trimEnd (trimStart s)
  have hno {t : List Char} (ht : AllBlank t) : d ∉ t := fun hm => by
    rw [ht d hm] at hd
    cases hd
  rw [hs, ht] at h
  exact (List.mem_append.mp ((List.mem_append.mp h).resolve_left (hno hf))).resolve_right (hno hb)

theorem trim_append_cons {c : Char} (hc : isBlank c = false) (s t : List Char) :
    trim (s ++ c :: t) = trimStart s ++ c :: trimEnd t := by
  by_cases hs : trimStart s = []
  · rw [trim, trimStart_append_of_blank (trimStart_eq_nil_iff.mp hs), trimStart_of_not_blank hc, hs]
    exact trimEnd_append_cons hc [] t
  · rw [trim, trimStart_append_of_ne_nil hs, trimEnd_append_cons hc]

/-! ## Texts between blanks -/

/-- A text that begins and ends in characters that are no blanks. -/
structure Solid (s : List Char) : Prop where
  starts : ∃ c r, s = c :: r ∧ isBlank c = false
  ends : ∃ front c, s = front ++ [c] ∧ isBlank c = false

theorem Solid.starts_append (h : Solid s) (t : List Char) :
    ∃ c r, s ++ t = c :: r ∧ isBlank c = false := by
  obtain ⟨c, r, rfl, hc⟩ := h.starts
  exact ⟨c, r ++ t, rfl, hc⟩

theorem Solid.append_ends (h : Solid s) (t : List Char) :
    ∃ front c, t ++ s = front ++ [c] ∧ isBlank c = false := by
  obtain ⟨front, c, rfl, hc⟩ := h.ends
  exact ⟨t ++ front, c, (List.append_assoc t front [c]).symm, hc⟩

theorem exists_ends {P : Char → Prop} (hne : s ≠ []) (h : ∀ c ∈ s, P c) :
    (∃ c r, s = c :: r ∧ P c) ∧ ∃ front c, s = front ++ [c] ∧ P c := by
  obtain ⟨c, r, rfl⟩ := List.exists_cons_of_ne_nil hne
  exact ⟨⟨c, r, rfl, h c List.mem_cons_self⟩,
    _, _, (List.dropLast_append_getLast hne).symm, h _ (List.getLast_mem hne)⟩

theorem solid_of_forall (hne : s ≠ []) (h : ∀ c ∈ s, isBlank c = false) : Solid s :=
  ⟨(exists_ends hne h).1, (exists_ends hne h).2⟩

theorem Solid.between (hs : Solid s) (hc : Solid core) (mid : List Char) :
    Solid (s ++ (mid ++ core)) := by
  obtain ⟨c, r, rfl, hblank⟩ := hs.starts
  obtain ⟨front, d, rfl, hd⟩ := hc.ends
  exact ⟨⟨c, _, rfl, hblank⟩, ⟨c :: r ++ (mid ++ front), d, by simp, hd⟩⟩

theorem Solid.trim_around (h : Solid s) (hf : AllBlank front) (rest : List Char) :
    trim (front ++ (s ++ rest)) = s ++ trimEnd rest := by
  have hstart : trimStart (front ++ (s ++ rest)) = s ++ rest := by
    obtain ⟨c, r, rfl, hc⟩ := h.starts
    rw [trimStart_append_of_blank hf]
    exact trimStart_of_not_blank hc (r ++ rest)
  obtain ⟨before, c, rfl, hc⟩ := h.ends
  rw [trim, hstart, List.append_assoc, List.append_assoc]
  exact trimEnd_append_cons hc before rest

theorem Solid.trim_between (h : Solid s) (hf : AllBlank front) (hb : AllBlank back) :
    trim (front ++ (s ++ back)) = s := by
  rw [h.trim_around hf, trimEnd_eq_nil_iff.mpr hb, List.append_nil]

end ModuleLoader.Text
