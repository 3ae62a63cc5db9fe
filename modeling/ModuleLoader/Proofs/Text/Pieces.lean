import Mathlib.Data.List.Basic
import ModuleLoader.Text.Split

/-! Fronts, pieces and first occurrences of texts. Splitting goes piece by piece, and each piece stands
in the text. -/

namespace ModuleLoader.Text

theorem after?_eq_some_iff {lead s rest : List Char} :
    after? lead s = some rest ↔ s = lead ++ rest :=
  List.isPrefixOf?_eq_some_iff_append_eq.trans eq_comm

theorem isSome_after? (lead s : List Char) : (after? lead s).isSome = startsWith lead s :=
  List.isSome_isPrefixOf?_eq_isPrefixOf lead s

theorem startsWith_iff {lead s : List Char} : startsWith lead s = true ↔ lead <+: s :=
  List.isPrefixOf_iff_prefix

theorem startsWith_singleton (a : Char) (s : List Char) : startsWith [a] s = (s.head? == some a) := by
  cases s with
  | nil => rfl
  | cons c s => simp [startsWith, List.isPrefixOf_cons_cons, Bool.beq_comm]

theorem splitOn_cons_self (sep : Char) (s : List Char) :
    (sep :: s).splitOn sep = [] :: s.splitOn sep := by
  simp [List.splitOn_cons_eq_if_modifyHead]

theorem splitOn_cons_of_ne {sep c : Char} (h : c ≠ sep) {s piece : List Char}
    {pieces : List (List Char)} (hs : s.splitOn sep = piece :: pieces) :
    (c :: s).splitOn sep = (c :: piece) :: pieces := by
  simp [List.splitOn_cons_eq_if_modifyHead, h, hs]

theorem exists_splitOn_eq_cons (sep : Char) (s : List Char) :
    ∃ piece pieces, s.splitOn sep = piece :: pieces :=
  List.exists_cons_of_ne_nil (List.splitOn_ne_nil sep s)

theorem notMem_of_mem_splitOn {sep : Char} {s piece : List Char} (h : piece ∈ s.splitOn sep) :
    sep ∉ piece := by
  induction s generalizing piece with
  | nil => simp at h; simp [h]
  | cons c r ih =>
    by_cases hc : c = sep
    · rw [hc, splitOn_cons_self] at h
      rcases List.mem_cons.mp h with rfl | h
      · simp
      · exact ih h
    · obtain ⟨first, rest, hr⟩ := exists_splitOn_eq_cons sep r
      rw [splitOn_cons_of_ne hc hr] at h
      rcases List.mem_cons.mp h with rfl | h
      · have hf : sep ∉ first := ih (by simp [hr])
        simp [hf, Ne.symm hc]
      · exact ih (by simp [hr, h])

theorem intercalate_cons {sep : Char} {pieces : List (List Char)} (h : pieces ≠ [])
    (piece : List Char) :
    [sep].intercalate (piece :: pieces) = piece ++ sep :: [sep].intercalate pieces := by
  rw [List.intercalate_cons_of_ne_nil h, List.append_assoc, List.singleton_append]

theorem intercalate_append {sep : Char} {front back : List (List Char)} (hf : front ≠ [])
    (hb : back ≠ []) : [sep].intercalate (front ++ back) =
      [sep].intercalate front ++ sep :: [sep].intercalate back := by
  induction front with
  | nil => exact absurd rfl hf
  | cons piece rest ih =>
    rw [List.cons_append, intercalate_cons (by simp [hb])]
    by_cases hr : rest = []
    · rw [hr, List.nil_append, List.intercalate_singleton]
    · rw [ih hr, intercalate_cons hr, List.append_assoc, List.cons_append]

/-- The last piece goes on with what follows the pieces. -/
theorem intercalate_concat (sep : Char) (pieces : List (List Char)) (last t : List Char) :
    [sep].intercalate (pieces ++ [last ++ t]) = [sep].intercalate (pieces ++ [last]) ++ t := by
  by_cases h : pieces = []
  · simp [h]
  · simp [intercalate_append h]

theorem mem_intercalate {sep c : Char} {pieces : List (List Char)}
    (h : c ∈ [sep].intercalate pieces) : c = sep ∨ ∃ piece ∈ pieces, c ∈ piece := by
  induction pieces with
  | nil => simp at h
  | cons first rest ih =>
    by_cases hr : rest = []
    · rw [hr, List.intercalate_singleton] at h
      exact .inr ⟨first, List.mem_cons_self, h⟩
    · rw [intercalate_cons hr] at h
      rcases List.mem_append.mp h with h | h
      · exact .inr ⟨first, List.mem_cons_self, h⟩
      · rcases List.mem_cons.mp h with h | h
        · exact .inl h
        · obtain hs | ⟨piece, hm, hc⟩ := ih h
          · exact .inl hs
          · exact .inr ⟨piece, List.mem_cons_of_mem _ hm, hc⟩

/-- Each piece stands in the text that the pieces are joined to. -/
theorem infix_intercalate (sep : Char) {piece : List Char} {pieces : List (List Char)}
    (h : piece ∈ pieces) : piece <:+: [sep].intercalate pieces := by
  induction pieces with
  | nil => cases h
  | cons first rest ih =>
    by_cases hr : rest = []
    · rw [hr, List.mem_singleton] at h
      exact ⟨[], [], by simp [hr, h]⟩
    · rw [intercalate_cons hr]
      rcases List.mem_cons.mp h with rfl | h
      · exact (List.prefix_append piece _).isInfix
      · exact (ih h).trans ((List.suffix_cons sep _).trans (List.suffix_append first _)).isInfix

theorem infix_of_mem_splitOn {sep : Char} {s piece : List Char} (h : piece ∈ s.splitOn sep) :
    piece <:+: s := by
  have hpiece := infix_intercalate sep h
  rwa [List.intercalate_splitOn] at hpiece

/-- Where two texts meet, the last piece of the one goes on with the first piece of the other. -/
theorem splitOn_append {sep : Char} {s t last first : List Char} {front back : List (List Char)}
    (hs : s.splitOn sep = front ++ [last]) (ht : t.splitOn sep = first :: back) :
    (s ++ t).splitOn sep = front ++ (last ++ first) :: back := by
  have hjoin : [sep].intercalate (front ++ (last ++ first) :: back) = s ++ t := by
    have hfront : [sep].intercalate (front ++ [last]) = s := by rw [← hs, List.intercalate_splitOn]
    have hback : [sep].intercalate (first :: back) = t := by rw [← ht, List.intercalate_splitOn]
    rw [← hfront, ← hback]
    by_cases hb : back = []
    · rw [hb, intercalate_concat, List.intercalate_singleton]
    · rw [List.append_cons front, intercalate_append (by simp) hb, intercalate_concat,
        intercalate_cons hb, List.append_assoc]
  have hfront : ∀ piece ∈ front ++ [last], sep ∉ piece := fun piece hp =>
    notMem_of_mem_splitOn (hs ▸ hp)
  have hback : ∀ piece ∈ first :: back, sep ∉ piece := fun piece hp =>
    notMem_of_mem_splitOn (ht ▸ hp)
  rw [← hjoin]
  refine List.splitOn_intercalate _ (fun piece hp => ?_) (by simp)
  rcases List.mem_append.mp hp with hp | hp
  · exact hfront piece (List.mem_append_left _ hp)
  · rcases List.mem_cons.mp hp with rfl | hp
    · simp [hfront last (by simp), hback first (by simp)]
    · exact hback piece (List.mem_cons_of_mem _ hp)

theorem splitOn_append_of_notMem {sep : Char} {s t first : List Char} {rest : List (List Char)}
    (hs : sep ∉ s) (ht : t.splitOn sep = first :: rest) :
    (s ++ t).splitOn sep = (s ++ first) :: rest := by
  have hsingle : s.splitOn sep = [] ++ [s] := List.splitOn_eq_singleton hs
  exact splitOn_append hsingle ht

/-- Replacing characters by the separator cuts each piece further. -/
theorem splitOn_map_replace {sep other : Char} (h : other ≠ sep) (s : List Char) :
    (s.map fun c => if c = other then sep else c).splitOn sep =
      (s.splitOn sep).flatMap (List.splitOn other) := by
  induction s with
  | nil => simp
  | cons c r ih =>
    obtain ⟨first, rest, hr⟩ := exists_splitOn_eq_cons sep r
    obtain ⟨piece, pieces, hf⟩ := exists_splitOn_eq_cons other first
    have hmap : (r.map fun c => if c = other then sep else c).splitOn sep =
        piece :: (pieces ++ rest.flatMap (List.splitOn other)) := by
      rw [ih, hr, List.flatMap_cons, hf, List.cons_append]
    rw [List.map_cons]
    by_cases hs : c = sep
    · rw [hs, if_neg (Ne.symm h), splitOn_cons_self, splitOn_cons_self, hmap, hr,
        List.flatMap_cons, List.flatMap_cons, hf]
      rfl
    · by_cases ho : c = other
      · rw [if_pos ho, splitOn_cons_self, hmap, splitOn_cons_of_ne hs hr, List.flatMap_cons, ho,
          splitOn_cons_self, hf]
        rfl
      · rw [if_neg ho, splitOn_cons_of_ne hs hmap, splitOn_cons_of_ne hs hr, List.flatMap_cons,
          splitOn_cons_of_ne ho hf, List.cons_append]

theorem eq_of_cutAt?_eq_some {needle s before rest : List Char}
    (h : cutAt? needle s = some (before, rest)) : s = before ++ needle ++ rest := by
  induction s generalizing before with
  | nil =>
    obtain ⟨r, hr, he⟩ := Option.map_eq_some_iff.1 h
    cases he
    simpa using after?_eq_some_iff.1 hr
  | cons c r ih =>
    unfold cutAt? at h
    split at h
    · next rest' hr =>
      cases h
      simpa using after?_eq_some_iff.1 hr
    · obtain ⟨⟨b, t⟩, hc, he⟩ := Option.map_eq_some_iff.1 h
      cases he
      simp [ih hc]

theorem cutAt?_of_notMem {c : Char} {front : List Char} (h : c ∉ front) (tail : List Char) :
    cutAt? [c] (front ++ c :: tail) = some (front, tail) := by
  induction front with
  | nil => simp [cutAt?, after?_cons]
  | cons x front ih =>
    obtain ⟨hx, hf⟩ := not_or.mp (List.mem_cons.not.mp h)
    simp [cutAt?, after?_cons, hx, ih hf]

theorem cutAt?_eq_none {c : Char} {word s : List Char} (h : c ∉ s) : cutAt? (c :: word) s = none := by
  by_contra hne
  obtain ⟨⟨front, tail⟩, hc⟩ := Option.ne_none_iff_exists'.mp hne
  apply h
  rw [eq_of_cutAt?_eq_some hc]
  simp

theorem forwardSlashes_eq_self {s : String} (h : '\\' ∉ s.toList) : forwardSlashes s = s := by
  have hid : s.toList.map (fun c => if c = '\\' then '/' else c) = s.toList.map id := by
    refine List.map_congr_left fun c hc => ?_
    have hne : c ≠ '\\' := fun he => h (he ▸ hc)
    exact if_neg hne
  rw [← String.toList_inj, toList_forwardSlashes, hid, List.map_id]

theorem backslash_notMem_forwardSlashes (s : String) : '\\' ∉ (forwardSlashes s).toList := by
  rw [toList_forwardSlashes]
  intro hm
  obtain ⟨c, -, hc⟩ := List.mem_map.mp hm
  split at hc
  · exact absurd hc (by decide)
  · next hne => exact hne hc

end ModuleLoader.Text
