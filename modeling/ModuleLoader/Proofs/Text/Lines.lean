import Mathlib.Data.List.Basic
import ModuleLoader.Proofs.Text.Pieces
import ModuleLoader.Text.Quoted

/-! Texts line by line: how many lines there are, what a text that is put together from as many lines
is cut into again, and what is left of a text whose lines are joined as they are. A quoted text
stays on its line. -/

namespace ModuleLoader.Text

theorem exists_splitOn_eq_concat (sep : Char) (s : List Char) :
    ∃ front last, s.splitOn sep = front ++ [last] :=
  ⟨_, _, (List.dropLast_append_getLast (List.splitOn_ne_nil sep s)).symm⟩

theorem length_splitOn (sep : Char) (s : List Char) : (s.splitOn sep).length = s.count sep + 1 := by
  induction s with
  | nil => simp
  | cons c r ih =>
    by_cases hc : c = sep
    · rw [hc, splitOn_cons_self, List.length_cons, ih, List.count_cons_self]
    · obtain ⟨piece, pieces, hr⟩ := exists_splitOn_eq_cons sep r
      rw [hr] at ih
      rw [splitOn_cons_of_ne hc hr, List.length_cons, List.count_cons_of_ne hc, ← ih,
        List.length_cons]

theorem getLast?_intercalate_concat (sep : Char) (front : List (List Char)) {last : List Char}
    (hl : last ≠ []) : ([sep].intercalate (front ++ [last])).getLast? = last.getLast? := by
  have hlast := intercalate_concat sep front [] last
  rw [List.nil_append] at hlast
  rw [hlast, List.getLast?_append_of_ne_nil _ hl]

theorem intercalate_concat_nil (sep : Char) {pieces : List (List Char)} (h : pieces ≠ []) :
    [sep].intercalate (pieces ++ [[]]) = [sep].intercalate pieces ++ [sep] := by
  rw [intercalate_append h (by simp), List.intercalate_singleton]

/-- The last piece is empty where the text ends in a separator, or is empty itself. -/
theorem eq_nil_of_splitOn {sep : Char} {s last : List Char} {front : List (List Char)}
    (h : s.splitOn sep = front ++ [last]) : last = [] ↔ s = [] ∨ s.getLast? = some sep := by
  have hs : [sep].intercalate (front ++ [last]) = s := by rw [← h, List.intercalate_splitOn]
  have hlast : sep ∉ last := notMem_of_mem_splitOn (h ▸ List.mem_append_right _ List.mem_cons_self)
  constructor
  · rintro rfl
    by_cases hf : front = []
    · rw [hf] at hs
      exact .inl hs.symm
    · rw [intercalate_concat_nil sep hf] at hs
      rw [← hs]
      exact .inr List.getLast?_concat
  · rintro (rfl | he)
    · have hp : [] ++ [[]] = front ++ [last] := h
      exact (List.append_inj_right' hp rfl |> List.cons.inj).1.symm
    · by_contra hne
      rw [← hs, getLast?_intercalate_concat sep front hne] at he
      exact hlast (List.mem_of_getLast? he)

/-! ## Lines -/

theorem lines_of_splitOn {s last : List Char} {front : List (List Char)}
    (h : s.splitOn '\n' = front ++ [last]) :
    lines s = front.map dropReturn ++ if last = [] then [] else [last] := by
  by_cases hl : last = [] <;> simp [lines, h, hl]

theorem dropReturn_subset (line : List Char) : dropReturn line ⊆ line := by
  unfold dropReturn
  split
  · exact List.dropLast_subset line
  · exact List.Subset.refl line

theorem notMem_of_mem_lines {s line : List Char} (h : line ∈ lines s) : '\n' ∉ line := by
  obtain ⟨front, last, hs⟩ := exists_splitOn_eq_concat '\n' s
  have hpiece : ∀ piece ∈ front ++ [last], '\n' ∉ piece := fun piece hm =>
    notMem_of_mem_splitOn (hs ▸ hm)
  rw [lines_of_splitOn hs] at h
  rcases List.mem_append.mp h with h | h
  · obtain ⟨piece, hm, rfl⟩ := List.mem_map.mp h
    exact fun hn => hpiece piece (List.mem_append_left _ hm) (dropReturn_subset piece hn)
  · split at h
    · cases h
    · obtain rfl := List.mem_singleton.mp h
      exact hpiece line (List.mem_append_right _ List.mem_cons_self)

/-- The text of some lines that ends in a line feed if `s` does. -/
def textLike (s : List Char) (out : List (List Char)) : List Char :=
  if s.getLast? = some '\n' then ['\n'].intercalate out ++ ['\n'] else ['\n'].intercalate out

/-- Where the text ends in a line feed, an empty piece follows its lines. -/
theorem textLike_eq_intercalate {s last : List Char} {front out : List (List Char)}
    (hs : s.splitOn '\n' = front ++ [last]) (hlen : out.length = (lines s).length) :
    textLike s out = ['\n'].intercalate (if last = [] then out ++ [[]] else out) := by
  have hlast := eq_nil_of_splitOn hs
  rw [lines_of_splitOn hs] at hlen
  unfold textLike
  by_cases hl : last = []
  · rw [if_pos hl]
    rw [if_pos hl, List.append_nil, List.length_map] at hlen
    by_cases hf : front = []
    · obtain rfl : out = [] := List.eq_nil_of_length_eq_zero (by rw [hlen, hf]; rfl)
      have hnil : s = [] := by
        have hjoin : ['\n'].intercalate (s.splitOn '\n') = s := List.intercalate_splitOn '\n'
        rw [hs, hl, hf] at hjoin
        exact hjoin.symm
      rw [hnil]
      rfl
    · have hne : s ≠ [] := by
        rintro rfl
        have hp : [] ++ [[]] = front ++ [last] := hs
        exact hf (List.append_inj_left' hp rfl).symm
      have hout : out ≠ [] := by
        rintro rfl
        exact hf (List.eq_nil_of_length_eq_zero hlen.symm)
      rw [if_pos ((hlast.mp hl).resolve_left hne), intercalate_concat_nil '\n' hout]
  · have he : ¬s.getLast? = some '\n' := fun he => hl (hlast.mpr (.inr he))
    rw [if_neg hl, if_neg he]

/-- Texts of as many lines as there were are cut into just these. Whether an empty piece follows them
does not depend on the lines. -/
theorem exists_splitOn_textLike (s : List Char) :
    ∃ rest, (rest = [] ∨ rest = [[]]) ∧ ∀ out, out.length = (lines s).length →
      (∀ piece ∈ out, '\n' ∉ piece) → (textLike s out).splitOn '\n' = out ++ rest ∧
        (out ++ rest).length = (s.splitOn '\n').length := by
  obtain ⟨front, last, hs⟩ := exists_splitOn_eq_concat '\n' s
  rw [hs]
  by_cases hl : last = []
  · refine ⟨[[]], .inr rfl, fun out hlen hout => ?_⟩
    rw [textLike_eq_intercalate hs hlen, if_pos hl]
    rw [lines_of_splitOn hs, if_pos hl, List.append_nil, List.length_map] at hlen
    have hpieces : ∀ piece ∈ out ++ [[]], '\n' ∉ piece := by
      intro piece hm
      rcases List.mem_append.mp hm with hm | hm
      · exact hout piece hm
      · rw [List.mem_singleton.mp hm]
        exact List.not_mem_nil
    exact ⟨List.splitOn_intercalate _ hpieces (by simp), by simp [hlen]⟩
  · refine ⟨[], .inl rfl, fun out hlen hout => ?_⟩
    rw [textLike_eq_intercalate hs hlen, if_neg hl]
    rw [lines_of_splitOn hs, if_neg hl, List.length_append, List.length_map] at hlen
    have hne : out ≠ [] := by
      rintro rfl
      simp at hlen
    exact ⟨by rw [List.splitOn_intercalate _ hout hne, List.append_nil], by simp [hlen]⟩

/-- A text of as many lines as there were is cut into just these. -/
theorem splitOn_textLike {s : List Char} {out : List (List Char)}
    (hlen : out.length = (lines s).length) (hout : ∀ piece ∈ out, '\n' ∉ piece) :
    ∃ rest, (textLike s out).splitOn '\n' = out ++ rest ∧
      (out ++ rest).length = (s.splitOn '\n').length :=
  (exists_splitOn_textLike s).imp fun _ h => h.2 out hlen hout

theorem count_textLike {s : List Char} {out : List (List Char)}
    (hlen : out.length = (lines s).length) (hout : ∀ piece ∈ out, '\n' ∉ piece) :
    (textLike s out).count '\n' = s.count '\n' := by
  obtain ⟨rest, hp, hl⟩ := splitOn_textLike hlen hout
  rw [← hp, length_splitOn, length_splitOn] at hl
  omega

/-! ## Line ends -/

/-- The text without the carriage returns that stand before a line feed. -/
def plainFeeds : List Char → List Char
  | [] => []
  | c :: r => if c = '\r' ∧ r.head? = some '\n' then plainFeeds r else c :: plainFeeds r

theorem plainFeeds_of_notMem {s : List Char} (h : '\n' ∉ s) : plainFeeds s = s := by
  induction s with
  | nil => rfl
  | cons c r ih =>
    have hr := ih fun hm => h (List.mem_cons_of_mem c hm)
    have hh : ¬(c = '\r' ∧ r.head? = some '\n') := fun hc =>
      h (List.mem_cons_of_mem c (List.mem_of_head? hc.2))
    rw [plainFeeds, if_neg hh, hr]

theorem dropReturn_cons_cons (c d : Char) (r : List Char) :
    dropReturn (c :: d :: r) = c :: dropReturn (d :: r) := by
  unfold dropReturn
  rw [List.getLast?_cons_cons]
  split <;> rfl

theorem plainFeeds_append_feed {piece : List Char} (h : '\n' ∉ piece) (r : List Char) :
    plainFeeds (piece ++ '\n' :: r) = dropReturn piece ++ '\n' :: plainFeeds r := by
  induction piece with
  | nil => simp [plainFeeds, dropReturn]
  | cons c piece ih =>
    have hp := ih fun hm => h (List.mem_cons_of_mem c hm)
    rw [List.cons_append, plainFeeds, hp]
    cases piece with
    | nil => by_cases hc : c = '\r' <;> simp [dropReturn, hc]
    | cons d piece =>
      have hd : d ≠ '\n' := fun he => h (by simp [he])
      have hh : ¬(c = '\r' ∧ (d :: piece ++ '\n' :: r).head? = some '\n') := by simp [hd]
      rw [if_neg hh, dropReturn_cons_cons]
      rfl

theorem plainFeeds_intercalate {front : List (List Char)} {last : List Char}
    (h : ∀ piece ∈ front ++ [last], '\n' ∉ piece) :
    plainFeeds (['\n'].intercalate (front ++ [last])) =
      ['\n'].intercalate (front.map dropReturn ++ [last]) := by
  induction front with
  | nil =>
    rw [List.map_nil, List.nil_append, List.intercalate_singleton]
    exact plainFeeds_of_notMem (h last List.mem_cons_self)
  | cons piece rest ih =>
    have hpiece : '\n' ∉ piece := h piece List.mem_cons_self
    have hrest := ih fun q hm => h q (List.mem_cons_of_mem piece hm)
    rw [List.cons_append, intercalate_cons (by simp), plainFeeds_append_feed hpiece, hrest,
      List.map_cons, List.cons_append, intercalate_cons (by simp)]

/-- Lines joined as they are give the text back, but for its carriage returns. -/
theorem textLike_lines (s : List Char) : textLike s (lines s) = plainFeeds s := by
  obtain ⟨front, last, hs⟩ := exists_splitOn_eq_concat '\n' s
  have hpieces : ∀ piece ∈ front ++ [last], '\n' ∉ piece := fun piece hm =>
    notMem_of_mem_splitOn (hs ▸ hm)
  have hlines : (if last = [] then lines s ++ [[]] else lines s) =
      front.map dropReturn ++ [last] := by
    rw [lines_of_splitOn hs]
    by_cases hl : last = [] <;> simp [hl]
  calc textLike s (lines s)
    _ = ['\n'].intercalate (front.map dropReturn ++ [last]) := by
      rw [textLike_eq_intercalate hs rfl, hlines]
    _ = plainFeeds (['\n'].intercalate (s.splitOn '\n')) := by rw [hs, plainFeeds_intercalate hpieces]
    _ = plainFeeds s := by rw [List.intercalate_splitOn]

/-! ## Quoted texts -/

theorem notMem_escapeChar (c : Char) : '\n' ∉ escapeChar c := by
  unfold escapeChar
  split_ifs with _ _ _ _ hn _ _ hlt
  any_goals decide
  · have hdigit (n : Nat) : '\n' ≠ n.digitChar := (Nat.digitChar_ne '\n' rfl).symm
    simp [hdigit]
  · simpa using Ne.symm hn

/-- A quoted text escapes its line feeds. -/
theorem notMem_quote (s : String) : '\n' ∉ (quote s).toList := by
  have he : '\n' ∉ escape s.toList := by
    rw [escape, List.mem_flatMap]
    rintro ⟨c, -, hc⟩
    exact notMem_escapeChar c hc
  simp [toList_quote, he]

end ModuleLoader.Text
