import ModuleLoader.Proofs.Package.Subpaths
import ModuleLoader.Proofs.Text.Slices

/-! Patterns and what they match. Matching undoes the substitution of a capture that is not empty, and
the capture can always be cut out of the subpath by byte offsets. -/

namespace ModuleLoader.Target

open Text

variable {pattern subpath capture : String}

theorem matchPattern?_of_notMem (h : '*' ∉ pattern.toList) :
    matchPattern? pattern subpath = none := by
  rw [matchPattern?, cutAt?_eq_none h]

/-- A pattern with one `*` matches exactly what substitution makes of it. -/
theorem matchPattern?_iff_substituteStar (h : starCount pattern = 1) :
    matchPattern? pattern subpath = some capture ↔
      capture ≠ "" ∧ substituteStar pattern capture = .ok subpath := by
  obtain ⟨front, tail, hp, hf, ht⟩ := exists_of_count_eq_one h
  have hfilled : filled pattern capture = String.ofList (front ++ capture.toList ++ tail) := by
    simp [filled, hp, flatMap_of_notMem hf, flatMap_of_notMem ht]
  have hsub : substituteStar pattern capture = .ok (filled pattern capture) := by
    rw [substituteStar_eq, if_neg (by omega)]
  rw [matchPattern?_eq_some_iff hf hp, hsub, hfilled, Except.ok.injEq, ← String.toList_inj,
    String.toList_ofList, and_comm, eq_comm]

/-! ## Byte offsets -/

/-- A match found by byte offsets. The subpath has to start with what stands before the `*` and to end
with what stands behind it, and the capture is cut out between the two. Nothing at all is the answer
if that cut cannot be made. -/
def matchByOffsets? (pattern subpath : String) : Option (Option String) :=
  match cutAt? ['*'] pattern.toList with
  | none => some none
  | some (front, tail) =>
    let s := subpath.toList
    if startsWith front s && startsWith tail.reverse s.reverse then
      if byteLength s < byteLength tail then some none
      else
        let start := byteLength front
        let stop := byteLength s - byteLength tail
        if stop ≤ start then some none
        else (slice? start stop s).map fun capture => some (String.ofList capture)
    else some none

theorem matchByOffsets?_of_between {front piece tail : List Char}
    (hp : pattern.toList = front ++ '*' :: tail) (hf : '*' ∉ front) (hne : piece ≠ [])
    (hs : subpath.toList = front ++ piece ++ tail) :
    matchByOffsets? pattern subpath = some (some (String.ofList piece)) := by
  have hpos := byteLength_pos hne
  have hstart : startsWith front subpath.toList = true :=
    startsWith_iff.mpr ⟨piece ++ tail, by simp [hs]⟩
  have hend : startsWith tail.reverse subpath.toList.reverse = true :=
    startsWith_reverse_iff.mpr ⟨front ++ piece, by simp [hs]⟩
  have hlength : byteLength subpath.toList = byteLength (front ++ piece) + byteLength tail := by
    rw [hs, byteLength_append]
  have hlonger : byteLength (front ++ piece) = byteLength front + byteLength piece := by simp
  have hstop : byteLength subpath.toList - byteLength tail = byteLength (front ++ piece) := by omega
  have hslice : slice? (byteLength front) (byteLength (front ++ piece)) subpath.toList = some piece :=
    slice?_eq_some_iff.mpr ⟨front, tail, hs, rfl, rfl⟩
  rw [matchByOffsets?, hp, cutAt?_of_notMem hf]
  dsimp only
  rw [if_pos (by simp [hstart, hend]), if_neg (by omega), hstop, if_neg (by omega), hslice]
  rfl

/-- Where the prefix and the suffix leave no room for a capture, the cut is not made. -/
theorem matchByOffsets?_of_not_between {front tail : List Char}
    (hp : pattern.toList = front ++ '*' :: tail) (hf : '*' ∉ front)
    (h : ¬∃ piece, piece ≠ [] ∧ subpath.toList = front ++ piece ++ tail) :
    matchByOffsets? pattern subpath = some none := by
  rw [matchByOffsets?, hp, cutAt?_of_notMem hf]
  dsimp only
  split
  · next htests =>
    obtain ⟨hstart, hend⟩ := Bool.and_eq_true_iff.mp htests
    have hle : byteLength subpath.toList ≤ byteLength front + byteLength tail := by
      by_contra hlt
      apply h
      exact exists_between (startsWith_iff.mp hstart) (startsWith_reverse_iff.mp hend) (by omega)
    split
    · rfl
    · rw [if_pos (by omega)]
  · rfl

theorem matchByOffsets?_eq (pattern subpath : String) :
    matchByOffsets? pattern subpath = some (matchPattern? pattern subpath) := by
  by_cases hstar : '*' ∈ pattern.toList
  · obtain ⟨front, tail, hp, hf⟩ := List.eq_append_cons_of_mem hstar
    by_cases h : ∃ piece, piece ≠ [] ∧ subpath.toList = front ++ piece ++ tail
    · obtain ⟨piece, hne, hs⟩ := h
      rw [matchByOffsets?_of_between hp hf hne hs, eq_comm, Option.some.injEq,
        matchPattern?_eq_some_iff hf hp]
      exact ⟨by simpa using hs, by simpa using hne⟩
    · rw [matchByOffsets?_of_not_between hp hf h, eq_comm, Option.some.injEq,
        Option.eq_none_iff_forall_ne_some]
      intro capture hc
      obtain ⟨hs, hne⟩ := (matchPattern?_eq_some_iff hf hp).mp hc
      exact h ⟨capture.toList, by simpa using hne, hs⟩
  · rw [matchPattern?_of_notMem hstar, matchByOffsets?, cutAt?_eq_none hstar]

/-- A pattern matches a subpath with a capture exactly if the capture is not empty and the subpath is
the pattern with the capture for its first `*`. So with one `*` matching is the inverse of
substitution. It is the same found by byte offsets, which always fall between characters. -/
theorem match_inverts_substitution (pattern subpath : String) :
    ('*' ∉ pattern.toList → matchPattern? pattern subpath = none) ∧
    (∀ front tail, '*' ∉ front.toList → pattern = front ++ "*" ++ tail → ∀ capture,
      matchPattern? pattern subpath = some capture ↔
        capture ≠ "" ∧ subpath = front ++ capture ++ tail) ∧
    (starCount pattern = 1 → ∀ capture, matchPattern? pattern subpath = some capture ↔
      capture ≠ "" ∧ substituteStar pattern capture = .ok subpath) ∧
    matchByOffsets? pattern subpath = some (matchPattern? pattern subpath) := by
  refine ⟨matchPattern?_of_notMem, fun front tail hf hp capture => ?_,
    fun h _ => matchPattern?_iff_substituteStar h, matchByOffsets?_eq pattern subpath⟩
  have hlist : pattern.toList = front.toList ++ '*' :: tail.toList := by simp [hp]
  rw [matchPattern?_eq_some_iff hf hlist, and_comm, ← String.toList_inj]
  simp

/-- A prefix and a suffix that overlap in the subpath do not match, and a capture of characters of
several bytes is cut out whole. -/
theorem match_inverts_substitution_overlap :
    matchPattern? "./é*é" "./é" = none ∧ matchPattern? "./é*é" "./é→é" = some "→" ∧
      substituteStar "./é*é" "→" = .ok "./é→é" ∧ matchPattern? "./é" "./é" = none ∧
      matchByOffsets? "./é*é" "./é" = some none := by
  obtain ⟨-, hoverlap, -, hoffsets⟩ := match_inverts_substitution "./é*é" "./é"
  obtain ⟨-, -, hinverse, -⟩ := match_inverts_substitution "./é*é" "./é→é"
  have hsubstitute : substituteStar "./é*é" "→" = .ok "./é→é" := by decide +kernel
  have hnone : matchPattern? "./é*é" "./é" = none := by
    refine Option.eq_none_iff_forall_ne_some.mpr fun capture hc => ?_
    obtain ⟨-, hs⟩ := (hoverlap "./é" "é" (by decide +kernel) (by decide +kernel) capture).mp hc
    have hlength := congrArg String.length hs
    rw [String.length_append, String.length_append, show "é".length = 1 by decide] at hlength
    omega
  refine ⟨hnone, ?_, hsubstitute, ?_, ?_⟩
  · exact (hinverse (by decide +kernel) "→").mpr ⟨by decide +kernel, hsubstitute⟩
  · exact (match_inverts_substitution "./é" "./é").1 (by decide +kernel)
  · rw [hoffsets, hnone]

end ModuleLoader.Target
