import Mathlib.Data.List.Infix
import ModuleLoader.Proofs.Path.Components

/-! The directories above a path. Each one has one component less than the one below it, down to
the root or to the empty path. -/

namespace ModuleLoader.Path

open Text

theorem dropIdle_cons {segment : List Char} {rest : List (List Char)} (h : rest ≠ []) :
    dropIdle (segment :: rest) =
      if segment.isEmpty || isDot segment then dropIdle rest else segment :: rest := by
  cases rest with
  | nil => exact absurd rfl h
  | cons next rest => rfl

theorem innerComponent?_eq_none_iff {segment : List Char} :
    innerComponent? segment = none ↔ (segment.isEmpty || isDot segment) = true := by
  unfold innerComponent?
  split
  · next h => simpa using h
  · next h => split <;> simpa using h

theorem exists_dropIdle_eq (first : List Char) (rest : List (List Char)) :
    ∃ kept, dropIdle (first :: rest).reverse = (first :: kept).reverse ∧
      kept.filterMap innerComponent? = rest.filterMap innerComponent? ∧
      ∀ last ∈ kept.getLast?, innerComponent? last ≠ none := by
  induction rest using List.reverseRecOn with
  | nil => exact ⟨[], rfl, rfl, by simp⟩
  | append_singleton rest last ih =>
    have hrev : (first :: (rest ++ [last])).reverse = last :: (first :: rest).reverse := by simp
    rw [hrev, dropIdle_cons (by simp)]
    by_cases hl : (last.isEmpty || isDot last) = true
    · obtain ⟨kept, hd, hk, hlast⟩ := ih
      have hn : innerComponent? last = none := innerComponent?_eq_none_iff.mpr hl
      refine ⟨kept, by rw [if_pos hl, hd], ?_, hlast⟩
      simp [hk, hn]
    · refine ⟨rest ++ [last], by rw [if_neg hl, hrev], rfl, ?_⟩
      intro x hx
      obtain rfl : last = x := by simpa using hx
      exact fun hn => hl (innerComponent?_eq_none_iff.mp hn)

theorem segments_ofSegments {segments : List (List Char)} (hne : segments ≠ [])
    (h : ∀ s ∈ segments, '/' ∉ s) : (ofSegments segments).segments = segments := by
  simp only [ofSegments, Path.segments, String.toList_ofList]
  exact List.splitOn_intercalate _ h hne

theorem mem_of_mem_dropIdle {segment : List Char} {segments : List (List Char)}
    (h : segment ∈ dropIdle segments) : segment ∈ segments := by
  fun_induction dropIdle segments with
  | case1 => exact h
  | case2 => exact h
  | case3 next rest _ _ ih => exact List.mem_cons_of_mem _ (ih h)
  | case4 => exact h

/-- The components of the directory that has a path in it. The root and the empty path are in
none. -/
def above? (components : List Component) : Option (List Component) :=
  if components = [] ∨ components = [.root] then none else some components.dropLast

theorem above?_concat {components : List Component} {last : Component} (h : last ≠ .root) :
    above? (components ++ [last]) = some components := by
  rw [above?, if_neg, List.dropLast_concat]
  rintro (he | he)
  · simp at he
  · have hlast : some last = some Component.root := by simpa using congrArg List.getLast? he
    exact h (Option.some.inj hlast)

/-- The path that is left of pieces once those at the end that mean nothing are gone. -/
theorem map_components_dropIdle {first : List Char} {rest : List (List Char)}
    (h : ∀ s ∈ first :: rest, '/' ∉ s) :
    (match dropIdle (first :: rest).reverse with
      | [[]] => some (⟨"/"⟩ : Path)
      | kept => some (ofSegments kept.reverse)).map components =
      some ((firstComponent? first false).toList ++ rest.filterMap innerComponent?) := by
  obtain ⟨kept, hd, hk, -⟩ := exists_dropIdle_eq first rest
  have hno : ∀ s ∈ first :: kept, '/' ∉ s := by
    intro s hm
    have hmem : s ∈ dropIdle (first :: rest).reverse := by
      rw [hd]; exact List.mem_reverse.mpr hm
    exact h s (List.mem_reverse.mp (mem_of_mem_dropIdle hmem))
  rw [hd, ← hk]
  split
  · next heq =>
    have hr : first :: kept = [[]] := by simpa using congrArg List.reverse heq
    obtain ⟨rfl, rfl⟩ : first = [] ∧ kept = [] := by simpa using hr
    have hroot : components ⟨"/"⟩ = [.root] := by decide
    simp [hroot, firstComponent?]
  · next hne =>
    have hseg := segments_ofSegments (List.cons_ne_nil first kept) hno
    have hfirst : firstComponent? first kept.isEmpty = firstComponent? first false := by
      by_cases hf : first = []
      · have hkept : kept ≠ [] := fun hk => hne (by simp [hf, hk])
        have he : kept.isEmpty = false := by simpa using hkept
        rw [he]
      · exact firstComponent?_of_ne_nil hf _ _
    rw [List.reverse_reverse, Option.map_some, components_eq hseg, hfirst]

theorem map_components_parent? (p : Path) : p.parent?.map components = above? p.components := by
  obtain ⟨first, rest, hs⟩ := p.exists_segments_eq_cons
  obtain ⟨kept, hd, hk, hlast⟩ := exists_dropIdle_eq first rest
  have hno : ∀ s ∈ first :: kept, '/' ∉ s := by
    intro s hm
    have hmem : s ∈ dropIdle p.segments.reverse := by
      rw [hs, hd]; exact List.mem_reverse.mpr hm
    exact notMem_of_mem_splitOn (List.mem_reverse.mp (mem_of_mem_dropIdle hmem))
  rw [components_eq hs, ← hk]
  unfold parent?
  rw [hs, hd]
  cases kept using List.reverseRecOn with
  | nil =>
    cases first with
    | nil => cases rest <;> simp [above?, firstComponent?]
    | cons c r =>
      obtain ⟨x, hx, hroot⟩ :=
        exists_firstComponent?_eq_some (List.cons_ne_nil c r) rest.isEmpty
      have he : components ⟨""⟩ = [] := text_eq_empty_iff.mp rfl
      simp [above?, hx, hroot, he]
  | append_singleton kept last =>
    obtain ⟨x, hx⟩ := Option.ne_none_iff_exists'.mp (hlast last (by simp))
    have hstep : x ≠ .root := by
      rintro rfl
      exact absurd (isStep_of_innerComponent? hx) (by simp [Component.isStep])
    have hrest : rest.isEmpty = false := by
      cases rest with
      | nil => simp [hx] at hk
      | cons _ _ => rfl
    have hshape : (firstComponent? first rest.isEmpty).toList ++
        (kept ++ [last]).filterMap innerComponent? =
        ((firstComponent? first false).toList ++ kept.filterMap innerComponent?) ++ [x] := by
      simp [hx, hrest]
    have hrev : (first :: (kept ++ [last])).reverse = last :: (first :: kept).reverse := by simp
    obtain ⟨z, zs, hz⟩ : ∃ z zs, (first :: kept).reverse = z :: zs :=
      List.exists_cons_of_ne_nil (by simp)
    rw [hshape, above?_concat hstep, hrev, hz]
    dsimp only
    rw [← hz]
    refine map_components_dropIdle fun s hm => ?_
    refine hno s ?_
    rcases List.mem_cons.mp hm with rfl | hm
    · simp
    · simp [hm]

/-- A path with an extension ends in a file name, so it lies in a directory. -/
theorem exists_parent?_of_extension? {p : Path} {ext : String} (h : p.extension? = some ext) :
    ∃ dir, p.parent? = some dir := by
  have hparent := map_components_parent? p
  cases hp : p.parent? with
  | some dir => exact ⟨dir, rfl⟩
  | none =>
    rw [hp] at hparent
    have hc : p.components = [] ∨ p.components = [.root] := by
      by_contra hcon
      rw [above?, if_neg hcon] at hparent
      simp at hparent
    rcases hc with hc | hc <;> simp [extension?, fileName?, hc] at h

/-- The components of the directories from a path upwards. -/
def upward (components : List Component) : List (List Component) :=
  if components.head? = some .root then components.inits.tail.reverse
  else components.inits.reverse

theorem upward_of_above?_eq_none {components : List Component} (h : above? components = none) :
    upward components = [components] := by
  unfold above? at h
  split at h
  · next hc => rcases hc with rfl | rfl <;> simp [upward]
  · simp at h

theorem upward_of_above?_eq_some {components above : List Component}
    (h : above? components = some above) : upward components = components :: upward above := by
  unfold above? at h
  split at h
  · simp at h
  · next hc =>
    push Not at hc
    obtain ⟨init, last, rfl⟩ : ∃ init last, components = init ++ [last] :=
      ⟨_, _, (List.dropLast_append_getLast hc.1).symm⟩
    obtain rfl : init = above := by simpa using h
    have hinits : (init ++ [last]).inits = init.inits ++ [init ++ [last]] := by
      simp [List.inits_append]
    cases init with
    | nil =>
      have hroot : last ≠ .root := by simpa using hc.2
      simp [upward, hroot]
    | cons c r =>
      by_cases hr : c = .root
      · subst hr
        simp only [upward, List.cons_append, List.head?_cons, if_true]
        rw [← List.cons_append, hinits]
        simp
      · simp only [upward, List.cons_append, List.head?_cons, Option.some.injEq, if_neg hr]
        rw [← List.cons_append, hinits, List.reverse_append]
        simp

theorem length_components_le (p : Path) : p.components.length ≤ p.segments.length := by
  obtain ⟨first, rest, h⟩ := p.exists_segments_eq_cons
  have h₁ : (firstComponent? first rest.isEmpty).toList.length ≤ 1 := by
    cases firstComponent? first rest.isEmpty <;> simp
  have h₂ := List.length_filterMap_le innerComponent? rest
  rw [components_eq h, h, List.length_append, List.length_cons]
  omega

theorem map_components_ancestorsFrom {fuel : Nat} {p : Path} (h : p.components.length ≤ fuel) :
    (ancestorsFrom fuel p).map components = upward p.components := by
  induction fuel generalizing p with
  | zero =>
    have hp : p.components = [] := List.length_eq_zero_iff.mp (by omega)
    simp [ancestorsFrom, hp, upward]
  | succ fuel ih =>
    have hparent := map_components_parent? p
    cases hq : p.parent? with
    | none =>
      rw [hq] at hparent
      simp [ancestorsFrom, hq, upward_of_above?_eq_none hparent.symm]
    | some q =>
      rw [hq] at hparent
      have hup := upward_of_above?_eq_some hparent.symm
      have hlen : q.components.length ≤ fuel := by
        have ha := hparent.symm
        unfold above? at ha
        split at ha
        · simp at ha
        · next hc =>
          push Not at hc
          have hd : p.components.dropLast = q.components := by simpa using ha
          have hpos := List.length_pos_of_ne_nil hc.1
          rw [← hd, List.length_dropLast]
          omega
      simp [ancestorsFrom, hq, hup, ih hlen]

theorem map_components_ancestors (p : Path) :
    p.ancestors.map components = upward p.components :=
  map_components_ancestorsFrom (length_components_le p)

theorem components_mem_upward {p q : Path} (h : q ∈ p.ancestors) :
    q.components ∈ upward p.components := by
  rw [← map_components_ancestors]
  exact List.mem_map_of_mem h

end ModuleLoader.Path
