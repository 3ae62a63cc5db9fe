import Mathlib.Data.List.Infix
import ModuleLoader.Path
import ModuleLoader.PathMap
import ModuleLoader.Proofs.Text.Pieces

/-! What the operations on paths do to components. All of them look at the components only, so
paths that mean the same stay so. -/

namespace ModuleLoader.Path

open Text

/-- Whether a component leads from a directory to another one. -/
def Component.isStep : Component → Bool
  | .up => true
  | .name _ => true
  | _ => false

/-- The components that the pieces would give behind another path. -/
def inner (p : Path) : List Component := p.segments.filterMap innerComponent?

theorem exists_segments_eq_cons (p : Path) : ∃ first rest, p.segments = first :: rest :=
  exists_splitOn_eq_cons '/' p.text.toList

theorem intercalate_segments (p : Path) : ['/'].intercalate p.segments = p.text.toList :=
  List.intercalate_splitOn '/'

theorem components_eq {p : Path} {first : List Char} {rest : List (List Char)}
    (h : p.segments = first :: rest) :
    p.components = (firstComponent? first rest.isEmpty).toList ++ rest.filterMap innerComponent? := by
  simp [components, h]

theorem isStep_of_innerComponent? {segment : List Char} {c : Component}
    (h : innerComponent? segment = some c) : c.isStep = true := by
  unfold innerComponent? at h
  split at h
  · simp at h
  · split at h <;> cases h <;> rfl

theorem isStep_of_mem_filterMap {segments : List (List Char)} {c : Component}
    (h : c ∈ segments.filterMap innerComponent?) : c.isStep = true := by
  obtain ⟨s, -, hs⟩ := List.mem_filterMap.mp h
  exact isStep_of_innerComponent? hs

theorem firstComponent?_of_ne_nil {first : List Char} (h : first ≠ []) (last other : Bool) :
    firstComponent? first last = firstComponent? first other := by
  have he : first.isEmpty = false := by simpa using h
  simp [firstComponent?, he]

theorem exists_firstComponent?_eq_some {first : List Char} (h : first ≠ []) (last : Bool) :
    ∃ c, firstComponent? first last = some c ∧ c ≠ .root := by
  have he : first.isEmpty = false := by simpa using h
  simp only [firstComponent?, innerComponent?, he, Bool.false_or, Bool.false_eq_true, if_false]
  split
  · exact ⟨.here, rfl, by simp⟩
  · split
    · exact ⟨.up, rfl, by simp⟩
    · exact ⟨.name (String.ofList first), rfl, by simp⟩

theorem filter_firstComponent? (first : List Char) (last : Bool) :
    (firstComponent? first last).toList.filter Component.isStep = (innerComponent? first).toList := by
  by_cases he : first.isEmpty = true
  · cases last <;> simp [firstComponent?, innerComponent?, he, Component.isStep]
  · by_cases hd : isDot first = true
    · simp [firstComponent?, innerComponent?, he, hd, Component.isStep]
    · simp only [firstComponent?, he, hd]
      refine List.filter_eq_self.mpr fun c hc => ?_
      exact isStep_of_innerComponent? (by simpa using hc)

theorem inner_eq (p : Path) : p.inner = p.components.filter Component.isStep := by
  obtain ⟨first, rest, h⟩ := p.exists_segments_eq_cons
  have hrest : (rest.filterMap innerComponent?).filter Component.isStep =
      rest.filterMap innerComponent? :=
    List.filter_eq_self.mpr fun c hc => isStep_of_mem_filterMap hc
  rw [components_eq h, List.filter_append, hrest, filter_firstComponent?, inner, h]
  cases hf : innerComponent? first <;> simp [hf]

theorem text_eq_empty_iff {p : Path} : p.text = "" ↔ p.components = [] := by
  obtain ⟨first, rest, h⟩ := p.exists_segments_eq_cons
  have ht : p.text = "" ↔ p.text.toList = [] := by simp
  rw [ht, ← p.intercalate_segments, h, components_eq h]
  cases first with
  | nil => cases rest <;> simp [firstComponent?]
  | cons c r =>
    obtain ⟨x, hx, -⟩ := exists_firstComponent?_eq_some (List.cons_ne_nil c r) rest.isEmpty
    rw [hx]
    cases rest <;> simp

theorem isAbsolute_eq (p : Path) : p.isAbsolute = (p.components.head? == some .root) := by
  cases ht : p.text.toList with
  | nil =>
    have hp : p.text = "" := by simpa using ht
    simp [text_eq_empty_iff.mp hp, isAbsolute, ht, startsWith_singleton]
  | cons c r =>
    by_cases hc : c = '/'
    · have hs : p.segments = [] :: r.splitOn '/' := by
        rw [segments, ht, hc, splitOn_cons_self]
      have hr : (r.splitOn '/').isEmpty = false := by simp
      simp [components_eq hs, isAbsolute, ht, startsWith_singleton, hc, firstComponent?, hr]
    · obtain ⟨piece, pieces, hp⟩ := exists_splitOn_eq_cons '/' r
      have hs : p.segments = (c :: piece) :: pieces := by
        rw [segments, ht, splitOn_cons_of_ne hc hp]
      obtain ⟨x, hx, hroot⟩ :=
        exists_firstComponent?_eq_some (List.cons_ne_nil c piece) pieces.isEmpty
      simp [components_eq hs, hx, hroot, isAbsolute, ht, startsWith_singleton, hc]

/-! ## Joining -/

theorem exists_firstComponent?_false (first : List Char) :
    ∃ c, firstComponent? first false = some c := by
  by_cases h : first = []
  · exact ⟨.root, by simp [firstComponent?, h]⟩
  · obtain ⟨c, hc, -⟩ := exists_firstComponent?_eq_some h false
    exact ⟨c, hc⟩

/-- Relative paths are put behind the same pieces: all those of `p` but an empty one at the end. -/
theorem exists_segments_join {p : Path} (hp : p.text ≠ "") :
    ∃ first rest c, (∀ q : Path, q.isAbsolute = false →
        (p.join q).segments = first :: (rest ++ q.segments)) ∧
      (p.segments = first :: rest ∨ p.segments = first :: (rest ++ [[]])) ∧
      firstComponent? first false = some c ∧ p.components = c :: rest.filterMap innerComponent? := by
  by_cases hend : p.text.toList.getLast? = some '/'
  · obtain ⟨u, hu⟩ := List.getLast?_eq_some_iff.mp hend
    obtain ⟨first, rest, hs⟩ := exists_splitOn_eq_cons '/' u
    obtain ⟨c, hc⟩ := exists_firstComponent?_false first
    have hp' : p.segments = first :: (rest ++ [[]]) := by
      rw [segments, hu, List.splitOn_append_cons_self, hs]
      rfl
    refine ⟨first, rest, c, fun q hq => ?_, .inr hp', hc, ?_⟩
    · have hj : (p.join q).text.toList = u ++ '/' :: q.text.toList := by
        simp [join, hq, hu]
      rw [segments, hj, List.splitOn_append_cons_self, hs]
      rfl
    · have hl : (rest ++ [([] : List Char)]).isEmpty = false := by simp
      have hidle : [([] : List Char)].filterMap innerComponent? = [] := by
        simp [innerComponent?]
      rw [components_eq hp', hl, hc, List.filterMap_append, hidle, List.append_nil]
      rfl
  · obtain ⟨first, rest, hs⟩ := p.exists_segments_eq_cons
    obtain ⟨c, hc⟩ := exists_firstComponent?_false first
    refine ⟨first, rest, c, fun q hq => ?_, .inl hs, hc, ?_⟩
    · have hj : (p.join q).text.toList = p.text.toList ++ '/' :: q.text.toList := by
        simp [join, hq, hend, hp]
      rw [segments, hj, List.splitOn_append_cons_self]
      exact congrArg (· ++ q.segments) hs
    · have hf : firstComponent? first rest.isEmpty = firstComponent? first false := by
        by_cases hr : rest = []
        · refine firstComponent?_of_ne_nil (fun hn => hp ?_) _ _
          have ht := p.intercalate_segments
          rw [hs, hn, hr, List.intercalate_singleton] at ht
          simpa using ht.symm
        · rw [show rest.isEmpty = false by simpa using hr]
      rw [components_eq hs, hf, hc]
      rfl

theorem components_join_of_relative {p q : Path} (hq : q.isAbsolute = false) (hp : p.text ≠ "") :
    (p.join q).components = p.components ++ q.inner := by
  obtain ⟨first, rest, c, hjoin, -, hc, hcomponents⟩ := exists_segments_join hp
  obtain ⟨qf, qr, hqs⟩ := q.exists_segments_eq_cons
  have hlast : (rest ++ q.segments).isEmpty = false := by simp [hqs]
  rw [components_eq (hjoin q hq), hlast, List.filterMap_append, hc, hcomponents]
  rfl

theorem components_join (p q : Path) :
    (p.join q).components =
      if q.isAbsolute || p.components.isEmpty then q.components else p.components ++ q.inner := by
  by_cases hq : q.isAbsolute = true
  · simp [join, hq]
  · have hq' : q.isAbsolute = false := by simpa using hq
    by_cases hp : p.text = ""
    · have hc := text_eq_empty_iff.mp hp
      simp [join, hq', hp, hc]
    · have hc : p.components ≠ [] := fun h => hp (text_eq_empty_iff.mpr h)
      simp [components_join_of_relative hq' hp, hq', hc]

end ModuleLoader.Path
