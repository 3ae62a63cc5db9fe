import Mathlib.Data.List.Forall2
import ModuleLoader.Proofs.Path.Ancestors
import ModuleLoader.Resolve.Search

/-! Spellings. Two paths of the same components may be written differently, but every operation
takes them to paths of the same components again, and every normal form is one text. -/

namespace ModuleLoader

open Text

namespace Path

variable {p q : Path}

theorem isAbsolute_congr (h : p.components = q.components) : p.isAbsolute = q.isAbsolute := by
  rw [isAbsolute_eq, isAbsolute_eq, h]

theorem fileName?_congr (h : p.components = q.components) : p.fileName? = q.fileName? := by
  rw [fileName?, fileName?, h]

theorem extension?_congr (h : p.components = q.components) : p.extension? = q.extension? := by
  rw [extension?, extension?, fileName?_congr h]

theorem join_congr (h : p.components = q.components) (r : Path) :
    (p.join r).components = (q.join r).components := by
  rw [components_join, components_join, h]

theorem joinText_congr (h : p.components = q.components) (text : String) :
    (p.joinText text).components = (q.joinText text).components := join_congr h ⟨text⟩

theorem join_congr_right (h : p.components = q.components) (base : Path) :
    (base.join p).components = (base.join q).components := by
  rw [components_join, components_join, isAbsolute_congr h, inner_eq, inner_eq, h]

theorem absolutize_congr (h : p.components = q.components) (base : Path) :
    (absolutize base p).components = (absolutize base q).components := by
  unfold absolutize
  rw [isAbsolute_congr h]
  split
  · exact h
  · exact join_congr_right h base

theorem parent?_congr (h : p.components = q.components) :
    p.parent?.map components = q.parent?.map components := by
  rw [map_components_parent?, map_components_parent?, h]

theorem parent?_getD_congr (h : p.components = q.components) :
    (p.parent?.getD ⟨""⟩).components = (q.parent?.getD ⟨""⟩).components := by
  have hg (o : Option Path) :
      (o.getD ⟨""⟩).components = (o.map components).getD (Path.mk "").components := by
    cases o <;> rfl
  rw [hg, hg, parent?_congr h]

theorem ancestors_congr (h : p.components = q.components) :
    List.Forall₂ (fun a b : Path => a.components = b.components) p.ancestors q.ancestors := by
  have hm : p.ancestors.map components = q.ancestors.map components := by
    rw [map_components_ancestors, map_components_ancestors, h]
  rw [← List.forall₂_eq_eq_eq, List.forall₂_map_left_iff, List.forall₂_map_right_iff] at hm
  exact hm

theorem normalize?_congr (h : p.components = q.components) : p.normalize? = q.normalize? := by
  rw [normalize?, normalize?, isAbsolute_congr h, h]

/-! ## Settling -/

theorem settle_filter_isStep (rooted : Bool) (components : List Component) (names : List String) :
    settle rooted (components.filter Component.isStep) names = settle rooted components names := by
  induction components generalizing names with
  | nil => rfl
  | cons c rest ih =>
    cases c with
    | root => exact ih names
    | here => exact ih names
    | name text => exact ih (text :: names)
    | up =>
      cases names with
      | nil => cases rooted <;> simp [List.filter_cons, Component.isStep, settle, ih]
      | cons name names => exact ih names

theorem normalize?_of_relative (h : p.isAbsolute = false) :
    p.normalize? = (settle false p.inner []).map (ofNames false) := by
  rw [normalize?, h, inner_eq, settle_filter_isStep]

end Path

namespace Bundle

open ModuleLoader.Path

/-- The pieces that a component gives once its backslashes are slashes. -/
def unfoldBackslashes : Component → List Component
  | .name text => (text.toList.splitOn '\\').filterMap innerComponent?
  | .up => [.up]
  | _ => []

theorem filterMap_splitOn_backslash (segment : List Char) :
    (segment.splitOn '\\').filterMap innerComponent? =
      (innerComponent? segment).toList.flatMap unfoldBackslashes := by
  by_cases hi : (segment.isEmpty || isDot segment) = true
  · have hs : segment = [] ∨ segment = ['.'] := by simpa [isDot] using hi
    rcases hs with rfl | rfl <;> decide
  · by_cases hu : isDotDot segment = true
    · have hs : segment = ['.', '.'] := by simpa [isDotDot] using hu
      subst hs
      decide
    · simp [innerComponent?, hi, hu, unfoldBackslashes]

theorem filterMap_dropWhile_slash (s : List Char) :
    ((s.dropWhile (· == '/')).splitOn '/').filterMap innerComponent? =
      (s.splitOn '/').filterMap innerComponent? := by
  induction s with
  | nil => rfl
  | cons c r ih =>
    by_cases hc : c = '/'
    · have hidle : innerComponent? ([] : List Char) = none := by simp [innerComponent?]
      simp [hc, splitOn_cons_self, ih, hidle]
    · have hc' : (c == '/') = false := by simpa using hc
      simp [hc']

theorem isAbsolute_dropWhile_slash (s : List Char) :
    (Path.mk (String.ofList (s.dropWhile (· == '/')))).isAbsolute = false := by
  rw [isAbsolute, String.toList_ofList]
  cases h : s.dropWhile (· == '/') with
  | nil => rfl
  | cons c r =>
    have hne : s.dropWhile (· == '/') ≠ [] := by simp [h]
    have hc := List.head_dropWhile_not (· == '/') hne
    have hc' : c ≠ '/' := by simpa [h] using hc
    simp [startsWith_singleton, hc']

/-- Once backslashes are slashes, each component gives the pieces that they cut it into. -/
theorem inner_display (p : Path) : (Path.mk p.display).inner = p.inner.flatMap unfoldBackslashes := by
  rw [Path.inner, segments, display, toList_forwardSlashes, splitOn_map_replace (by decide),
    Path.inner, segments]
  induction p.text.toList.splitOn '/' with
  | nil => rfl
  | cons first rest ih =>
    rw [List.flatMap_cons, List.filterMap_append, ih, filterMap_splitOn_backslash]
    cases hf : innerComponent? first <;> simp [hf]

theorem canonical?_eq (p : Path) :
    canonical? p = (settle false
      ((p.components.filter Component.isStep).flatMap unfoldBackslashes) []).map (ofNames false) := by
  have hinner : (Path.mk (String.ofList (p.display.toList.dropWhile (· == '/')))).inner =
      p.inner.flatMap unfoldBackslashes := by
    rw [Path.inner, segments, String.toList_ofList, filterMap_dropWhile_slash, ← inner_display]
    rfl
  rw [canonical?, normalize?_of_relative (isAbsolute_dropWhile_slash _), hinner, inner_eq]

theorem canonical?_congr {p q : Path} (h : p.components = q.components) :
    canonical? p = canonical? q := by
  rw [canonical?_eq, canonical?_eq, h]

end Bundle

namespace Resolver

variable {m : Type → Type} (r : Resolver m)

theorem normalize?_congr {p q : Path} (h : p.components = q.components) :
    r.normalize? p = r.normalize? q := by
  unfold Resolver.normalize?
  split
  · exact Path.normalize?_congr (Path.absolutize_congr h _)
  · exact Bundle.canonical?_congr h

end Resolver

end ModuleLoader
