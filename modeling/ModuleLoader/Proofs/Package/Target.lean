import ModuleLoader.Proofs.Package.Subpaths
import ModuleLoader.Proofs.Path.Components

/-! Targets that are selected. Whatever the tree and the subpath look like, a target that comes out
has been checked, and the text put in for a `*` is checked with it. -/

namespace ModuleLoader.Target

open Text

variable {conditions : List String} {field : TargetField} {subpath key target capture : String}
  {tree : Json} {found : TargetMatch} {outcome : Outcome}

/-! ## Leaves of selected targets -/

theorem exists_leaf_of_exactOutcome (h : exactOutcome key outcome = .ok (some found)) :
    ∃ leaf, outcome = .ok (some leaf) ∧ found.target = leaf.target := by
  cases outcome with
  | error e => cases h
  | ok leaf? =>
    obtain ⟨leaf, rfl, rfl⟩ := Option.map_eq_some_iff.mp (Except.ok.inj h)
    exact ⟨leaf, rfl, rfl⟩

theorem exists_leaf_of_patternOutcome (h : patternOutcome key capture outcome = .ok (some found)) :
    ∃ leaf, outcome = .ok (some leaf) ∧ found.target = filled leaf.target capture ∧
      hasParentSegment found.target = false := by
  cases outcome with
  | error e => cases h
  | ok leaf? =>
    cases leaf? with
    | none => cases h
    | some leaf =>
      rw [patternOutcome] at h
      split_ifs at h with h2 hup
      obtain rfl := Option.some.inj (Except.ok.inj h)
      rw [← hasParentSegment_iff] at hup
      exact ⟨leaf, rfl, rfl, by simpa using hup⟩

/-- A selected target is a permitted one, or it is one with a capture in it that climbs nowhere. -/
theorem exists_leaf_of_select (h : select conditions field subpath tree = .ok (some found)) :
    ∃ leaf : Leaf, isPermitted field leaf.target = true ∧
      (found.target = leaf.target ∨ ∃ capture, capture ≠ "" ∧
        found.target = filled leaf.target capture ∧ hasParentSegment found.target = false) := by
  rcases @select_cases conditions field subpath tree with
    hs | ⟨key, subpath', tree', hs⟩ | ⟨key, value, capture, hc, hs⟩
  · rw [hs] at h
    cases h
  · obtain ⟨leaf, he, ht⟩ := exists_leaf_of_exactOutcome (hs.symm.trans h)
    exact ⟨leaf, isPermitted_of_evaluate he, .inl ht⟩
  · obtain ⟨leaf, he, ht⟩ := exists_leaf_of_patternOutcome (hs.symm.trans h)
    obtain ⟨-, -, -, -, -, -, hne⟩ := hc
    exact ⟨leaf, isPermitted_of_evaluate he, .inr ⟨capture, hne, ht⟩⟩

/-! ## Forms of targets -/

theorem isPathTarget_iff :
    isPathTarget target = true ↔ ∃ rest, target.toList = '.' :: '/' :: rest := by
  rw [isPathTarget, startsWith_iff]
  exact exists_congr fun _ => eq_comm

theorem isPathTarget_filled (h : isPathTarget target = true) (capture : String) :
    isPathTarget (filled target capture) = true := by
  obtain ⟨rest, hrest⟩ := isPathTarget_iff.mp h
  simp [isPathTarget_iff, filled, hrest]

theorem ne_empty_of_isPermitted (h : isPermitted field target = true) : target ≠ "" := by
  rintro rfl
  cases field <;> exact absurd h (by decide)

theorem filled_ne_empty (ht : target ≠ "") (hc : capture ≠ "") :
    filled target capture ≠ "" := by
  have ht' : target.toList ≠ [] := fun h => ht (String.toList_eq_nil_iff.mp h)
  have hc' : capture.toList ≠ [] := fun h => hc (String.toList_eq_nil_iff.mp h)
  obtain ⟨x, rest, hx⟩ := List.exists_cons_of_ne_nil ht'
  intro he
  have hf : (filled target capture).toList = [] := String.toList_eq_nil_iff.mpr he
  by_cases hs : x = '*' <;> simp [filled, hx, hs, hc'] at hf

/-! ## Selection -/

/-- What is known of a selected target. Paths do not climb, and `exports` give paths only. -/
structure Checked (field : TargetField) (target : String) : Prop where
  isPathTarget_of_exports : field = .exports → isPathTarget target = true
  not_parent : isPathTarget target = true → hasParentSegment target = false

theorem checked_of_isPermitted (h : isPermitted field target = true) :
    Checked field target := by
  unfold isPermitted at h
  constructor
  · rintro rfl
    by_contra hp
    simp [hp] at h
  · intro hp
    simpa [hp] using h

/-- Any target that is selected has been checked. -/
theorem checked_of_select (h : select conditions field subpath tree = .ok (some found)) :
    Checked field found.target := by
  obtain ⟨leaf, hp, ht | ⟨capture, -, ht, hup⟩⟩ := exists_leaf_of_select h
  · rw [ht]
    exact checked_of_isPermitted hp
  · refine ⟨fun hf => ?_, fun _ => hup⟩
    rw [ht]
    exact isPathTarget_filled ((checked_of_isPermitted hp).isPathTarget_of_exports hf) capture

theorem ne_empty_of_select (h : select conditions field subpath tree = .ok (some found)) :
    found.target ≠ "" := by
  obtain ⟨leaf, hp, ht | ⟨capture, hc, ht, -⟩⟩ := exists_leaf_of_select h
  · rw [ht]
    exact ne_empty_of_isPermitted hp
  · rw [ht]
    exact filled_ne_empty (ne_empty_of_isPermitted hp) hc

/-- Whatever the tree and the subpath look like, a selected target is not empty and climbs nowhere if
it is a path, which is all that `exports` give. -/
theorem selected_well_formed (h : select conditions field subpath tree = .ok (some found)) :
    (field = .exports → ['.', '/'] <+: found.target.toList) ∧
      (['.', '/'] <+: found.target.toList → ['.', '.'] ∉ found.target.toList.splitOn '/') ∧
      found.target ≠ "" := by
  have hc := checked_of_select h
  have hpath : isPathTarget found.target = true ↔ ['.', '/'] <+: found.target.toList := by
    rw [isPathTarget_iff]
    exact exists_congr fun rest => eq_comm
  refine ⟨fun hf => hpath.mp (hc.isPathTarget_of_exports hf), fun hp => ?_, ne_empty_of_select h⟩
  rw [← hasParentSegment_iff, hc.not_parent (hpath.mpr hp)]
  nofun

/-- A capture with a `..` is spliced in where it is no segment of its own. -/
theorem selected_well_formed_spliced :
    let tree : Json := .object ⟨[("./*", .string "./a*")]⟩
    select ["import"] .exports "./../b" tree = .ok (some ⟨"./a../b", "./*", none⟩) ∧
      ['.', '/'] <+: "./a../b".toList ∧ ['.', '.'] ∉ List.splitOn '/' "./a../b".toList := by
  intro tree
  have h : select ["import"] .exports "./../b" tree = .ok (some ⟨"./a../b", "./*", none⟩) := by
    decide +kernel
  obtain ⟨hpath, hclimbs, -⟩ := selected_well_formed h
  exact ⟨h, hpath rfl, hclimbs (hpath rfl)⟩

/-- A text whose segments do not climb has no step up as a path. -/
theorem up_notMem_inner {text : String} (h : hasParentSegment text = false) :
    Path.Component.up ∉ (Path.mk text).inner := by
  intro hm
  obtain ⟨segment, hs, hi⟩ := List.mem_filterMap.mp hm
  have hd : Path.isDotDot segment = false := by simpa using List.any_eq_false.mp h segment hs
  unfold Path.innerComponent? at hi
  split at hi
  · cases hi
  · simp [hd] at hi

end ModuleLoader.Target
