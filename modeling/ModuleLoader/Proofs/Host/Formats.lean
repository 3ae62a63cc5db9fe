import ModuleLoader.Proofs.Host.Effect

/-! The formats of files under evaluation. A file keeps the format that it was first loaded in, so no
file is evaluated as a script and as JSON. -/

namespace ModuleLoader

namespace Waiting

/-- The path that is marked as loading, with its `module` object. -/
def mark? : Waiting → Option (Path × Value)
  | .compilation _ path module _ _ => some (path, module)
  | .evaluation path module _ => some (path, module)
  | _ => none

def wrapper? : Waiting → Option Value
  | .evaluation _ _ wrapper => some wrapper
  | _ => none

def json? : Waiting → Option Path
  | .json path => some path
  | _ => none

end Waiting

namespace Moment

def marks (c : Moment) : List (Path × Value) := c.active.filterMap Waiting.mark?

def wrappers (c : Moment) : List Value := c.active.filterMap Waiting.wrapper?

def jsons (c : Moment) : List Path := c.active.filterMap Waiting.json?

end Moment

namespace Host

open HostM

variable {h : Host} {c c' : Moment} {p q : Path}

/-! ## Evaluations that begin -/

theorem Effect.of_mem_marks (he : h.Effect c c') {mark : Path × Value} (hm : mark ∈ c'.marks) :
    mark ∈ c.marks ∨ ∃ d format, c.task = .read d mark.1 format ∧ format ≠ .json ∧
      (format = .esm → h.nativeEsm = false) := by
  unfold Moment.marks at hm ⊢
  cases he with
  | quiet _ ha =>
    rw [ha] at hm
    exact .inl hm
  | beginJson _ _ ha =>
    rw [ha] at hm
    exact .inl hm
  | beginScript hr hj hn _ ha =>
    rw [ha] at hm
    rcases List.mem_cons.mp hm with rfl | hm
    · exact .inr ⟨_, _, hr, hj, hn⟩
    · exact .inl hm
  | compiled ha _ ha' =>
    rw [ha'] at hm
    rw [ha]
    exact .inl hm
  | jsonFailed ha _ | jsonKept ha _ =>
    rw [ha]
    exact .inl hm
  | notCompiled ha _ | threw ha _ | completed ha _ =>
    rw [ha]
    exact .inl (List.mem_cons_of_mem _ hm)

theorem Effect.of_mem_jsons (he : h.Effect c c') (hm : p ∈ c'.jsons) :
    p ∈ c.jsons ∨ ∃ d, c.task = .read d p .json := by
  unfold Moment.jsons at hm ⊢
  cases he with
  | quiet _ ha =>
    rw [ha] at hm
    exact .inl hm
  | beginJson hr _ ha =>
    rw [ha] at hm
    rcases List.mem_cons.mp hm with rfl | hm
    · exact .inr ⟨_, hr⟩
    · exact .inl hm
  | beginScript _ _ _ _ ha =>
    rw [ha] at hm
    exact .inl hm
  | compiled ha _ ha' =>
    rw [ha'] at hm
    rw [ha]
    exact .inl hm
  | jsonFailed ha _ | jsonKept ha _ =>
    rw [ha]
    exact .inl (List.mem_cons_of_mem _ hm)
  | notCompiled ha _ | threw ha _ | completed ha _ =>
    rw [ha]
    exact .inl hm

/-! ## Formats -/

/-- Whether a file is evaluated as a script and will be ever after. -/
def IsScript (h : Host) (packages : PackageCache) (path : Path) : Prop :=
  ∃ format, h.resolver.Settles packages path format ∧ format ≠ .json ∧
    (format = .esm → h.nativeEsm = false)

theorem IsScript.mono {packages packages' : PackageCache} (hs : h.IsScript packages p)
    (he : packages.Extends packages') : h.IsScript packages' p := by
  obtain ⟨format, hf, hj, hn⟩ := hs
  exact ⟨format, hf.mono he, hj, hn⟩

theorem IsScript.not_json {packages : PackageCache} (hs : h.IsScript packages p)
    (hj : h.resolver.Settles packages q .json) : p.same q = false := by
  obtain ⟨format, hf, hne, -⟩ := hs
  refine Path.same_eq_false_iff.mpr fun hc => hne ?_
  exact (hf.congr hc).unique hj

end Host

/-- Every file is loaded, read and evaluated in its format. -/
structure Moment.Typed (h : Host) (c : Moment) : Prop where
  load {d path format} : c.task = .load d path format →
    h.resolver.Settles c.state.packages path format
  read {d path format} : c.task = .read d path format →
    h.resolver.Settles c.state.packages path format
  scripts : ∀ mark ∈ c.marks, h.IsScript c.state.packages mark.1
  jsons : ∀ path ∈ c.jsons, h.resolver.Settles c.state.packages path .json

namespace Moment.Typed

variable {h : Host} {c c' : Moment}

theorem initial (h : Host) : Typed h Moment.initial where
  load ht := by cases ht
  read ht := by cases ht
  scripts mark hm := by cases hm
  jsons path hm := by cases hm

theorem next (hc : Typed h c) (hn : h.Next c c') : Typed h c' := by
  obtain ⟨he, hp⟩ := hn.effect
  refine ⟨hn.settles_of_load, fun ht => ?_, fun mark hm => ?_, fun path hm => ?_⟩
  · obtain ⟨hl, hs, -⟩ := hn.of_read ht
    rw [hs]
    exact hc.load hl
  · rcases he.of_mem_marks hm with hm | ⟨d, format, ht, hj, hn⟩
    · exact (hc.scripts mark hm).mono hp
    · exact ⟨format, (hc.read ht).mono hp, hj, hn⟩
  · rcases he.of_mem_jsons hm with hm | ⟨d, ht⟩
    · exact (hc.jsons path hm).mono hp
    · exact (hc.read ht).mono hp

end Moment.Typed

theorem Host.Reaches.typed {h : Host} {paths : List Path} {c : Moment}
    (hc : h.Reaches paths c) : c.Typed h := by
  induction hc with
  | initial => exact .initial h
  | next _ hn ih => exact ih.next hn

end ModuleLoader
