import ModuleLoader.Proofs.Host.Formats
import ModuleLoader.Proofs.Path.Map

/-! The marks of modules under evaluation. They stand in the order in which the evaluations were
begun, no path is marked twice, and none of the marked paths is kept yet. -/

namespace ModuleLoader

/-- Whether the marks are those of the evaluations under way, innermost first. -/
structure Marked (cache loading : PathMap Value) (marks : List (Path × Value)) : Prop where
  loading : loading.entries = marks.reverse
  apart : marks.Pairwise fun a b => a.1.same b.1 = false
  uncached : ∀ mark ∈ marks, cache.find? mark.1 = none
  cache : cache.Distinct

namespace Marked

variable {cache loading : PathMap Value} {marks : List (Path × Value)} {p : Path} {module : Value}

theorem distinct (h : Marked cache loading marks) : loading.Distinct := by
  have hp : loading.entries.Pairwise fun a b => a.1.same b.1 = false := by
    rw [h.loading]
    refine List.pairwise_reverse.mpr (h.apart.imp fun {a b} hab => ?_)
    rw [Path.same_comm]
    exact hab
  exact hp

theorem find?_eq_some (h : Marked cache loading marks) (hm : (p, module) ∈ marks) :
    loading.find? p = some module := by
  have he : (p, module) ∈ loading.entries := by
    rw [h.loading]
    exact List.mem_reverse.mpr hm
  have hs := h.distinct.find?_eq_some he
  exact hs

theorem exists_of_find? (h : Marked cache loading marks) (hf : loading.find? p = some module) :
    ∃ q, (q, module) ∈ marks ∧ q.components = p.components := by
  obtain ⟨q, hm, hq⟩ := PathMap.exists_mem_of_find?_eq_some hf
  rw [h.loading] at hm
  exact ⟨q, List.mem_reverse.mp hm, hq⟩

theorem find?_loading_eq_none (h : Marked cache loading marks)
    (hp : ∀ mark ∈ marks, mark.1.same p = false) : loading.find? p = none := by
  cases hf : loading.find? p with
  | none => rfl
  | some module =>
    obtain ⟨q, hq, hs⟩ := h.exists_of_find? hf
    rw [← Path.same_iff, hp (q, module) hq] at hs
    cases hs

theorem find?_cache_eq_none (h : Marked cache loading marks)
    (hf : loading.find? p = some module) : cache.find? p = none := by
  obtain ⟨q, hm, hq⟩ := h.exists_of_find? hf
  rw [← PathMap.find?_congr hq]
  exact h.uncached (q, module) hm

theorem insert (h : Marked cache loading marks) (hc : cache.find? p = none)
    (hl : loading.find? p = none) (module : Value) :
    Marked cache (loading.insert p module) ((p, module) :: marks) := by
  refine ⟨?_, List.pairwise_cons.mpr ⟨fun mark hm => ?_, h.apart⟩, fun mark hm => ?_, h.cache⟩
  · rw [PathMap.insert_of_find?_eq_none hl, PathMap.push, h.loading, List.reverse_cons]
  · have hne := PathMap.find?_eq_none_iff.mp hl mark (by rw [h.loading]; exact List.mem_reverse.mpr hm)
    rw [Path.same_comm]
    exact Path.same_eq_false_iff.mpr hne
  · rcases List.mem_cons.mp hm with rfl | hm
    · exact hc
    · exact h.uncached mark hm

/-- The innermost mark goes, and the others are as they were before it came. -/
theorem erase (h : Marked cache loading ((p, module) :: marks)) :
    Marked cache (loading.erase p) marks := by
  obtain ⟨hp, hrest⟩ := List.pairwise_cons.mp h.apart
  have hnone : (PathMap.mk marks.reverse : PathMap Value).find? p = none := by
    refine PathMap.find?_eq_none_iff.mpr fun entry hm => ?_
    have hs := hp entry (List.mem_reverse.mp hm)
    rw [Path.same_comm] at hs
    exact Path.same_eq_false_iff.mp hs
  have hl : loading = (PathMap.mk marks.reverse).push p module := by
    rw [PathMap.push, ← List.reverse_cons, ← h.loading]
  refine ⟨?_, hrest, fun mark hm => h.uncached mark (List.mem_cons_of_mem _ hm), h.cache⟩
  rw [hl, PathMap.erase_push hnone]

theorem keep (h : Marked cache loading marks) (hp : ∀ mark ∈ marks, mark.1.same p = false)
    (exports : Value) : Marked (cache.insert p exports) loading marks := by
  refine ⟨h.loading, h.apart, fun mark hm => ?_, h.cache.insert p exports⟩
  have hs := hp mark hm
  rw [Path.same_comm] at hs
  rw [PathMap.find?_insert_of_not_same cache hs]
  exact h.uncached mark hm

end Marked

namespace Moment

/-- Whether the marks are right, and only a file is read that is neither kept nor marked. -/
structure Sound (c : Moment) : Prop where
  marked : Marked c.state.registry.cache c.state.registry.loading c.marks
  read {d path format} : c.task = .read d path format →
    c.state.registry.cache.find? path = none ∧ c.state.registry.loading.find? path = none

namespace Sound

variable {h : Host} {c c' : Moment}

theorem initial : Sound Moment.initial where
  marked := ⟨rfl, List.Pairwise.nil, fun _ hm => absurd hm List.not_mem_nil, List.Pairwise.nil⟩
  read ht := by cases ht

theorem effect (hc : Sound c) (ht : c.Typed h) (he : h.Effect c c') :
    Marked c'.state.registry.cache c'.state.registry.loading c'.marks := by
  have hm := hc.marked
  have hcache : c'.state.registry.cache = c'.state.tables.cache := rfl
  have hloading : c'.state.registry.loading = c'.state.tables.loading := rfl
  rw [hcache, hloading]
  unfold Moment.marks at hm ⊢
  cases he with
  | quiet he ha =>
    rw [he, ha]
    exact hm
  | beginJson _ he ha =>
    rw [he, ha]
    exact hm
  | beginScript hr _ _ he ha =>
    rw [he, ha]
    exact hm.insert (hc.read hr).1 (hc.read hr).2 _
  | compiled ha he ha' =>
    rw [ha] at hm
    rw [he, ha']
    exact hm
  | jsonFailed ha he =>
    rw [ha] at hm
    rw [he]
    exact hm
  | @jsonKept path v ha he =>
    -- What is evaluated as JSON is no script, so it is not marked.
    have hj : h.resolver.Settles c.state.packages path .json := by
      refine ht.jsons path ?_
      rw [Moment.jsons, ha]
      exact List.mem_cons_self
    have hs : ∀ mark ∈ c.marks, mark.1.same path = false :=
      fun mark hm => (ht.scripts mark hm).not_json hj
    rw [Moment.marks, ha] at hs
    rw [ha] at hm
    rw [he]
    exact hm.keep hs v
  | notCompiled ha he =>
    rw [ha] at hm
    rw [he]
    exact hm.erase
  | threw ha he =>
    rw [ha] at hm
    rw [he]
    exact hm.erase
  | @completed path module wrapper exports ha he =>
    rw [ha] at hm
    rw [he]
    have hs : ∀ mark ∈ c'.active.filterMap Waiting.mark?, mark.1.same path = false := by
      intro mark hmark
      rw [Path.same_comm]
      exact (List.pairwise_cons.mp hm.apart).1 mark hmark
    exact hm.erase.keep hs exports

theorem next (hc : Sound c) (ht : c.Typed h) (hn : h.Next c c') : Sound c' := by
  refine ⟨hc.effect ht hn.effect.1, fun hr => ?_⟩
  obtain ⟨-, hs, -, hcache, hloading⟩ := hn.of_read hr
  rw [hs]
  exact ⟨hcache, hloading⟩

end Sound

end Moment

theorem Host.Reaches.sound {h : Host} {paths : List Path} {c : Moment}
    (hc : h.Reaches paths c) : c.Sound := by
  induction hc with
  | initial => exact .initial
  | next hc hn ih => exact ih.next hc.typed hn

end ModuleLoader
