import Mathlib.Data.List.Dedup
import Mathlib.Data.List.Perm.Subperm
import ModuleLoader.Proofs.Host.Marks
import ModuleLoader.Proofs.Host.Restore

/-! Cycles. A load of a module that is being evaluated ends at once with the exports made so far, so
no file is evaluated inside of its own evaluation. -/

namespace ModuleLoader

namespace Host

variable {h : Host} {paths : List Path} {c : Moment}

/-- What is read or marked was loaded before. -/
theorem Reaches.mem_of_marks (hc : h.Reaches paths c) :
    (∀ mark ∈ c.marks, mark.1 ∈ paths) ∧
      ∀ d path format, c.task = .load d path format ∨ c.task = .read d path format → path ∈ paths := by
  induction hc with
  | initial =>
    refine ⟨fun mark hm => absurd hm List.not_mem_nil, fun d path format ht => ?_⟩
    rcases ht with ht | ht <;> cases ht
  | next _ hn ih =>
    refine ⟨fun mark hm => List.mem_append_right _ ?_, fun d path format ht => ?_⟩
    · rcases hn.effect.1.of_mem_marks hm with hm | ⟨d, format, ht, -, -⟩
      · exact ih.1 mark hm
      · exact ih.2 d mark.1 format (.inr ht)
    · rcases ht with ht | ht
      · refine List.mem_append_left _ ?_
        rw [Moment.loads, ht]
        exact List.mem_singleton_self path
      · exact List.mem_append_right _ (ih.2 d path format (.inl (hn.of_read ht).1))

theorem Reaches.length_marks_le (hc : h.Reaches paths c) :
    c.marks.length ≤ (paths.map Path.components).dedup.length := by
  have hn : (c.marks.map fun mark => mark.1.components).Nodup :=
    List.pairwise_map.mpr (hc.sound.marked.apart.imp fun hs => Path.same_eq_false_iff.mp hs)
  have hsub : (c.marks.map fun mark => mark.1.components) ⊆ (paths.map Path.components).dedup := by
    intro components hm
    obtain ⟨mark, hmark, rfl⟩ := List.mem_map.mp hm
    exact List.mem_dedup.mpr (List.mem_map_of_mem (hc.mem_of_marks.1 mark hmark))
  have hle := (List.subperm_of_subset hn hsub).length_le
  rwa [List.length_map] at hle

theorem Reaches.loading_eq_nil (hc : h.Reaches paths c) (hi : c.Idle) :
    c.state.registry.loading.entries = [] := by
  rw [hc.sound.marked.loading, Moment.marks, Moment.active, hi.1]
  rfl

/-- A load leaves the marks as they were, in whatever state it begins and however it ends. In every
session they are the evaluations under way, all of different files. A load of a marked path gives
the present exports of the `module` that it is marked with, and only reports that it did. -/
theorem loading_restored (h : Host) :
    (∀ d path format s, ((h.load (h.callWithin d) path format).run.run s).2.registry.loading =
      s.registry.loading) ∧
    (∀ actions, ((h.session actions).run HostState.initial).2.registry.loading.entries = []) ∧
    ∀ paths c, h.Reaches paths c →
      (c.Idle → c.state.registry.loading.entries = []) ∧
      c.state.registry.loading.entries = c.marks.reverse ∧
      (c.marks.Pairwise fun a b => a.1.same b.1 = false) ∧
      c.marks.length ≤ (paths.map Path.components).dedup.length ∧
      ∀ path module, c.state.registry.loading.find? path = some module → ∀ d format,
        (h.load (h.callWithin d) path format).run.run c.state =
          (.ok (c.state.heap.get module "exports"),
            { c.state with log := .circular path :: c.state.log }) := by
  refine ⟨fun d path format s => ?_, fun actions => ?_, fun paths c hc => ?_⟩
  · exact keepsMarks_load (keepsMarks_callWithin h d) path format s
  · obtain ⟨paths, c, hc, hi, hs⟩ := exists_reaches_session h actions
    rw [← hs]
    exact hc.loading_eq_nil hi
  · have hm := hc.sound.marked
    refine ⟨hc.loading_eq_nil, hm.loading, hm.apart, hc.length_marks_le, ?_⟩
    intro path module hl d format
    rw [load_of_loading (hm.find?_cache_eq_none hl) hl]
    rfl

end Host

end ModuleLoader
