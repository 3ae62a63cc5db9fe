import ModuleLoader.Proofs.Host.Marks

/-! Modules are evaluated once. After an evaluation that left no exception its exports are kept, and
the file is not looked at again. -/

namespace ModuleLoader

namespace Host

variable {h : Host} {packages packages' : PackageCache} {path q : Path}

/-- Whether a file is evaluated by the host, not by the engine alone, and will be ever after. -/
def IsHosted (h : Host) (packages : PackageCache) (path : Path) : Prop :=
  ∃ format, h.resolver.Settles packages path format ∧ (format = .esm → h.nativeEsm = false)

theorem IsHosted.mono (hh : h.IsHosted packages path) (he : packages.Extends packages') :
    h.IsHosted packages' path := by
  obtain ⟨format, hf, hn⟩ := hh
  exact ⟨format, hf.mono he, hn⟩

theorem IsHosted.congr (hh : h.IsHosted packages q) (hq : q.same path = true) :
    h.IsHosted packages path := by
  obtain ⟨format, hf, hn⟩ := hh
  exact ⟨format, hf.congr (Path.same_iff.mp hq), hn⟩

theorem IsScript.isHosted (hs : h.IsScript packages path) : h.IsHosted packages path := by
  obtain ⟨format, hf, -, hn⟩ := hs
  exact ⟨format, hf, hn⟩

theorem isHosted_json (hs : h.resolver.Settles packages path .json) : h.IsHosted packages path :=
  ⟨.json, hs, nofun⟩

end Host

namespace Moment

/-- Whether a load is reading, compiling or running a file. -/
def WorksOn (c : Moment) (path : Path) : Prop :=
  (∃ d q, q.same path = true ∧ ((∃ format, c.task = .read d q format) ∨ c.task = .enter d q)) ∨
    (∃ mark ∈ c.marks, mark.1.same path = true) ∨ ∃ q ∈ c.jsons, q.same path = true

/-- Whether the exports of a file are held and nothing is done with the file. -/
structure Held (h : Host) (path : Path) (exports : Value) (c : Moment) : Prop where
  found : c.state.registry.cache.find? path = some exports
  idle : ¬c.WorksOn path
  hosted : h.IsHosted c.state.packages path

namespace Held

variable {h : Host} {path q : Path} {exports : Value} {c c' : Moment}

theorem not_same_of_find?_eq_none (hk : Held h path exports c)
    (hq : c.state.registry.cache.find? q = none) : ¬q.same path = true := by
  intro hs
  rw [PathMap.find?_congr (Path.same_iff.mp hs), hk.found] at hq
  cases hq

theorem not_same_of_mark (hk : Held h path exports c) {mark : Path × Value} (hm : mark ∈ c.marks) :
    ¬mark.1.same path = true := fun hs => hk.idle (.inr (.inl ⟨mark, hm, hs⟩))

theorem not_same_of_json (hk : Held h path exports c) (hm : q ∈ c.jsons) :
    ¬q.same path = true := fun hs => hk.idle (.inr (.inr ⟨q, hm, hs⟩))

theorem not_same_of_read (hk : Held h path exports c) {d : Nat} {format : ModuleFormat}
    (ht : c.task = .read d q format) : ¬q.same path = true :=
  fun hs => hk.idle (.inl ⟨d, q, hs, .inl ⟨format, ht⟩⟩)

theorem find?_insert (hk : Held h path exports c) (hq : ¬q.same path = true) (v : Value) :
    (c.state.registry.cache.insert q v).find? path = some exports := by
  rw [PathMap.find?_insert_of_not_same _ (by simpa using hq)]
  exact hk.found

theorem effect (hk : Held h path exports c) (he : h.Effect c c') :
    c'.state.registry.cache.find? path = some exports := by
  have hcache : c'.state.registry.cache = c'.state.tables.cache := rfl
  have hold : c.state.tables.cache.find? path = some exports := hk.found
  rw [hcache]
  cases he with
  | quiet ht _ | beginJson _ ht _ | beginScript _ _ _ ht _ | compiled _ ht _ | jsonFailed _ ht
  | notCompiled _ ht | threw _ ht =>
    rw [ht]
    exact hold
  | @jsonKept q v ha ht =>
    have hq : q ∈ c.jsons := by
      rw [Moment.jsons, ha]
      exact List.mem_cons_self
    rw [ht]
    exact hk.find?_insert (hk.not_same_of_json hq) v
  | @completed q module wrapper v ha ht =>
    have hq : (q, module) ∈ c.marks := by
      rw [Moment.marks, ha]
      exact List.mem_cons_self
    rw [ht]
    exact hk.find?_insert (hk.not_same_of_mark hq) v

theorem next (hk : Held h path exports c) (hn : h.Next c c') : Held h path exports c' := by
  obtain ⟨he, hp⟩ := hn.effect
  have hhosted := hk.hosted.mono hp
  refine ⟨hk.effect he, ?_, hhosted⟩
  rintro (⟨d, q, hs, ⟨format, ht⟩ | ht⟩ | ⟨mark, hm, hs⟩ | ⟨q, hm, hs⟩)
  · exact hk.not_same_of_find?_eq_none (hn.of_read ht).2.2.2.1 hs
  · -- A file that the engine evaluates itself is none of the host's.
    obtain ⟨hf, hnative⟩ := hn.of_enter ht
    obtain ⟨format, hsettles, hesm⟩ := hhosted
    have he := (hf.congr (Path.same_iff.mp hs)).unique hsettles
    rw [hesm he.symm] at hnative
    cases hnative
  · rcases he.of_mem_marks hm with hm | ⟨d, format, ht, -, -⟩
    · exact hk.not_same_of_mark hm hs
    · exact hk.not_same_of_read ht hs
  · rcases he.of_mem_jsons hm with hm | ⟨d, ht⟩
    · exact hk.not_same_of_json hm hs
    · exact hk.not_same_of_read ht hs

theorem later (hk : Held h path exports c) (hl : h.Later c c') : Held h path exports c' := by
  induction hl with
  | refl => exact hk
  | tail _ hn ih => exact ih.next hn

end Held

/-- Whether the exports of a script file are kept and nothing is done with the file. -/
structure Kept (h : Host) (path : Path) (exports : Value) (c : Moment) : Prop where
  found : c.state.registry.cache.find? path = some exports
  idle : ¬c.WorksOn path
  script : h.IsScript c.state.packages path

theorem Kept.held {h : Host} {path : Path} {exports : Value} {c : Moment}
    (hk : Kept h path exports c) : Held h path exports c := ⟨hk.found, hk.idle, hk.script.isHosted⟩

end Moment

namespace Host

variable {h : Host} {paths : List Path} {c c' : Moment}

/-- An evaluation that left no exception ends with its exports kept. -/
theorem Reaches.kept_of_returned (hc : h.Reaches paths c) {path : Path} {module wrapper v : Value}
    {ws : List Waiting} (ht : c.task = .returned (some v))
    (hw : c.waiting = .evaluation path module wrapper :: ws) (hn : h.Next c c') :
    c'.task = .loaded (.ok (c.state.heap.get module "exports")) ∧
      c'.Kept h path (c.state.heap.get module "exports") := by
  obtain ⟨task, waiting, s⟩ := c
  obtain rfl : task = .returned (some v) := ht
  obtain rfl : waiting = .evaluation path module wrapper :: ws := hw
  have hscript := (hc.typed.scripts (path, module) List.mem_cons_self).mono hn.effect.2
  have hjsons := (hc.next hn).typed.jsons
  have hapart := (List.pairwise_cons.mp hc.sound.marked.apart).1
  cases hn with
  | action hi a => cases hi.1
  | step hs =>
    cases hs
    obtain ⟨hv, ht, -⟩ := complete_run path s module wrapper
    refine ⟨by rw [hv], ?_, ?_, hscript⟩
    · have hcache := congrArg Tables.cache ht
      have hfound := PathMap.find?_insert_self s.registry.cache path (s.heap.get module "exports")
      exact (congrArg (PathMap.find? · path) hcache).trans hfound
    · rintro (⟨_, _, _, ⟨_, ht⟩ | ht⟩ | ⟨mark, hm, hs⟩ | ⟨q, hm, hs⟩)
      · cases ht
      · cases ht
      · rw [Path.same_comm, hapart mark hm] at hs
        cases hs
      · rw [Path.same_comm, hscript.not_json (hjsons q hm)] at hs
        cases hs

/-- No file is evaluated inside of its own evaluation. Once an evaluation has left no exception, the
exports that its `module` held then are what every load of the file answers from then on, and the
file is never read, compiled or run again. -/
theorem evaluated_once (hc : h.Reaches paths c) :
    (c.marks.Pairwise fun a b => a.1.same b.1 = false) ∧
    ∀ path module wrapper v ws, c.task = .returned (some v) →
      c.waiting = .evaluation path module wrapper :: ws →
      let exports := c.state.heap.get module "exports"
      (∃ c₁, h.Next c c₁) ∧ ∀ c₁, h.Next c c₁ → c₁.task = .loaded (.ok exports) ∧
        ∀ c', h.Later c₁ c' → ¬c'.WorksOn path ∧ ∀ d q format, q.same path = true →
          (h.load (h.callWithin d) q format).run.run c'.state = (.ok exports, c'.state) := by
  refine ⟨hc.sound.marked.apart, fun path module wrapper v ws ht hw => ⟨?_, fun c₁ hn => ?_⟩⟩
  · obtain ⟨task, waiting, s⟩ := c
    obtain rfl : task = .returned (some v) := ht
    obtain rfl : waiting = .evaluation path module wrapper :: ws := hw
    exact ⟨_, .step .completed⟩
  · obtain ⟨hanswer, hkept⟩ := hc.kept_of_returned ht hw hn
    refine ⟨hanswer, fun c' hl => ?_⟩
    have hkept' := hkept.held.later hl
    refine ⟨hkept'.idle, fun d q format hs => load_of_cached ?_⟩
    rw [PathMap.find?_congr (Path.same_iff.mp hs)]
    exact hkept'.found

/-- The exports of the single file are answered under another spelling of its path. -/
theorem evaluated_once_single : ∃ paths c c₁ exports, single.Reaches paths c ∧ single.Next c c₁ ∧
    c₁.task = .loaded (.ok exports) ∧ ∀ c', single.Later c₁ c' →
      (single.load (single.callWithin 2) ⟨"a.cjs/"⟩ .cjs).run.run c'.state =
        (.ok exports, c'.state) := by
  obtain ⟨paths, s, hc⟩ := exists_reaches_single
  obtain ⟨⟨c₁, hn⟩, hall⟩ := (evaluated_once hc).2 _ _ _ _ _ rfl rfl
  obtain ⟨hanswer, hlater⟩ := hall c₁ hn
  exact ⟨paths, _, c₁, _, hc, hn, hanswer, fun c' hl => (hlater c' hl).2 2 _ .cjs (by decide +kernel)⟩

end Host

end ModuleLoader
