import ModuleLoader.Proofs.Host.Atomicity

/-! One entry for each path. A file is kept once, under a value that stays, and is listed once as
loaded, as long as it is not evaluated as JSON inside of its own evaluation: no mark stops that. -/

namespace ModuleLoader

namespace Moment

/-- Whether a file is evaluated as JSON inside of its own evaluation. -/
def Nests (path : Path) (c : Moment) : Prop := 2 ≤ (c.jsons.filter (·.same path)).length

end Moment

namespace Host

open HostM

/-- Some time later, or now, without an evaluation of a file as JSON inside of its own until then. -/
def LaterApart (h : Host) (path : Path) : Moment → Moment → Prop :=
  Relation.ReflTransGen fun c c' => h.Next c c' ∧ ¬c'.Nests path

variable {h : Host} {path q : Path} {c c' : Moment} {v : Value}

theorem LaterApart.later (hl : h.LaterApart path c c') : h.Later c c' :=
  Relation.ReflTransGen.mono (fun _ _ hn => hn.1) _ _ hl

theorem not_nests (hj : c.jsons.length ≤ 1) : ¬c.Nests path := fun hn =>
  absurd (hn.trans (List.length_filter_le _ _)) (by omega)

theorem LaterApart.step {b : Moment} (hl : h.LaterApart path b c) (hs : h.Step c c')
    (hj : c'.jsons.length ≤ 1) : h.LaterApart path b c' :=
  hl.tail ⟨.step hs, not_nests hj⟩

theorem LaterApart.exists_reaches (hl : h.LaterApart path Moment.initial c) :
    ∃ paths, h.Reaches paths c :=
  Reaches.initial.later hl.later

/-! ## Steps that complete an evaluation -/

/-- A completed evaluation was the innermost one, and its load answers what is kept. -/
theorem Step.of_completion (hs : h.Step c c') (hd : c.completion? = some (q, v)) :
    c'.task = .loaded (.ok v) ∧
      (c.jsons = q :: c'.jsons ∨ (∃ module, (q, module) ∈ c.marks) ∧ c'.jsons = c.jsons) := by
  cases hs
  case jsonCached =>
    cases hd
    exact ⟨rfl, .inl rfl⟩
  case completed module wrapper _ ws s =>
    cases hd
    have hv := (complete_run q s module wrapper).1
    exact ⟨congrArg (fun v => Task.loaded (.ok v)) hv, .inr ⟨⟨module, List.mem_cons_self⟩, rfl⟩⟩
  case body result ws s => cases result <;> cases hd
  all_goals cases hd

theorem registry_esmSource (path : Path) (s : HostState) :
    ((h.esmSource path).run.run s).2.registry = s.registry := by
  rw [esmSource_state]
  rfl

/-- What an action does before its first step does not change the registry. -/
theorem registry_start (a : Action) (s : HostState) : (h.start a s).state.registry = s.registry := by
  cases a
  case resolveImport specifier referrer => exact registry_of_resolve rfl
  case esmSource path => exact registry_esmSource path s
  all_goals rfl

/-- What a call from outside has returned completes nothing. -/
theorem completion?_eq_none_of_idle (hi : c.Idle) : c.completion? = none := by
  obtain ⟨task, waiting, s⟩ := c
  obtain rfl : waiting = [] := hi.1
  rcases hi.2 with ⟨result, ht⟩ | ⟨answer, ht⟩
  · obtain rfl : task = .returned result := ht
    cases result <;> rfl
  · obtain rfl : task = .loaded answer := ht
    rfl

theorem Next.registry (hn : h.Next c c') (he : ¬c.Enters) :
    c'.state.registry.unmarked = c.state.registry.unmarked.completeAll c.completion?.toList := by
  cases hn with
  | step hs => exact hs.registry he
  | action hi a =>
    rw [completion?_eq_none_of_idle hi, registry_start]
    rfl

theorem Next.kept_of_none (hn : h.Next c c') (he : ¬c.Enters) (hd : c.completion? = none) :
    c'.state.registry.cache = c.state.registry.cache ∧
      c'.state.registry.loaded = c.state.registry.loaded := by
  have hr : c'.state.registry.unmarked = c.state.registry.unmarked := by
    rw [hn.registry he, hd]
    rfl
  simp only [Registry.unmarked, Registry.mk.injEq] at hr
  exact ⟨hr.1, hr.2.2⟩

theorem Next.kept_of_some (hn : h.Next c c') (he : ¬c.Enters) (hd : c.completion? = some (q, v)) :
    c'.state.registry.cache = c.state.registry.cache.insert q v ∧
      c'.state.registry.loaded = c.state.registry.loaded ++ [q] := by
  have hr : c'.state.registry.unmarked = c.state.registry.unmarked.complete q v := by
    rw [hn.registry he, hd]
    rfl
  simp only [Registry.unmarked, Registry.complete, Registry.addLoaded, Registry.mk.injEq] at hr
  exact ⟨hr.1, hr.2.2⟩

/-- Between two actions nothing is completed. -/
theorem Next.step_of_completion (hn : h.Next c c') (hd : c.completion? = some (q, v)) :
    h.Step c c' := by
  cases hn with
  | step hs => exact hs
  | action hi a =>
    rw [completion?_eq_none_of_idle hi] at hd
    cases hd

theorem Next.of_completion (hn : h.Next c c') (hd : c.completion? = some (q, v)) :
    c'.task = .loaded (.ok v) ∧
      (c.jsons = q :: c'.jsons ∨ (∃ module, (q, module) ∈ c.marks) ∧ c'.jsons = c.jsons) :=
  (hn.step_of_completion hd).of_completion hd

theorem Next.not_enters (hn : h.Next c c') (hc : ¬c.Enters) (hnative : h.nativeEsm = false) :
    ¬c'.Enters := by
  intro he
  cases hn with
  | step hs =>
    rcases hs.of_enters he with he | ⟨ht, -⟩
    · exact hc he
    · rw [hnative] at ht
      cases ht
  | action hi a =>
    rcases he with ⟨d, path, ht⟩ | ⟨path, hm⟩
    · cases a <;> cases ht
    · cases a <;> cases hm

end Host

namespace Moment

/-- Nothing else works on a file as JSON once its evaluation is completed. -/
theorem Typed.alone {h : Host} {path q : Path} {c c' : Moment} {v : Value} (ht : c.Typed h)
    (ha : ¬c.Nests path) (hn : h.Next c c') (hd : c.completion? = some (q, v))
    (hq : q.same path = true) : ∀ p ∈ c'.jsons, p.same path = false := by
  intro p hm
  by_contra hp
  have hp : p.same path = true := by simpa using hp
  rcases (hn.of_completion hd).2 with hj | ⟨⟨module, hmark⟩, hj⟩
  · refine ha ?_
    have hpos : 0 < (c'.jsons.filter (·.same path)).length :=
      List.length_pos_of_mem (List.mem_filter.mpr ⟨hm, hp⟩)
    have hcons : (q :: c'.jsons).filter (·.same path) = q :: c'.jsons.filter (·.same path) :=
      List.filter_cons_of_pos hq
    rw [Nests, hj, hcons, List.length_cons]
    omega
  · have hs := (ht.scripts (q, module) hmark).not_json (ht.jsons p (hj ▸ hm))
    have he : q.components = p.components := (Path.same_iff.mp hq).trans (Path.same_iff.mp hp).symm
    rw [Path.same_iff.mpr he] at hs
    cases hs

/-- Whether a file is listed as loaded once if it is kept, and else not at all, and is not kept while
it is evaluated as JSON. -/
structure Once (path : Path) (c : Moment) : Prop where
  count : (c.state.registry.loaded.filter (·.same path)).length =
    if c.state.registry.isCached path = true then 1 else 0
  uncached : ∀ q ∈ c.jsons, q.same path = true → c.state.registry.cache.find? path = none
  apart : ¬c.Nests path
  outside : ¬c.Enters

namespace Once

variable {h : Host} {path q : Path} {c c' : Moment} {v : Value}

theorem initial (path : Path) : Once path Moment.initial where
  count := rfl
  uncached q hm := absurd hm List.not_mem_nil
  apart hn := by
    have hz : (Moment.initial.jsons.filter (·.same path)).length = 0 := rfl
    rw [Nests, hz] at hn
    omega
  outside := by rintro (⟨d, path, ht⟩ | ⟨path, hm⟩) <;> contradiction

/-- A file whose evaluation is completed was not kept before. -/
theorem find?_of_completion (hc : Once path c) (hs : c.Sound) (hn : h.Next c c')
    (hd : c.completion? = some (q, v)) (hq : q.same path = true) :
    c.state.registry.cache.find? path = none := by
  rcases (hn.of_completion hd).2 with hj | ⟨⟨module, hm⟩, -⟩
  · exact hc.uncached q (by rw [hj]; exact List.mem_cons_self) hq
  · rw [← PathMap.find?_congr (Path.same_iff.mp hq)]
    exact hs.marked.uncached (q, module) hm

theorem next (hc : Once path c) (hs : c.Sound) (ht : c.Typed h) (hn : h.Next c c')
    (hnative : h.nativeEsm = false) (ha : ¬c'.Nests path) : Once path c' := by
  have houtside := hn.not_enters hc.outside hnative
  have hjson : ∀ p ∈ c'.jsons, p.same path = true →
      c.state.registry.cache.find? path = none := by
    intro p hm hp
    rcases hn.effect.1.of_mem_jsons hm with hm | ⟨d, ht⟩
    · exact hc.uncached p hm hp
    · rw [← PathMap.find?_congr (Path.same_iff.mp hp)]
      exact (hs.read ht).1
  cases hd : c.completion? with
  | none =>
    obtain ⟨hcache, hloaded⟩ := hn.kept_of_none hc.outside hd
    refine ⟨?_, ?_, ha, houtside⟩
    · rw [hloaded, Registry.isCached, hcache]
      exact hc.count
    · rw [hcache]
      exact hjson
  | some done =>
    obtain ⟨q, v⟩ := done
    obtain ⟨hcache, hloaded⟩ := hn.kept_of_some hc.outside hd
    refine ⟨?_, fun p hm hp => ?_, ha, houtside⟩
    · have hsplit : (c'.state.registry.loaded.filter (·.same path)).length =
          (if c.state.registry.isCached path = true then 1 else 0) +
            ([q].filter (·.same path)).length := by
        rw [hloaded, List.filter_append, List.length_append, hc.count]
      rw [hsplit, Registry.isCached, Registry.isCached, PathMap.contains, PathMap.contains, hcache]
      cases hq : q.same path with
      | true =>
        have hself : (c.state.registry.cache.insert q v).find? path = some v := by
          rw [← PathMap.find?_congr (Path.same_iff.mp hq)]
          exact PathMap.find?_insert_self _ q v
        simp [hself, hc.find?_of_completion hs hn hd hq, hq]
      | false => simp [PathMap.find?_insert_of_not_same _ hq, hq]
    · cases hq : q.same path with
      | true =>
        rw [ht.alone hc.apart hn hd hq p hm] at hp
        cases hp
      | false =>
        rw [hcache, PathMap.find?_insert_of_not_same _ hq]
        exact hjson p hm hp

/-- The value that a file is kept with stays. -/
theorem found_next (hc : Once path c) (hs : c.Sound) (hn : h.Next c c')
    (hf : c.state.registry.cache.find? path = some v) :
    c'.state.registry.cache.find? path = some v := by
  cases hd : c.completion? with
  | none =>
    rwa [(hn.kept_of_none hc.outside hd).1]
  | some done =>
    obtain ⟨q, exports⟩ := done
    have hq : q.same path = false := by
      by_contra hq
      rw [hc.find?_of_completion hs hn hd (by simpa using hq)] at hf
      cases hf
    rwa [(hn.kept_of_some hc.outside hd).1, PathMap.find?_insert_of_not_same _ hq]

end Once

end Moment

namespace Host

open HostM

variable {h : Host} {path : Path} {c c' : Moment} {v : Value}

theorem LaterApart.once (hl : h.LaterApart path c c') (hnative : h.nativeEsm = false)
    (hr : ∃ paths, h.Reaches paths c) (hc : c.Once path) : c'.Once path := by
  induction hl with
  | refl => exact hc
  | @tail b c' hl hn ih =>
    obtain ⟨paths, hr⟩ := hr
    obtain ⟨paths', hb⟩ := hr.later (LaterApart.later hl)
    exact ih.next hb.sound hb.typed hn.1 hnative hn.2

theorem LaterApart.found (hl : h.LaterApart path c c') (hnative : h.nativeEsm = false)
    (hr : ∃ paths, h.Reaches paths c) (hc : c.Once path)
    (hf : c.state.registry.cache.find? path = some v) :
    c'.state.registry.cache.find? path = some v := by
  induction hl with
  | refl => exact hf
  | @tail b c' hl hn ih =>
    obtain ⟨paths', hb⟩ := hr.choose_spec.later (LaterApart.later hl)
    exact (LaterApart.once hl hnative hr hc).found_next hb.sound hn.1 ih

theorem LaterApart.once_of_initial (hl : h.LaterApart path Moment.initial c)
    (hnative : h.nativeEsm = false) : c.Once path :=
  hl.once hnative ⟨[], .initial⟩ (.initial path)

/-- No script file is evaluated as JSON, by what is known of formats now or later. -/
theorem Reaches.not_nests {paths : List Path} (hc : h.Reaches paths c) {packages : PackageCache}
    (he : c.state.packages.Extends packages) (hs : h.IsScript packages path) : ¬c.Nests path := by
  intro hn
  have hpos : 0 < (c.jsons.filter (·.same path)).length := Nat.lt_of_lt_of_le Nat.zero_lt_two hn
  obtain ⟨q, hq⟩ := List.exists_mem_of_length_pos hpos
  obtain ⟨hm, hq⟩ := List.mem_filter.mp hq
  have hj := hs.not_json ((hc.typed.jsons q hm).mono he)
  rw [Path.same_comm, hq] at hj
  cases hj

/-- No script file was ever evaluated as JSON. -/
theorem Reaches.laterApart {paths : List Path} (hc : h.Reaches paths c)
    (hs : h.IsScript c.state.packages path) : h.LaterApart path Moment.initial c := by
  -- The formats known at the end were right all along.
  suffices hall : ∀ packages, c.state.packages.Extends packages → h.IsScript packages path →
      h.LaterApart path Moment.initial c from hall _ (.refl _) hs
  clear hs
  intro packages he hs
  induction hc with
  | initial => exact .refl
  | next hc hn ih =>
    exact (ih (hn.effect.2.trans he)).tail ⟨hn, (hc.next hn).not_nests he hs⟩

/-! ## Loads -/

/-- What a load answers is kept, unless the file is still being evaluated. -/
theorem find?_of_load {call : CallFunction} {format : ModuleFormat} {s t : HostState}
    (hr : (h.load call path format).run.run s = (.ok v, t))
    (hc : t.registry.isCached path = true) : t.registry.cache.find? path = some v := by
  cases hcache : s.registry.cache.find? path with
  | some exports =>
    rw [load_of_cached hcache] at hr
    cases hr
    exact hcache
  | none =>
    cases hload : s.registry.loading.find? path with
    | some module =>
      rw [load_of_loading hcache hload] at hr
      cases hr
      have hnone : ((report (.circular path)).run s).2.registry.isCached path = false :=
        congrArg Option.isSome hcache
      rw [hnone] at hc
      cases hc
    | none =>
      have he := evaluated_evaluate h call path format s
      rw [← load_of_new hcache hload, hr] at he
      cases he with
      | kept hk => exact hk

/-! ## Files that are evaluated once -/

theorem pairwise_of_length_filter_le {paths : List Path}
    (hl : ∀ path, (paths.filter (·.same path)).length ≤ 1) :
    paths.Pairwise fun p q => p.same q = false := by
  induction paths with
  | nil => exact .nil
  | cons p rest ih =>
    refine List.pairwise_cons.mpr ⟨fun q hm => ?_, ih fun path => ?_⟩
    · by_contra hs
      have hs : p.same q = true := by simpa using hs
      have hq := hl q
      have hpos : 0 < (rest.filter (·.same q)).length :=
        List.length_pos_of_mem (List.mem_filter.mpr ⟨hm, q.same_self⟩)
      have hcons : (p :: rest).filter (·.same q) = p :: rest.filter (·.same q) :=
        List.filter_cons_of_pos hs
      rw [hcons, List.length_cons] at hq
      omega
    · exact ((List.sublist_cons_self p rest).filter _).length_le.trans (hl path)

/-- A host with one JSON file. The first time that the file is evaluated, it is loaded once more from
within, by the global function. -/
def reentrant : Host where
  resolver := .ofSource (Bundle.ofEntries [("a.json", "{}".toUTF8)]).toSource ⟨""⟩ ⟨"/"⟩
  typeScript := .absent
  nativeEsm := false
  body? _ := some fun frame =>
    if frame.run = 1 then
      .look fun s => .call (s.heap.get Heap.globalObject CommonJs.requireGlobal) [.string "a.json"]
        fun v => .save "inner" v (.done .undefined)
    else .done .undefined
  module? _ := none
  callDepth := 3

/-- The same file without a body. -/
def quiet : Host := { reentrant with body? := fun _ => none }

/-- A JSON file without a body is kept at once, as what its text stands for. -/
theorem exists_laterApart_load {s : HostState} {text : String} {json : Json} (d : Nat)
    (hc : s.registry.cache.find? path = none) (hl : s.registry.loading.find? path = none)
    (hr : (h.readSource path).run.run s = (.ok text, s)) (hb : h.body? path.display = none)
    (hj : CommonJs.jsonText? (CommonJs.jsonScript text) = some text)
    (hp : Json.parse text = .ok json) :
    ∃ v t, h.LaterApart path ⟨.load d path .json, [], s⟩ ⟨.loaded (.ok v), [], t⟩ ∧
      (h.load (h.callWithin d) path .json).run.run s = (.ok v, t) ∧
      t.registry = s.registry.complete path v := by
  have hnew : h.Step ⟨.load d path .json, [], s⟩ _ := .new hc hl
  have hread : h.Step ⟨.read d path .json, [], s⟩ _ := .readJson hr
  have hparse : h.Step ⟨.evaluate d (CommonJs.jsonScript text) path.display, [.json path], s⟩ _ :=
    .parse hj hb
  have heval (u : HostState) : (evalJson text).run u =
      (some (u.heap.ofJson json).1, { u with heap := (u.heap.ofJson json).2 }) := by
    unfold evalJson
    rw [hp]
    rfl
  rw [heval] at hparse
  have hsteps : h.Steps _ _ := (((Relation.ReflTransGen.single hnew).tail hread).tail hparse).tail
    .jsonCached
  refine ⟨_, _, ?_, Steps.unique_loaded (runs_load (runs_call d) path .json [] s) hsteps, ?_⟩
  · exact (((LaterApart.step .refl hnew (Nat.zero_le 1)).step hread (Nat.le_refl 1)).step hparse
      (Nat.le_refl 1)).step .jsonCached (Nat.zero_le 1)
  · exact registry_cacheExports _ path _

/-- On an engine without ES modules of its own, a file that is not evaluated as JSON inside of its
own evaluation, as no script ever is, is listed as loaded once if it is kept and not at all
otherwise. The value it is kept with stays, and what a load of it has answered once its evaluation
is completed is what every later load of it answers. -/
theorem one_entry_per_path (h : Host) (hnative : h.nativeEsm = false) :
    (∀ paths path c, h.Reaches paths c → h.IsScript c.state.packages path →
      h.LaterApart path Moment.initial c) ∧
    (∀ c, (∀ path, h.LaterApart path Moment.initial c) →
      (c.state.registry.loaded.Pairwise fun p q => p.same q = false) ∧
      ∀ path, c.state.registry.isCached path = true ↔
        ∃ q ∈ c.state.registry.loaded, q.same path = true) ∧
    ∀ path c, h.LaterApart path Moment.initial c →
      (c.state.registry.loaded.filter (·.same path)).length =
        (if c.state.registry.isCached path = true then 1 else 0) ∧
      (∀ v c', c.state.registry.cache.find? path = some v → h.LaterApart path c c' →
        c'.state.registry.cache.find? path = some v) ∧
      ∀ d q format v t, c.task = .load d q format → q.same path = true →
        (h.load (h.callWithin d) q format).run.run c.state = (.ok v, t) →
        t.registry.isCached path = true →
        let loaded : Moment := ⟨.loaded (.ok v), c.waiting, t⟩
        h.LaterApart path c loaded → ∀ c', h.LaterApart path loaded c' →
          ∀ d' q' format', q'.same path = true →
            (h.load (h.callWithin d') q' format').run.run c'.state = (.ok v, c'.state) := by
  refine ⟨fun paths path c hc => hc.laterApart, fun c hall => ⟨?_, fun path => ?_⟩,
    fun path c hl => ?_⟩
  · refine pairwise_of_length_filter_le fun path => ?_
    rw [((hall path).once_of_initial hnative).count]
    split <;> omega
  · have hcount := ((hall path).once_of_initial hnative).count
    have hmem : (∃ q ∈ c.state.registry.loaded, q.same path = true) ↔
        0 < (c.state.registry.loaded.filter (·.same path)).length := by
      rw [List.length_pos_iff_exists_mem]
      simp only [List.mem_filter]
    rw [hmem, hcount]
    cases c.state.registry.isCached path <;> simp
  · have honce := hl.once_of_initial hnative
    have hreached := hl.exists_reaches
    refine ⟨honce.count, fun v c' hf hl' => hl'.found hnative hreached honce hf, ?_⟩
    intro d q format v t ht hq hr hcached loaded hl' c' hl'' d' q' format' hq'
    have hloaded : ∃ paths, h.Reaches paths loaded :=
      LaterApart.exists_reaches (Relation.ReflTransGen.trans hl hl')
    have hf : t.registry.cache.find? path = some v := by
      rw [← PathMap.find?_congr (Path.same_iff.mp hq)]
      refine find?_of_load hr ?_
      rw [Registry.isCached, PathMap.contains, PathMap.find?_congr (Path.same_iff.mp hq)]
      exact hcached
    refine load_of_cached ?_
    rw [PathMap.find?_congr (Path.same_iff.mp hq')]
    exact hl''.found hnative hloaded (hl'.once hnative hreached honce) hf

/-- The object that the quiet file is parsed to is answered under another spelling of its path. -/
theorem one_entry_per_path_quiet : ∃ v t,
    quiet.LaterApart ⟨"a.json"⟩ Moment.initial ⟨.loaded (.ok v), [], t⟩ ∧
    t.registry.loaded = [⟨"a.json"⟩] ∧
    ∀ c', quiet.LaterApart ⟨"a.json"⟩ ⟨.loaded (.ok v), [], t⟩ c' →
      (quiet.load (quiet.callWithin 3) ⟨"a.json/"⟩ .json).run.run c'.state = (.ok v, c'.state) := by
  have hresolved : (quiet.resolve ⟨"./a.json", none, .require⟩).run.run HostState.initial =
      (.ok ⟨⟨"a.json"⟩, .bundle, .json⟩, HostState.initial) :=
    resolve_initial (by decide +kernel) (by decide +kernel)
  have hstart : quiet.LaterApart ⟨"a.json"⟩ Moment.initial _ :=
    .single ⟨.action ⟨rfl, .inl ⟨_, rfl⟩⟩ (.require "./a.json" none), not_nests (Nat.zero_le 1)⟩
  have hload : quiet.LaterApart ⟨"a.json"⟩ Moment.initial
      ⟨.load 3 ⟨"a.json"⟩ .json, [], ((report (.require "./a.json" .require ⟨"a.json"⟩)).run
        HostState.initial).2⟩ :=
    hstart.step (.resolved hresolved) (Nat.zero_le 1)
  obtain ⟨v, t, hrun, hanswer, hregistry⟩ := exists_laterApart_load 3
    (s := ((report (.require "./a.json" .require ⟨"a.json"⟩)).run HostState.initial).2) rfl rfl
    (rfl : (quiet.readSource ⟨"a.json"⟩).run.run _ = (.ok "{}", _)) rfl (by decide +kernel)
    (rfl : Json.parse "{}" = .ok (.object ⟨[]⟩))
  have hcached : t.registry.isCached ⟨"a.json"⟩ = true := by
    rw [hregistry]
    exact Registry.isCached_complete _ _ _
  refine ⟨v, t, Relation.ReflTransGen.trans hload hrun, ?_, fun c' hl => ?_⟩
  · rw [hregistry]
    rfl
  · exact ((one_entry_per_path quiet rfl).2.2 _ _ hload).2.2 3 ⟨"a.json"⟩ .json v t rfl
      (Path.same_self _) hanswer hcached hrun c' hl 3 ⟨"a.json/"⟩ .json (by decide +kernel)

/-- The inner load of the file answered one object, and another one is kept in the end. The file is
listed twice. -/
theorem json_kept_twice : reentrant.nativeEsm = false ∧ ∃ paths c, reentrant.Reaches paths c ∧
    c.state.registry.loaded = [⟨"a.json"⟩, ⟨"a.json"⟩] ∧
    c.state.saved.get? "inner" = some (.object 2) ∧
    c.state.registry.cache.find? ⟨"a.json"⟩ = some (.object 3) := by
  obtain ⟨paths, c, hc, -, hs⟩ :=
    exists_reaches_session reentrant [.installGlobals, .require "./a.json" none]
  refine ⟨rfl, paths, c, hc, ?_⟩
  rw [hs]
  decide +kernel

end Host

end ModuleLoader
