import ModuleLoader.Proofs.CommonJs.Bridge
import ModuleLoader.Proofs.Host.BoundFunctions
import ModuleLoader.Proofs.Host.Once
import ModuleLoader.Proofs.Host.Stability
import ModuleLoader.Proofs.Resolve.Backslashes

/-! One instance of a file. The ES module for a file loads it by its path, a `require` by a specifier
that resolves to it, and both come to the same entry of the cache. -/

namespace ModuleLoader

namespace Host

open HostM

variable {h : Host} {c c' : Moment} {d : Nat} {path q : Path} {format : ModuleFormat}
  {s t : HostState} {f receiver v : Value} {arguments : List Value} {text : String}
  {function : HostFunction} {paths : List Path}

/-! ## Sources of ES modules -/

theorem run_lift_detect (path : Path) (s : HostState) :
    (ExceptT.lift (withPackages (h.resolver.detectFormat path)) : Loading _).run.run s =
      (.ok (h.detected path s), ((withPackages (h.resolver.detectFormat path)).run s).2) := rfl

/-- A file that is no ES module gets one that loads it, unless it cannot be read. -/
theorem exists_esmSource (hd : h.detected path s ≠ .esm) :
    ∃ answer t, (h.esmSource path).run.run s = (answer, t) ∧
      (∀ code, answer = .ok code → ∃ source, code = CommonJs.bridge path source) ∧
      ∀ e, answer = .error e →
        h.detected path s = .cjs ∧ (h.readSource path).run.run t = (.error e, t) := by
  rw [esmSource, Loading.run_bind_of_ok (run_lift_detect path s)]
  generalize ((withPackages (h.resolver.detectFormat path)).run s).2 = t
  cases hf : h.detected path s with
  | esm => exact absurd hf hd
  | json =>
    refine ⟨_, t, rfl, fun code hc => ⟨"", (Except.ok.inj hc).symm⟩, fun e he => ?_⟩
    cases he
  | cjs =>
    obtain ⟨source, hs⟩ := h.exists_readSource_run path t
    cases source with
    | error e =>
      refine ⟨.error e, t, Loading.run_bind_of_error hs, fun code hc => ?_, fun e' he => ?_⟩
      · cases hc
      · cases he
        exact ⟨rfl, hs⟩
    | ok source =>
      refine ⟨_, t, Loading.run_bind_of_ok hs, fun code hc => ⟨source, ?_⟩, fun e he => ?_⟩
      · exact (Except.ok.inj hc).symm
      · cases he

/-! ## Asking for a file -/

/-- Whether a file is asked for, by a specifier that resolves to it or by its path. -/
inductive Asks (h : Host) (call : CallFunction) (path : Path) (s : HostState) :
    Loading Value → Prop where
  | request {request : Request} {resolved : ResolvedModule} {u : HostState}
    (hr : (h.resolve request).run.run s = (.ok resolved, u))
    (hp : resolved.path.same path = true) : Asks h call path s (h.requireWith call request)
  | byPath {text : String} (hp : (Path.mk text).same path = true) :
    Asks h call path s (h.functionLoad call text .requirePath)

/-- Whether nothing happened but looks, and none of them failed. -/
structure Untouched (s t : HostState) : Prop extends OnlyLooked s t where
  pending : t.pending = s.pending

/-- How everybody is answered who asks for a file: with what is kept, or with the exports made so far,
or with what an evaluation gives and is kept then. -/
structure Shared (path : Path) (s : HostState) (result : Option Value) (t : HostState) : Prop where
  cached {v : Value} : s.registry.cache.find? path = some v → result = some v ∧ Untouched s t
  loading {module : Value} : s.registry.cache.find? path = none →
    s.registry.loading.find? path = some module →
    result = some (s.heap.get module "exports") ∧ Untouched s t
  new {v : Value} : s.registry.cache.find? path = none → s.registry.loading.find? path = none →
    result = some v → t.registry.cache.find? path = some v

/-- Both ways of asking come to a load of the file. -/
theorem Asks.exists_load {call : CallFunction} {load : Loading Value} (ha : h.Asks call path s load) :
    ∃ q format u, q.same path = true ∧ Untouched s u ∧
      load.run.run s = (h.load call q format).run.run u := by
  cases ha with
  | @request request resolved u hr hp =>
    have hlooked := onlyLooked_of_resolve hr
    have hpending := pending_of_resolve hr
    refine ⟨resolved.path, resolved.format, _, hp,
      ⟨hlooked.report (.require request.specifier request.mode resolved.path), hpending⟩, ?_⟩
    rw [requireWith, Loading.run_bind_of_ok hr, Loading.run_lift_bind]
  | @byPath text hp =>
    exact ⟨⟨text⟩, h.detected ⟨text⟩ s, ((withPackages (h.resolver.detectFormat ⟨text⟩)).run s).2, hp,
      ⟨⟨rfl, rfl, rfl, rfl, rfl, rfl⟩, rfl⟩, rfl⟩

theorem find?_of_same {α : Type} {m : PathMap α} (hq : q.same path = true) :
    m.find? q = m.find? path := PathMap.find?_congr (Path.same_iff.mp hq) m

theorem Asks.shared {call : CallFunction} {load : Loading Value} {answer : Except ModuleError Value}
    (ha : h.Asks call path s load) (hr : load.run.run s = (answer, t)) :
    Shared path s answer.toOption t := by
  obtain ⟨q, format, u, hq, hu, hload⟩ := ha.exists_load
  have hcache : u.registry.cache.find? q = s.registry.cache.find? path := by
    rw [hu.registry, find?_of_same hq]
  have hloading : u.registry.loading.find? q = s.registry.loading.find? path := by
    rw [hu.registry, find?_of_same hq]
  rw [hload] at hr
  refine ⟨fun hc => ?_, fun hc hl => ?_, fun hc hl hv => ?_⟩
  · rw [load_of_cached (hcache.trans hc)] at hr
    cases hr
    exact ⟨rfl, hu⟩
  · rw [load_of_loading (hcache.trans hc) (hloading.trans hl), hu.heap] at hr
    cases hr
    exact ⟨rfl, hu.report _, hu.pending⟩
  · have hevaluated := evaluated_evaluate h call q format u
    rw [← load_of_new (hcache.trans hc) (hloading.trans hl), hr] at hevaluated
    cases hevaluated with
    | kept hkept =>
      cases hv
      rw [← find?_of_same hq, hkept]
    | unread | failed => cases hv

section

variable (hk : s.heap.kind? f = some (.host function)) (ha : s.alive = true)
  (ht : arguments.head?.bind Value.string? = some text) (hp : s.pending = none)
include hk ha ht hp

/-- A call that returns returns what the function loads. -/
theorem functionLoad_of_callWithin
    (hr : (h.callWithin (d + 1) f receiver arguments).run s = (some v, t)) :
    (h.functionLoad (h.callWithin d) text function).run.run s = (.ok v, t) := by
  obtain ⟨answer, u, hu⟩ : ∃ answer u,
      (h.functionLoad (h.callWithin d) text function).run.run s = (answer, u) := ⟨_, _, rfl⟩
  rw [callWithin_host hk ha ht, HostM.run_bind, hu] at hr
  cases answer with
  | ok w =>
    have hreturn : (returnAnswer (functionReferrer text function) (.ok w)).run u =
        (if u.pending.isSome = true then none else some w, u) := rfl
    rw [hreturn] at hr
    split at hr
    · cases hr
    · cases hr
      exact hu
  | error e =>
    obtain ⟨message, hmessage⟩ : ∃ message,
        (if e.isPending = true then u.pending else some e.message) = some message := by
      rcases functionLoad_error hp hu with he | ⟨⟨path, rfl | rfl⟩, hsome⟩
      · rw [he]
        exact ⟨_, rfl⟩
      · exact Option.isSome_iff_exists.mp hsome
      · exact Option.isSome_iff_exists.mp hsome
    have hnone := (returnAnswer_error (functionReferrer text function) hmessage).1
    rw [hr] at hnone
    cases hnone

theorem Asks.shared_callWithin
    (hasks : h.Asks (h.callWithin d) path s (h.functionLoad (h.callWithin d) text function)) :
    Shared path s ((h.callWithin (d + 1) f receiver arguments).run s).1
      ((h.callWithin (d + 1) f receiver arguments).run s).2 := by
  obtain ⟨answer, u, hu⟩ : ∃ answer u,
      (h.functionLoad (h.callWithin d) text function).run.run s = (answer, u) := ⟨_, _, rfl⟩
  have hshared := hasks.shared hu
  -- What is answered without an evaluation leaves no exception, so the call returns it.
  have hreturns {w : Value} (hw : answer.toOption = some w ∧ Untouched s u) :
      ((h.callWithin (d + 1) f receiver arguments).run s).1 = some w ∧
        Untouched s ((h.callWithin (d + 1) f receiver arguments).run s).2 := by
    obtain ⟨hanswer, huntouched⟩ := hw
    cases answer with
    | error e => cases hanswer
    | ok w' =>
      cases hanswer
      rw [callWithin_host_ok hk ha ht hu (huntouched.pending.trans hp)]
      exact ⟨rfl, huntouched⟩
  refine ⟨fun hc => hreturns (hshared.cached hc), fun hc hl => hreturns (hshared.loading hc hl),
    fun hc hl hv => ?_⟩
  rw [functionLoad_of_callWithin hk ha ht hp (Prod.ext hv rfl)] at hu
  cases hu
  exact hshared.new hc hl rfl

end

/-! ## Completed evaluations -/

theorem Step.cache_of_completion (hs : h.Step c c') (hd : c.completion? = some (q, v)) :
    c'.state.registry.cache = c.state.registry.cache.insert q v := by
  cases hs
  case jsonCached ws s =>
    cases hd
    exact congrArg Tables.cache (cacheExports_run q s v).1
  case completed module wrapper _ ws s =>
    cases hd
    exact congrArg Tables.cache (complete_run q s module wrapper).2.1
  case body result ws s => cases result <;> cases hd
  all_goals cases hd

/-- A file whose evaluation is completed outside of any other of its own is held from then on. -/
theorem Reaches.held_of_completion (hc : h.Reaches paths c) (hn : h.Next c c')
    (hd : c.completion? = some (q, v)) (hq : q.same path = true) (ha : ¬c.Nests path) :
    c'.task = .loaded (.ok v) ∧ c'.Held h path v := by
  obtain ⟨htask, hfrom⟩ := hn.of_completion hd
  have hfound : c'.state.registry.cache.find? path = some v := by
    rw [(hn.step_of_completion hd).cache_of_completion hd, ← find?_of_same hq]
    exact PathMap.find?_insert_self _ q v
  have hhosted : h.IsHosted c.state.packages q := by
    rcases hfrom with hj | ⟨⟨module, hm⟩, -⟩
    · exact isHosted_json (hc.typed.jsons q (hj ▸ List.mem_cons_self))
    · exact (hc.typed.scripts (q, module) hm).isHosted
  refine ⟨htask, hfound, ?_, (hhosted.congr hq).mono hn.effect.2⟩
  rintro (⟨d, p, -, ⟨format, ht⟩ | ht⟩ | ⟨mark, hm, hs⟩ | ⟨p, hm, hs⟩)
  · rw [htask] at ht
    cases ht
  · rw [htask] at ht
    cases ht
  · -- What is marked is not kept.
    have huncached := (hc.next hn).sound.marked.uncached mark hm
    rw [find?_of_same hs, hfound] at huncached
    cases huncached
  · rw [hc.typed.alone ha hn hd hq p hm] at hs
    cases hs

/-- What is completed was worked on. -/
theorem worksOn_of_completion? (hd : c.completion? = some (q, v)) (hq : q.same path = true) :
    c.WorksOn path := by
  obtain ⟨task, waiting, s⟩ := c
  unfold Moment.completion? at hd
  split at hd
  · next hw =>
    cases hd
    obtain rfl : waiting = _ := hw
    exact .inr (.inr ⟨q, List.mem_cons_self, hq⟩)
  · next hw =>
    cases hd
    obtain rfl : waiting = _ := hw
    exact .inr (.inl ⟨_, List.mem_cons_self, hq⟩)
  · cases hd

/-- Scripts find the function that loads by a path where the ES modules look for it. -/
theorem Reaches.kind?_installed (hc : h.Reaches paths c) :
    let t := (installGlobals.run c.state).2
    t.heap.kind? (t.heap.get Heap.globalObject CommonJs.requireGlobal) =
      some (.host .requirePath) := by
  have hglobal : c.state.heap.kind? Heap.globalObject = some .plain := by
    induction hc with
    | initial => rfl
    | next _ hn ih => exact hn.grows.old _ _ ih
  let installed := c.state.heap.allocateWith (.host .requirePath) []
  have hkept : installed.2.kind? Heap.globalObject = some .plain :=
    (c.state.heap.grows_allocateWith (P := fun _ => True) trivial []).old _ _ hglobal
  have hrun : (installGlobals.run c.state).2.heap =
      installed.2.set Heap.globalObject CommonJs.requireGlobal installed.1 := rfl
  dsimp only
  rw [hrun, Heap.get_set_self (by rw [hkept]; rfl), Heap.kind?_set]
  exact c.state.heap.kind?_allocateWith _ []

/-- All that is asked of a file comes to one entry. The ES module for a file that is none calls a
global function with a text whose path is the file's, if the file's path has no backslash, as no name
of a bundle has, nor anything that is found in one whose root and extensions have none. All loads of
the file are in one format. Everybody who asks for it, from within a script or not, is answered what
is kept, or the exports made so far, or what is evaluated and kept then. Once an evaluation of it is
completed, as a script or as JSON that is not evaluated inside of itself, no other one is completed
ever after, and its exports are what everybody is answered. -/
theorem one_instance_per_file (h : Host) :
    (∀ path s, path.IsForward → h.detected path s ≠ .esm → ∃ answer t,
      (h.esmSource path).run.run s = (answer, t) ∧
      (∀ code, answer = .ok code → ∃ text, CommonJs.loadedText? code = some text ∧
        Path.mk text = path ∧
        ∀ call s, h.Asks call path s (h.functionLoad call text .requirePath)) ∧
      ∀ e, answer = .error e →
        h.detected path s = .cjs ∧ (h.readSource path).run.run t = (.error e, t)) ∧
    (∀ paths c, h.Reaches paths c → let t := (installGlobals.run c.state).2
      t.heap.kind? (t.heap.get Heap.globalObject CommonJs.requireGlobal) =
        some (.host .requirePath)) ∧
    (∀ files, ∀ key ∈ (Bundle.ofEntries files).keys, (Path.mk key).IsForward) ∧
    (h.resolver.source.kind = .bundle → h.resolver.root.IsForward →
      (∀ ext ∈ h.resolver.extensions, '\\' ∉ ext.toList) → ∀ history request found,
      ((h.resolver.resolve request).run (PackageCache.after h.resolver history)).1 = .ok found →
      found.path.IsForward) ∧
    (∀ paths c c' path d d' q q' format format', h.Reaches paths c → h.Later c c' →
      c.task = .load d q format → c'.task = .load d' q' format' → q.same path = true →
      q'.same path = true → format' = format) ∧
    (∀ paths c path d load answer t, h.Reaches paths c →
      h.Asks (h.callWithin d) path c.state load → load.run.run c.state = (answer, t) →
      Shared path c.state answer.toOption t ∧
      ∀ f receiver text rest function result t', c.state.pending = none →
        c.state.heap.kind? f = some (.host function) →
        load = h.functionLoad (h.callWithin d) text function →
        (h.callWithin (d + 1) f receiver (.string text :: rest)).run c.state = (result, t') →
        Shared path c.state result t') ∧
    (∀ paths c path, h.Reaches paths c → h.detected path c.state = .cjs → ¬c.Nests path) ∧
    ∀ paths c c₁ path q v, h.Reaches paths c → h.Next c c₁ → c.completion? = some (q, v) →
      q.same path = true → ¬c.Nests path → c₁.task = .loaded (.ok v) ∧
        ∀ c', h.Later c₁ c' → c'.state.registry.cache.find? path = some v ∧
          (∀ q' v', c'.completion? = some (q', v') → q'.same path = false) ∧
          ∀ d load, h.Asks (h.callWithin d) path c'.state load →
            ∃ t, load.run.run c'.state = (.ok v, t) ∧ Untouched c'.state t := by
  refine ⟨fun path s hp hd => ?_, fun paths c => Reaches.kind?_installed,
    fun files key hm => Bundle.isForward_key hm,
    fun hkind hroot hx history request found => Resolver.isForward_of_bundle hkind hroot hx history,
    fun paths c c' path d d' q q' format format' hc hl ht ht' hq hq' => ?_,
    fun paths c path d load answer t hc ha hr => ⟨ha.shared hr, ?_⟩,
    fun paths c path hc hd => ?_,
    fun paths c c₁ path q v hc hn hd hq ha => ?_⟩
  · obtain ⟨answer, t, hr, hok, herror⟩ := exists_esmSource hd
    refine ⟨answer, t, hr, fun code hcode => ⟨path.text, ?_, rfl, fun _ _ => .byPath path.same_self⟩,
      herror⟩
    obtain ⟨source, rfl⟩ := hok code hcode
    rw [CommonJs.loadedText?_bridge, hp.display]
  · obtain ⟨_, hc'⟩ := hc.later hl
    have hsettles := (hc.typed.load ht).mono hl.extends
    have hcomponents := (Path.same_iff.mp hq).trans (Path.same_iff.mp hq').symm
    exact (hc'.typed.load ht').unique (hsettles.congr hcomponents)
  · intro f receiver text rest function result t' hp hk hload hcalled
    subst hload
    have hshared : Shared path c.state
        ((h.callWithin (d + 1) f receiver (.string text :: rest)).run c.state).1 _ :=
      ha.shared_callWithin hk hc.alive rfl hp
    rwa [hcalled] at hshared
  · have hsettles : h.resolver.Settles ((h.resolver.detectFormat path).run c.state.packages).2 path
        (h.detected path c.state) := Resolver.settles_detectFormat _ _
    rw [hd] at hsettles
    exact hc.not_nests (h.resolver.extends_detectFormat path _) ⟨.cjs, hsettles, nofun, nofun⟩
  · obtain ⟨htask, hheld⟩ := hc.held_of_completion hn hd hq ha
    refine ⟨htask, fun c' hl => ⟨(hheld.later hl).found, fun q' v' hd' => ?_, fun d load ha => ?_⟩⟩
    · by_contra hs
      exact (hheld.later hl).idle (worksOn_of_completion? hd' (by simpa using hs))
    · obtain ⟨answer, t, hr⟩ : ∃ answer t, load.run.run c'.state = (answer, t) := ⟨_, _, rfl⟩
      obtain ⟨hanswer, huntouched⟩ := (ha.shared hr).cached (hheld.later hl).found
      cases answer with
      | error e => cases hanswer
      | ok w =>
        cases hanswer
        exact ⟨t, hr, huntouched⟩

/-- The ES module for the single file loads it by its name, which answers the exports of the file
once its body has returned. -/
theorem one_instance_per_file_single :
    (∃ code t, (single.esmSource ⟨"a.cjs"⟩).run.run HostState.initial = (.ok code, t) ∧
      CommonJs.loadedText? code = some "a.cjs") ∧
    ∃ paths c c₁ v, single.Reaches paths c ∧ single.Next c c₁ ∧ c₁.task = .loaded (.ok v) ∧
      ∀ c', single.Later c₁ c' → ∃ t,
        (single.functionLoad (single.callWithin 1) "a.cjs" .requirePath).run.run c'.state =
          (.ok v, t) ∧ Untouched c'.state t := by
  obtain ⟨hsource, -, -, -, -, -, -, hcompleted⟩ := one_instance_per_file single
  constructor
  · have hforward : (Path.mk "a.cjs").IsForward := by
      rw [Path.IsForward]
      decide
    have hcjs : single.detected ⟨"a.cjs"⟩ HostState.initial ≠ .esm := by decide +kernel
    obtain ⟨answer, t, hr, hok, herror⟩ := hsource ⟨"a.cjs"⟩ HostState.initial hforward hcjs
    cases answer with
    | error e => cases (herror e rfl).2
    | ok code =>
      obtain ⟨text, htext, hpath, -⟩ := hok code rfl
      cases hpath
      exact ⟨code, t, hr, htext⟩
  · obtain ⟨paths, s, hc⟩ := exists_reaches_single
    obtain ⟨htask, hlater⟩ := hcompleted _ _ _ ⟨"a.cjs"⟩ _ _ hc (.step .completed) rfl
      (Path.same_self _) (not_nests (Nat.zero_le 1))
    exact ⟨paths, _, _, _, hc, .step .completed, htask, fun c' hl =>
      (hlater c' hl).2.2 1 _ (.byPath (Path.same_self _))⟩

end Host

end ModuleLoader
