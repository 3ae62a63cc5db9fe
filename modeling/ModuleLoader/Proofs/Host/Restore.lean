import ModuleLoader.Proofs.Host.Effect
import ModuleLoader.Proofs.Path.Map

/-! The marks are restored. Whatever a call or a load does, and however it ends, the map of modules
under evaluation is afterwards what it was before. This holds in every state, reached or not. -/

namespace ModuleLoader

namespace HostM

/-- Whether an action leaves the marks as they are. -/
def KeepsMarks {α : Type} (x : HostM α) : Prop :=
  ∀ s, (x.run s).2.registry.loading = s.registry.loading

theorem KeepsMarks.pure {α : Type} (a : α) : KeepsMarks (pure a : HostM α) := fun _ => rfl

theorem KeepsMarks.bind {α β : Type} {x : HostM α} {f : α → HostM β} (hx : KeepsMarks x)
    (hf : ∀ a, KeepsMarks (f a)) : KeepsMarks (x >>= f) := by
  intro s
  rw [HostM.run_bind]
  exact (hf _ _).trans (hx s)

theorem KeepsMarks.of_alike {α : Type} {x : HostM α} (hx : ∀ s, Host.Alike s (x.run s).2) :
    KeepsMarks x := fun s => congrArg Tables.loading (hx s).tables

end HostM

namespace Host

open HostM

variable {h : Host} {call : CallFunction}
  (hc : ∀ f receiver arguments, KeepsMarks (call f receiver arguments))

theorem keepsMarks_allocateWith (kind : ObjectKind) (properties : List (String × Value)) :
    KeepsMarks (allocateWith kind properties) := fun _ => rfl

include hc

theorem keepsMarks_script (script : Script) : KeepsMarks (script.run call) := by
  induction script with
  | done v => exact .pure _
  | throw message => exact fun _ => rfl
  | look next ih => exact fun s => ih s s
  | allocate next ih => exact (keepsMarks_allocateWith .plain []).bind fun v => ih v
  | set object name value next ih => exact fun s => ih _
  | save name value next ih => exact fun s => ih _
  | record event next ih => exact fun s => ih _
  | call f arguments next ih =>
    rw [Script.run]
    refine (hc f .undefined arguments).bind fun result => ?_
    cases result with
    | none => exact .pure none
    | some v => exact ih v
  | attempt f arguments next caught ih ihc =>
    rw [Script.run]
    refine (hc f .undefined arguments).bind fun result => ?_
    cases result with
    | none => exact fun s => ihc _ _
    | some v => exact ih v

theorem keepsMarks_evalScript (code filename : String) :
    KeepsMarks (h.evalScript call code filename) := by
  have hjson (text : String) : KeepsMarks (evalJson text) := .of_alike (alike_evalJson text)
  have hrecord : KeepsMarks (HostM.record (.evaluated filename code)) := fun _ => rfl
  refine hrecord.bind fun _ => ?_
  cases CommonJs.jsonText? code with
  | some text =>
    cases h.body? filename with
    | none => exact hjson text
    | some body =>
      have hrun : KeepsMarks (runBody call filename body []) :=
        fun s => keepsMarks_script hc _ _
      refine hrun.bind fun result => ?_
      cases result with
      | none => exact .pure none
      | some _ => exact hjson text
  | none =>
    cases h.body? filename with
    | none => exact fun _ => rfl
    | some body =>
      refine (keepsMarks_script hc (h.around filename)).bind fun result => ?_
      cases result with
      | none => exact .pure none
      | some v => exact fun s => congrArg Tables.loading (alike_bodyFunction filename v s).tables

/-- The mark of a path that had none goes away again. -/
theorem loading_loadScript {path : Path} {s : HostState}
    (hl : s.registry.loading.find? path = none) (code : String) (mode : ResolveMode) :
    ((h.loadScript call path code mode).run.run s).2.registry.loading = s.registry.loading := by
  obtain ⟨⟨module, exports, require⟩, t, hp⟩ : ∃ v t, (prepare path mode).run s = (v, t) :=
    ⟨_, _, rfl⟩
  have hmark : t.registry.loading = s.registry.loading.push path module := by
    have ht := congrArg Tables.loading (prepare_run path s hp).1
    rw [← PathMap.insert_of_find?_eq_none hl]
    exact ht
  -- However the evaluation ends, it ends from the marks that it began with.
  have hend (u : HostState) (hu : u.registry.loading = t.registry.loading) :
      u.registry.loading.erase path = s.registry.loading := by
    rw [hu, hmark, PathMap.erase_push hl]
  rw [loadScript_run]
  simp only [HostM.run_bind, hp]
  have heval := keepsMarks_evalScript (h := h) hc (CommonJs.wrap code) path.display t
  generalize (h.evalScript _ _ _).run t = r at heval ⊢
  obtain ⟨compiled, u⟩ := r
  cases compiled with
  | none =>
    have he := congrArg Tables.loading (endLoading_run path u).1
    exact he.trans (hend u heval)
  | some wrapper =>
    dsimp only
    simp only [HostM.run_bind]
    have hcall := hc wrapper exports (moduleArguments path exports require module)
      ((protect wrapper).run u).2
    generalize (call wrapper exports _).run _ = r at hcall ⊢
    obtain ⟨result, v⟩ := r
    have hv : v.registry.loading = t.registry.loading := hcall.trans heval
    cases result with
    | none =>
      have he := congrArg Tables.loading (abandon_run path v wrapper).1
      exact he.trans (hend v hv)
    | some result =>
      have he := congrArg Tables.loading (complete_run path v module wrapper).2.1
      exact he.trans (hend v hv)

theorem loading_evaluate {path : Path} {s : HostState}
    (hl : s.registry.loading.find? path = none) (format : ModuleFormat) :
    ((h.evaluate call path format).run.run s).2.registry.loading = s.registry.loading := by
  obtain ⟨source, hs⟩ := h.exists_readSource_run path s
  cases format with
  | json =>
    rw [evaluate, loadJson]
    cases source with
    | error error => rw [Loading.run_bind_of_error hs]
    | ok text =>
      rw [Loading.run_bind_of_ok hs, Loading.run_lift_bind]
      have heval := keepsMarks_evalScript (h := h) hc (CommonJs.jsonScript text) path.display s
      generalize (h.evalScript _ _ _).run s = r at heval ⊢
      obtain ⟨value, t⟩ := r
      cases value with
      | none => exact heval
      | some v =>
        have he := congrArg Tables.loading (cacheExports_run path t v).1
        exact he.trans heval
  | cjs =>
    rw [evaluate]
    cases source with
    | error error => rw [Loading.run_bind_of_error hs]
    | ok text =>
      rw [Loading.run_bind_of_ok hs]
      exact loading_loadScript hc hl text .require
  | esm =>
    rw [evaluate]
    split
    · rfl
    · cases source with
      | error error => rw [Loading.run_bind_of_error hs]
      | ok text =>
        rw [Loading.run_bind_of_ok hs]
        exact loading_loadScript hc hl _ .import

theorem keepsMarks_load (path : Path) (format : ModuleFormat) :
    KeepsMarks (h.load call path format).run := by
  intro s
  cases hcache : s.registry.cache.find? path with
  | some exports => rw [load_of_cached hcache]
  | none =>
    cases hload : s.registry.loading.find? path with
    | some module =>
      rw [load_of_loading hcache hload]
      rfl
    | none =>
      rw [load_of_new hcache hload]
      exact loading_evaluate hc hload format

theorem keepsMarks_requireWith (request : Request) :
    KeepsMarks (h.requireWith call request).run := by
  intro s
  obtain ⟨answer, t, hr⟩ : ∃ answer t, (h.resolve request).run.run s = (answer, t) := ⟨_, _, rfl⟩
  have ht := congrArg Tables.loading (alike_of_resolve hr).tables
  rw [requireWith]
  cases answer with
  | error error =>
    rw [Loading.run_bind_of_error hr]
    exact ht
  | ok resolved =>
    rw [Loading.run_bind_of_ok hr, Loading.run_lift_bind]
    exact (keepsMarks_load hc _ _ _).trans ht

theorem keepsMarks_applyFunction (text : String) (function : HostFunction) :
    KeepsMarks (h.applyFunction call text function >>= unlessPending) := by
  have hanswer (referrer : Path) {load : Loading Value} (hl : KeepsMarks load.run) :
      KeepsMarks (answer referrer load >>= unlessPending) := by
    have he : answer referrer load >>= unlessPending = load.run >>= returnAnswer referrer := rfl
    rw [he]
    exact hl.bind fun loaded => .of_alike (alike_returnAnswer referrer loaded)
  cases function with
  | require referrer mode => exact hanswer referrer (keepsMarks_requireWith hc _)
  | resolve referrer mode => exact hanswer referrer (.of_alike (h.alike_resolveDisplay _))
  | requirePath =>
    have hformat : KeepsMarks (withPackages (h.resolver.detectFormat ⟨text⟩)) := fun _ => rfl
    exact hformat.bind fun format => hanswer ⟨text⟩ (keepsMarks_load hc ⟨text⟩ format)

omit hc in
theorem keepsMarks_callWithin (h : Host) (d : Nat) (f receiver : Value) (arguments : List Value) :
    KeepsMarks (h.callWithin d f receiver arguments) := by
  induction d generalizing f receiver arguments with
  | zero => exact fun _ => rfl
  | succ d ih =>
    intro s
    rw [callWithin_succ]
    cases hk : s.heap.kind? f with
    | none => rfl
    | some kind =>
      cases kind with
      | plain => rfl
      | wrapper filename =>
        dsimp only
        rw [runWrapper, HostM.run_bind]
        cases h.body? filename with
        | none => rfl
        | some body => exact keepsMarks_script ih _ _
      | host function =>
        dsimp only
        rw [HostM.run_bind, callHostFunction_run]
        cases s.alive with
        | false => rfl
        | true =>
          cases arguments.head?.bind Value.string? with
          | none => rfl
          | some text => exact keepsMarks_applyFunction ih text function s

end Host

end ModuleLoader
