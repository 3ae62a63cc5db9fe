import ModuleLoader.Proofs.Host.Formats
import ModuleLoader.Proofs.Host.NativeEsm

/-! The functions that modules are given. An object is of one kind for ever, and the functions of a
module are made when its evaluation begins, with the mode of its format. -/

namespace ModuleLoader

/-- The module that a function of the host belongs to, and the mode that it resolves in. -/
def ObjectKind.owner? : ObjectKind → Option (Path × ResolveMode)
  | .host (.require referrer mode) => some (referrer, mode)
  | .host (.resolve referrer mode) => some (referrer, mode)
  | _ => none

namespace Heap

variable {heap heap' heap'' : Heap} {P Q : ObjectKind → Prop} {value object property : Value}
  {kind : ObjectKind} {name : String}

/-- Whether all objects are still there, and those that have come are of certain kinds. -/
structure Grows (heap : Heap) (P : ObjectKind → Prop) (heap' : Heap) : Prop where
  old : ∀ value kind, heap.kind? value = some kind → heap'.kind? value = some kind
  new : ∀ value kind, heap'.kind? value = some kind → heap.kind? value = some kind ∨ P kind

theorem Grows.refl (heap : Heap) (P : ObjectKind → Prop) : heap.Grows P heap :=
  ⟨fun _ _ hk => hk, fun _ _ hk => .inl hk⟩

theorem Grows.trans (h : heap.Grows P heap') (h' : heap'.Grows P heap'') : heap.Grows P heap'' := by
  refine ⟨fun v k hk => h'.old v k (h.old v k hk), fun v k hk => ?_⟩
  rcases h'.new v k hk with hk | hk
  · exact h.new v k hk
  · exact .inr hk

theorem Grows.imp (h : heap.Grows P heap') (hp : ∀ kind, P kind → Q kind) : heap.Grows Q heap' :=
  ⟨h.old, fun v k hk => (h.new v k hk).imp_right (hp k)⟩

theorem kind?_initial (hk : initial.kind? value = some kind) : kind = .plain := by
  cases value with
  | object id =>
    obtain ⟨o, ho, rfl⟩ := Option.map_eq_some_iff.mp hk
    cases id with
    | zero =>
      cases ho
      rfl
    | succ id => cases ho
  | _ => cases hk

theorem kind?_allocate (heap : Heap) (kind : ObjectKind) :
    (heap.allocate kind).2.kind? (heap.allocate kind).1 = some kind := by
  simp [allocate, kind?, find?, size]

theorem find?_allocate (heap : Heap) (kind : ObjectKind) (id : ObjectId) :
    (heap.allocate kind).2.find? id =
      if id = heap.size then some ⟨kind, Members.empty⟩ else heap.find? id := Array.getElem?_push

theorem grows_allocate (heap : Heap) (hk : P kind) : heap.Grows P (heap.allocate kind).2 := by
  refine ⟨fun v k hv => ?_, fun v k hv => ?_⟩
  · cases v with
    | object id =>
      obtain ⟨o, ho, rfl⟩ := Option.map_eq_some_iff.mp hv
      have hlt : id < heap.size := (Array.getElem?_eq_some_iff.mp ho).1
      rw [kind?, find?_allocate, if_neg (Nat.ne_of_lt hlt), ho, Option.map_some]
    | _ => cases hv
  · cases v with
    | object id =>
      rw [kind?, find?_allocate] at hv
      by_cases hid : id = heap.size
      · rw [if_pos hid] at hv
        cases hv
        exact .inr hk
      · rw [if_neg hid] at hv
        exact .inl hv
    | _ => cases hv

theorem kind?_set (heap : Heap) (object property value : Value) (name : String) :
    (heap.set object name property).kind? value = heap.kind? value := by
  cases object with
  | object id =>
    cases value with
    | object other =>
      simp only [set, kind?, find?, Array.getElem?_modify]
      split
      · next he =>
        subst he
        cases heap.objects[id]? <;> rfl
      · rfl
    | _ => rfl
  | _ => rfl

theorem grows_set (heap : Heap) (object property : Value) (name : String) :
    heap.Grows P (heap.set object name property) :=
  ⟨fun v k hk => by rwa [kind?_set], fun v k hk => .inl (by rwa [kind?_set] at hk)⟩

theorem kind?_setAll (heap : Heap) (object value : Value) (properties : List (String × Value)) :
    (heap.setAll object properties).kind? value = heap.kind? value := by
  induction properties generalizing heap with
  | nil => rfl
  | cons entry rest ih => exact (ih _).trans (kind?_set _ _ _ _ _)

theorem kind?_allocateWith (heap : Heap) (kind : ObjectKind) (properties : List (String × Value)) :
    (heap.allocateWith kind properties).2.kind? (heap.allocateWith kind properties).1 = some kind :=
  (kind?_setAll _ _ _ _).trans (kind?_allocate heap kind)

theorem grows_allocateWith (heap : Heap) (hk : P kind) (properties : List (String × Value)) :
    heap.Grows P (heap.allocateWith kind properties).2 := by
  refine (grows_allocate heap hk).trans ?_
  have hkind := kind?_setAll (heap.allocate kind).2 (heap.allocate kind).1
  exact ⟨fun v k hv => (hkind v properties).trans hv,
    fun v k hv => .inl ((hkind v properties).symm.trans hv)⟩

mutual

theorem grows_ofJson (hp : P .plain) (heap : Heap) : (json : Json) → heap.Grows P (heap.ofJson json).2
  | .null => .refl heap P
  | .bool _ => .refl heap P
  | .number _ => .refl heap P
  | .string _ => .refl heap P
  | .array items => (grows_ofItems hp heap 0 items).trans (grows_allocateWith _ hp _)
  | .object ⟨entries⟩ => (grows_ofMembers hp heap entries).trans (grows_allocateWith _ hp _)

theorem grows_ofItems (hp : P .plain) (heap : Heap) (position : Nat) :
    (items : List Json) → heap.Grows P (heap.ofItems position items).2
  | [] => .refl heap P
  | item :: rest => (grows_ofJson hp heap item).trans (grows_ofItems hp _ (position + 1) rest)

theorem grows_ofMembers (hp : P .plain) (heap : Heap) :
    (entries : List (String × Json)) → heap.Grows P (heap.ofMembers entries).2
  | [] => .refl heap P
  | (_, item) :: rest => (grows_ofJson hp heap item).trans (grows_ofMembers hp _ rest)

end

theorem get_set_self (h : (heap.kind? object).isSome = true) (name : String) (property : Value) :
    (heap.set object name property).get object name = property := by
  cases object with
  | object id =>
    obtain ⟨kind, hk⟩ := Option.isSome_iff_exists.mp h
    obtain ⟨o, ho, -⟩ := Option.map_eq_some_iff.mp hk
    have hset : (heap.set (.object id) name property).find? id =
        some { o with properties := o.properties.insert name property } := by
      simp only [set, find?, Array.getElem?_modify, if_true]
      rw [show heap.objects[id]? = some o from ho]
      rfl
    rw [get, hset, Option.bind_some, Members.get?_insert_self]
    rfl
  | _ => cases h

end Heap

/-- Whether an object of this kind may be made. Functions of a module are made where its file is
read, in the mode of its format. -/
def Moment.MayMake (c : Moment) (kind : ObjectKind) : Prop :=
  ∀ path mode, kind.owner? = some (path, mode) →
    ∃ d format, c.task = .read d path format ∧ (mode = .import ↔ format = .esm)

theorem Moment.mayMake_of_none {kind : ObjectKind} (hk : kind.owner? = none) (c : Moment) :
    c.MayMake kind := by
  intro path mode ho
  rw [hk] at ho
  cases ho

namespace Host

open HostM

variable {h : Host} {c c' : Moment} {path : Path} {mode : ResolveMode} {s t : HostState}
  {module exports require : Value}

/-! ## The functions of a module -/

theorem makeRequire_heap (hr : (makeRequire path mode).run s = (require, t)) :
    s.heap.Grows (fun kind => kind.owner? = some (path, mode)) t.heap ∧
      t.heap.kind? require = some (.host (.require path mode)) ∧
      t.heap.kind? (t.heap.get require "resolve") = some (.host (.resolve path mode)) := by
  let resolve := s.heap.allocateWith (.host (.resolve path mode)) []
  let bare := resolve.2.allocate (.host (.require path mode))
  have hrun : (makeRequire path mode).run s =
      (bare.1, { s with heap := bare.2.set bare.1 "resolve" resolve.1 }) := rfl
  rw [hrun] at hr
  cases hr
  have hresolve : resolve.2.kind? resolve.1 = some (.host (.resolve path mode)) :=
    s.heap.kind?_allocateWith _ []
  have hbare : bare.2.kind? bare.1 = some (.host (.require path mode)) :=
    resolve.2.kind?_allocate _
  have hgrows {P : ObjectKind → Prop} (hp : P (.host (.require path mode))) :
      resolve.2.Grows P (bare.2.set bare.1 "resolve" resolve.1) :=
    (resolve.2.grows_allocate hp).trans (bare.2.grows_set _ _ _)
  let P (kind : ObjectKind) : Prop := kind.owner? = some (path, mode)
  refine ⟨(s.heap.grows_allocateWith (P := P) rfl []).trans (hgrows (P := P) rfl), ?_, ?_⟩
  · rw [Heap.kind?_set, hbare]
  · rw [Heap.get_set_self (by rw [hbare]; rfl)]
    exact (hgrows (P := fun _ => True) trivial).old _ _ hresolve

theorem prepare_heap (hp : (prepare path mode).run s = ((module, exports, require), t)) :
    s.heap.Grows (fun kind => kind.owner? = none ∨ kind.owner? = some (path, mode)) t.heap ∧
      t.heap.kind? require = some (.host (.require path mode)) ∧
      t.heap.kind? (t.heap.get require "resolve") = some (.host (.resolve path mode)) := by
  let empty := s.heap.allocateWith .plain []
  obtain ⟨u, hu, hr⟩ : ∃ u : HostState,
      (∃ properties, u.heap = (empty.2.allocateWith .plain properties).2) ∧
        (makeRequire path mode).run u = (require, t) := by
    simp only [prepare, makeModule, HostM.run_bind, allocateWith_run, protect_run,
      updateRegistry_run, HostM.run_pure] at hp
    cases hp
    exact ⟨_, ⟨_, rfl⟩, rfl⟩
  obtain ⟨properties, hu⟩ := hu
  obtain ⟨hgrows, hkinds⟩ := makeRequire_heap hr
  rw [hu] at hgrows
  refine ⟨?_, hkinds⟩
  exact ((s.heap.grows_allocateWith (.inl rfl) []).trans
    (empty.2.grows_allocateWith (.inl rfl) properties)).trans (hgrows.imp fun _ hk => .inr hk)

/-! ## Steps -/

section

variable (s : HostState)

theorem heap_cacheExports (path : Path) (v : Value) :
    ((cacheExports path v).run s).2.heap = s.heap := by
  obtain ⟨pins, hc⟩ := cacheExports_state path s v
  rw [hc]

theorem heap_endLoading (path : Path) : ((endLoading path).run s).2.heap = s.heap := by
  obtain ⟨pins, he⟩ := endLoading_state path s
  rw [he]

theorem heap_returnAnswer (referrer : Path) (loaded : Except ModuleError Value) :
    ((returnAnswer referrer loaded).run s).2.heap = s.heap := by
  obtain ⟨pending, events, log, ha⟩ := returnAnswer_state s referrer loaded
  rw [ha]

theorem grows_evalJson (text : String) :
    s.heap.Grows (·.owner? = none) ((evalJson text).run s).2.heap := by
  unfold evalJson
  cases Json.parse text with
  | error e => exact .refl _ _
  | ok json => exact Heap.grows_ofJson (P := (·.owner? = none)) rfl s.heap json

theorem grows_bodyFunction (filename : String) (v : Value) :
    s.heap.Grows (·.owner? = none) ((bodyFunction filename v).run s).2.heap := by
  cases v
  case undefined => exact s.heap.grows_allocateWith (P := (·.owner? = none)) rfl []
  all_goals exact .refl _ _

theorem grows_complete (path : Path) (module wrapper : Value) :
    s.heap.Grows (·.owner? = none) ((complete path module wrapper).run s).2.heap := by
  obtain ⟨pins, log, hc⟩ := complete_state path s module wrapper
  rw [hc]
  exact s.heap.grows_set _ _ _

end

theorem heap_of_resolve {request : Request} {answer : Except ModuleError ResolvedModule}
    (hr : (h.resolve request).run.run s = (answer, t)) : t.heap = s.heap := by
  rw [resolve_state hr]

theorem mode_of_scriptOf {format : ModuleFormat} {text code : String}
    (hf : h.scriptOf format text = some (code, mode)) : mode = .import ↔ format = .esm := by
  cases format with
  | json => cases hf
  | cjs =>
    cases hf
    simp
  | esm =>
    rw [scriptOf] at hf
    split at hf
    · cases hf
    · cases hf
      simp

theorem Step.grows (hs : h.Step c c') : c.state.heap.Grows c.MayMake c'.state.heap := by
  have hfree {heap heap' : Heap} (hg : heap.Grows (·.owner? = none) heap') :
      heap.Grows c.MayMake heap' := hg.imp fun _ hk => Moment.mayMake_of_none hk c
  have hsame {heap heap' : Heap} (he : heap' = heap) : heap.Grows c.MayMake heap' :=
    he ▸ .refl heap _
  cases hs
  case allocate s => exact hfree (s.heap.grows_allocateWith (P := (·.owner? = none)) rfl [])
  case set s => exact s.heap.grows_set _ _ _
  case parse code filename text ws s _ _ =>
    exact hfree (grows_evalJson ((HostM.record (.evaluated filename code)).run s).2 text)
  case jsonRan => exact hfree (grows_evalJson _ _)
  case aroundRan => exact hfree (grows_bodyFunction _ _ _)
  case completed => exact hfree (grows_complete _ _ _ _)
  case readScript path format text mode code module exports require ws s t hr hf hp =>
    refine (prepare_heap hp).1.imp fun kind hk => ?_
    rcases hk with hk | hk
    · exact Moment.mayMake_of_none hk _
    · intro p m ho
      rw [hk] at ho
      cases ho
      exact ⟨_, format, rfl, mode_of_scriptOf hf⟩
  case hostReturn => exact hsame (heap_returnAnswer _ _ _)
  case hostResolve =>
    refine hsame ?_
    rw [resolveDisplay_state]
    exact heap_of_resolve rfl
  case unresolved hr => exact hsame (heap_of_resolve hr)
  case entryUnresolved hr => exact hsame (heap_of_resolve hr)
  case resolved hr | entryLoad hr _ | entryEnter hr _ =>
    have he := heap_of_resolve hr
    exact hsame he
  case jsonCached => exact hsame (heap_cacheExports _ _ _)
  case notCompiled => exact hsame (heap_endLoading _ _)
  case threw => exact hsame (heap_endLoading _ _)
  all_goals exact .refl _ _

theorem grows_start (a : Action) (s : HostState) :
    s.heap.Grows (·.owner? = none) (h.start a s).state.heap := by
  have hsame {heap heap' : Heap} (he : heap' = heap) : heap.Grows (·.owner? = none) heap' :=
    he ▸ .refl heap _
  cases a
  case resolveImport specifier referrer => exact hsame (heap_of_resolve rfl)
  case esmSource path =>
    refine hsame ?_
    show ((h.esmSource path).run.run s).2.heap = s.heap
    rw [esmSource_state]
    rfl
  case installGlobals =>
    let function := s.heap.allocateWith (.host .requirePath) []
    exact (s.heap.grows_allocateWith (P := (·.owner? = none)) rfl []).trans
      (function.2.grows_set Heap.globalObject function.1 _)
  all_goals exact .refl _ _

theorem Next.grows (hn : h.Next c c') : c.state.heap.Grows c.MayMake c'.state.heap := by
  cases hn with
  | step hs => exact hs.grows
  | action hi a => exact (grows_start a c.state).imp fun _ hk => Moment.mayMake_of_none hk c

theorem Later.kind? (hl : h.Later c c') {f : Value} {kind : ObjectKind}
    (hk : c.state.heap.kind? f = some kind) : c'.state.heap.kind? f = some kind := by
  induction hl with
  | refl => exact hk
  | tail _ hn ih => exact hn.grows.old f kind ih

/-- Whether a file has a format in which its functions resolve in this mode. -/
def IsModeOf (h : Host) (packages : PackageCache) (mode : ResolveMode) (path : Path) : Prop :=
  ∃ format, h.resolver.Settles packages path format ∧ (mode = .import ↔ format = .esm)

theorem IsModeOf.mono {packages packages' : PackageCache} (hm : h.IsModeOf packages mode path)
    (he : packages.Extends packages') : h.IsModeOf packages' mode path := by
  obtain ⟨format, hs, hf⟩ := hm
  exact ⟨format, hs.mono he, hf⟩

/-- Every function of a module resolves in the mode of the module's format. -/
theorem Reaches.isModeOf {paths : List Path} (hc : h.Reaches paths c) {f : Value}
    {kind : ObjectKind} (hk : c.state.heap.kind? f = some kind)
    (ho : kind.owner? = some (path, mode)) : h.IsModeOf c.state.packages mode path := by
  induction hc generalizing kind with
  | initial =>
    rw [Heap.kind?_initial hk] at ho
    cases ho
  | next hc hn ih =>
    rcases hn.grows.new f kind hk with hk | hnew
    · exact (ih hk ho).mono hn.effect.2
    · obtain ⟨d, format, ht, hf⟩ := hnew path mode ho
      exact ⟨format, (hc.typed.read ht).mono hn.effect.2, hf⟩

/-! ## Calls -/

variable {d : Nat} {f receiver : Value} {arguments : List Value} {function : HostFunction}
  {text : String}

theorem callWithin_host (hk : s.heap.kind? f = some (.host function)) (ha : s.alive = true)
    (ht : arguments.head?.bind Value.string? = some text) :
    (h.callWithin (d + 1) f receiver arguments).run s =
      ((h.functionLoad (h.callWithin d) text function).run >>=
        returnAnswer (functionReferrer text function)).run s := by
  rw [callWithin_succ, hk]
  dsimp only
  rw [HostM.run_bind, callHostFunction_run, if_pos ha, ht]
  dsimp only
  rw [applyFunction_eq]
  rfl

theorem callWithin_host_ok {v : Value} (hk : s.heap.kind? f = some (.host function))
    (ha : s.alive = true) (ht : arguments.head?.bind Value.string? = some text)
    (hr : (h.functionLoad (h.callWithin d) text function).run.run s = (.ok v, t))
    (hp : t.pending = none) : (h.callWithin (d + 1) f receiver arguments).run s = (some v, t) := by
  have hreturn : (returnAnswer (functionReferrer text function) (.ok v)).run t =
      (if t.pending.isSome = true then none else some v, t) := rfl
  rw [callWithin_host hk ha ht, HostM.run_bind, hr, hreturn, hp]
  rfl

theorem callWithin_host_error {e : ModuleError} (hk : s.heap.kind? f = some (.host function))
    (ha : s.alive = true) (ht : arguments.head?.bind Value.string? = some text)
    (hr : (h.functionLoad (h.callWithin d) text function).run.run s = (.error e, t))
    (he : e.isPending = false) : (h.callWithin (d + 1) f receiver arguments).run s =
      (none, { t with
        pending := some e.message
        events := .thrown e.message :: t.events
        log := .failed (functionReferrer text function) e :: t.log }) := by
  have hreturn : (returnAnswer (functionReferrer text function) (.error e)).run t =
      (fail (functionReferrer text function) e >>= unlessPending).run t := rfl
  rw [callWithin_host hk ha ht, HostM.run_bind, hr, hreturn, fail, he]
  rfl

theorem callWithin_gone (hk : s.heap.kind? f = some (.host function)) (ha : s.alive = false) :
    (h.callWithin (d + 1) f receiver arguments).run s =
      (none, { s with
        pending := some "module system is no longer available"
        events := .thrown "module system is no longer available" :: s.events }) := by
  rw [callWithin_succ, hk]
  dsimp only
  rw [HostM.run_bind, callHostFunction_run, if_neg (by rw [ha]; nofun)]
  rfl

end Host

end ModuleLoader
