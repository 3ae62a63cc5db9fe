import ModuleLoader.Proofs.Resolve.Tries

/-! Traces that explain answers. The trace of a request starts with the specifier and ends, if there is
an answer, with the answer, and what it has tried are the first candidates of the request. -/

namespace ModuleLoader.Resolver

open Search

variable (r : Resolver Id)

/-! ## Files of bundles -/

section Files

variable {r} (packages : PackageCache)

/-- A file of a bundle is taken without trying any path, but not without a warning. -/
theorem finds_namedFile (message : String) (path : Path) :
    Finds packages (warn TraceWarning.bundleBarePath message >>= fun _ => pure path) [] [] := by
  refine ⟨.ok path, packages, ?_⟩
  rintro s rfl
  have hwarn := Observer.plain.search_modify s () fun s =>
    { s with trace := s.trace.addWarning TraceWarning.bundleBarePath message }
  refine ⟨_, (Observer.plain.search_bind_of_ok s () hwarn).trans
    (Observer.plain.search_pure _ () path), rfl, .addWarning _ _ _, fun _ _ => .inr ?_⟩
  simp [Trace.hasWarning, Trace.addWarning]

end Files

/-! ## Imports -/

section Imports

variable {r} {packages : PackageCache} (hI : packages.Rooted)
include hI

/-- A target that is no path is the name of a package, looked up from the directory of the owner. -/
theorem finds_importTarget (owner : PackageDescriptor) (target specifier : String)
    (mode : ResolveMode) :
    Finds packages
      (if Target.isPathTarget target then
        r.resolvePackageFile owner.root target specifier specifier
      else do
        note {
          step := TraceStep.resolveHashImport, ok := true, detail := "bare target " ++ target }
        r.resolveBare target owner.root mode)
      (TraceStep.resolveHashImport :: bareSteps)
      (if Target.isPathTarget target then r.targetTries owner.root target
      else r.bareTries packages target owner.root mode) := by
  split
  · exact (finds_resolvePackageFile packages owner.root target specifier specifier).mono (by decide)
  · exact (finds_resolveBare packages hI target owner.root mode).afterNote _

theorem finds_resolveImports {owner : PackageDescriptor} {tree : Json}
    (howner : owner.imports = some tree) (specifier : String) (mode : ResolveMode) :
    Finds packages (r.resolveImports owner tree specifier mode) importSteps
      (r.importTries packages owner specifier mode) := by
  unfold resolveImports selectTarget importTries
  rw [howner, Option.map_some]
  cases Target.select mode.conditions .imports specifier tree with
  | error error =>
    exact (finds_of_error ((tries_throw _ packages).bind_error _)).mono (List.nil_sublist _)
  | ok found =>
    have hselect := tries_pure found packages
    cases found with
    | none =>
      exact (finds_bind hselect ((finds_throw _ packages).afterNote _)).mono (by simp [importSteps])
    | some found =>
      exact finds_bind hselect ((finds_importTarget hI owner found.target specifier mode).afterNote _)

theorem finds_ownerImports (owner : PackageDescriptor) (specifier : String) (mode : ResolveMode) :
    Finds packages
      (match owner.imports with
        | none => throw (.importNotDefined specifier owner.manifest)
        | some imports => r.resolveImports owner imports specifier mode)
      importSteps (r.importTries packages owner specifier mode) := by
  cases hi : owner.imports with
  | none =>
    have htries : r.importTries packages owner specifier mode = [] := by simp [importTries, hi]
    rw [htries]
    exact (finds_throw _ packages).mono (List.nil_sublist _)
  | some tree => exact finds_resolveImports hI hi specifier mode

theorem finds_resolveHashImport (specifier : String) (base : Path) (mode : ResolveMode) :
    Finds packages (r.resolveHashImport specifier base mode)
      (TraceStep.findPackageJson :: importSteps) (r.hashTries packages specifier base mode) := by
  obtain ⟨hI', nearest, hsearch⟩ := tries_findImportsOwner (r := r) packages base.ancestors hI none
  unfold resolveHashImport hashTries
  cases ho : r.importsOwner packages base.ancestors with
  | mk owner packages' =>
    rw [ho] at hI' hsearch
    cases owner with
    | none => exact (finds_bind hsearch ((finds_throw _ packages').afterNote _)).mono (by simp)
    | some owner =>
      have himports := finds_ownerImports (r := r) hI' owner specifier mode
      exact finds_bind hsearch (himports.afterNote _)

/-! ## Specifiers -/

theorem finds_resolvePathSpecifier (kind : SpecifierKind) (specifier : String) (base : Path)
    (mode : ResolveMode) :
    Finds packages (r.resolvePathSpecifier kind specifier base mode)
      (TraceStep.resolvePath :: pathSteps)
      (match r.normalize? (pathOf kind specifier base) with
      | none => []
      | some target => r.pathTries mode target (packages.lookup r.source target).main?) := by
  unfold resolvePathSpecifier
  cases r.normalize? (pathOf kind specifier base) with
  | none => exact (finds_throw _ packages).mono (List.nil_sublist _)
  | some target => exact (finds_resolvePath hI mode target specifier base).afterNote _

theorem finds_resolveName (specifier : String) (base : Path) (mode : ResolveMode) :
    Finds packages (r.resolveName specifier base mode) bareSteps
      (match r.namedFile? specifier base with
      | some _ => []
      | none => r.bareTries packages specifier base mode) := by
  have hbundle := r.tries_bundleFileFor packages specifier base
  unfold resolveName
  cases hf : r.namedFile? specifier base with
  | some path =>
    rw [hf] at hbundle
    exact (finds_bind hbundle (finds_namedFile packages _ path)).mono (List.nil_sublist _)
  | none =>
    rw [hf] at hbundle
    exact finds_bind hbundle (finds_resolveBare packages hI specifier base mode)

theorem finds_resolveKind (kind : SpecifierKind) (specifier : String) (base : Path)
    (mode : ResolveMode) :
    Finds packages (r.resolveKind kind specifier base mode) searchSteps
      (r.kindTries packages kind specifier base mode) := by
  unfold resolveKind kindTries
  split
  · exact (finds_resolveHashImport hI specifier base mode).mono (by decide)
  · split
    · exact (finds_resolveBare packages hI specifier base mode).mono (by decide)
    · split
      · exact (finds_resolvePathSpecifier hI kind specifier base mode).mono (by decide)
      · exact (finds_resolveName hI specifier base mode).mono (by decide)

end Imports

/-! ## Requests -/

/-- The step that every trace starts with. -/
def specifierStep (request : Request) : TraceStep where
  step := TraceStep.parseSpecifier
  ok := true
  detail := Specifier.normalize request.specifier ++ " (" ++ request.mode.toString ++ ")"
  notes := [(Specifier.kind request.specifier).toString]

def formatStep (path : Path) (format : ModuleFormat) : TraceStep where
  step := TraceStep.detectFormat
  ok := true
  detail := format.toString
  path := some path

def answerStep (path : Path) : TraceStep where
  step := TraceStep.finalPath
  ok := true
  detail := "resolved"
  path := some path

/-- What is left to do with a file that was found. -/
def finish (path : Path) : Search Id ResolvedModule := do
  let format ← withPackages (r.detectFormat path)
  note (formatStep path format)
  note (answerStep path)
  return ⟨path, r.source.kind, format⟩

theorem search_eq {request : Request} (hne : request.specifier ≠ "") :
    r.search request = (do
      note (specifierStep request)
      let path ← r.fileSearch request
      r.finish path) := by
  unfold search
  rw [if_neg hne]
  rfl

theorem search_finish (path : Path) (s : SearchState) :
    ∃ format packages, Observer.plain.search (r.finish path) s () =
      ((.ok ⟨path, r.source.kind, format⟩,
        ⟨packages, (s.trace.addStep (formatStep path format)).addStep (answerStep path)⟩), ()) := by
  have hformat := Observer.plain.search_withPackages s () (r.detectFormat path)
  refine ⟨((r.detectFormat path).run s.packages).1, ((r.detectFormat path).run s.packages).2,
    (Observer.plain.search_bind_of_ok s () hformat).trans ?_⟩
  rw [Observer.plain.search_bind_of_ok _ () (Observer.plain.search_note _ _ ()),
    Observer.plain.search_bind_of_ok _ () (Observer.plain.search_note _ _ ())]
  exact Observer.plain.search_pure _ () _

theorem search_of_empty {request : Request} (hne : request.specifier = "") (s : SearchState) :
    ∃ step, step.step = TraceStep.parseSpecifier ∧
      Observer.plain.search (r.search request) s () =
        ((.error .emptySpecifier, { s with trace := s.trace.addStep step }), ()) := by
  unfold search
  rw [if_pos hne]
  exact ⟨_, rfl, (Observer.plain.search_bind_of_ok s () (Observer.plain.search_note _ s ())).trans
    (Observer.plain.search_throw _ () _)⟩

/-- How the trace of a request comes about: the specifier, the search for the file, and the answer if
a file was found. -/
theorem exists_search_eq {packages : PackageCache} (hI : packages.Rooted) (request : Request) :
    ∃ first t, first.step = TraceStep.parseSpecifier ∧
      (Trace.empty.addStep first).Continues searchSteps (r.tries packages request) t ∧
      ((∃ e packages', Observer.plain.search (r.search request) ⟨packages, Trace.empty⟩ () =
          ((.error e, ⟨packages', t⟩), ())) ∨
        ∃ path format packages', Observer.plain.search (r.search request) ⟨packages, Trace.empty⟩ () =
            ((.ok ⟨path, r.source.kind, format⟩,
              ⟨packages', (t.addStep (formatStep path format)).addStep (answerStep path)⟩), ()) ∧
          (path ∈ r.tries packages request ∨
            t.hasWarning TraceWarning.bundleBarePath = true)) := by
  by_cases hne : request.specifier = ""
  · obtain ⟨step, hstep, hs⟩ := r.search_of_empty hne ⟨packages, Trace.empty⟩
    have htries : r.tries packages request = [] := if_pos hne
    rw [htries]
    exact ⟨step, _, hstep, (Trace.Continues.refl _).mono (List.nil_sublist _), .inl ⟨_, _, hs⟩⟩
  · obtain ⟨outcome, packages', hfinds⟩ := finds_resolveKind (r := r) hI
      (Specifier.kind request.specifier) (Specifier.normalize request.specifier)
      (r.baseDirectory request.referrer) request.mode
    have htries : r.tries packages request = r.kindTries packages
        (Specifier.kind request.specifier) (Specifier.normalize request.specifier)
        (r.baseDirectory request.referrer) request.mode := if_neg hne
    obtain ⟨t, ht, -, hst, hm⟩ :=
      hfinds ⟨packages, Trace.empty.addStep (specifierStep request)⟩ rfl
    have hnote := Observer.plain.search_note (specifierStep request) ⟨packages, Trace.empty⟩ ()
    rw [htries, r.search_eq hne]
    refine ⟨specifierStep request, t.trace, rfl, hst, ?_⟩
    cases outcome with
    | error e =>
      refine .inl ⟨e, t.packages, (Observer.plain.search_bind_of_ok _ () hnote).trans ?_⟩
      exact Observer.plain.search_bind_of_error _ () ht
    | ok path =>
      obtain ⟨format, packages'', hfinish⟩ := r.search_finish path t
      refine .inr ⟨path, format, packages'', ?_, hm path rfl⟩
      exact (Observer.plain.search_bind_of_ok _ () hnote).trans
        ((Observer.plain.search_bind_of_ok _ () ht).trans hfinish)

theorem resolveTraced_eq {packages packages' : PackageCache} {request : Request}
    {answer : Except ResolveError ResolvedModule} {t : Trace}
    (h : Observer.plain.search (r.search request) ⟨packages, Trace.empty⟩ () =
      ((answer, ⟨packages', t⟩), ())) :
    (r.resolveTraced request).run packages = ((answer, t), packages') := by
  have hrun : (ExceptT.run (r.search request)).run ⟨packages, Trace.empty⟩ =
      (answer, ⟨packages', t⟩) := congrArg Prod.fst h
  have htraced : (r.resolveTraced request).run packages =
      ((fun out : Except ResolveError ResolvedModule × SearchState =>
        ((out.1, out.2.trace), out.2.packages))
      ((ExceptT.run (r.search request)).run ⟨packages, Trace.empty⟩)) := rfl
  rw [htraced, hrun]

/-- The names of all steps of a trace: the specifier, those of the search, and those of the answer. -/
theorem exists_stepNames {packages : PackageCache} (hI : packages.Rooted) (request : Request) :
    ∃ between ending, between.Sublist searchSteps ∧
      (ending = [] ∨ ending = [TraceStep.detectFormat, TraceStep.finalPath]) ∧
      ((r.resolveTraced request).run packages).1.2.steps.map TraceStep.step =
        TraceStep.parseSpecifier :: between ++ ending := by
  obtain ⟨first, t, hfirst, hcontinues, hs⟩ := r.exists_search_eq hI request
  obtain ⟨added, hsteps, hnames⟩ := hcontinues.steps
  have hsteps' : t.steps = first :: added := hsteps
  obtain ⟨e, packages', hs⟩ | ⟨path, format, packages', hs, -⟩ := hs
  · refine ⟨added.map TraceStep.step, [], hnames, .inl rfl, ?_⟩
    rw [r.resolveTraced_eq hs, hsteps', List.map_cons, hfirst, List.append_nil]
  · refine ⟨added.map TraceStep.step, _, hnames, .inr rfl, ?_⟩
    rw [r.resolveTraced_eq hs]
    simp [Trace.addStep, hsteps', hfirst, formatStep, answerStep]

/-- A candidate is recorded unless the record is full. -/
theorem mem_take_or_length_take {paths : List Path} {path : Path} (h : path ∈ paths) (n : Nat) :
    path ∈ paths.take n ∨ (paths.take n).length = n := by
  by_cases hn : n ≤ paths.length
  · exact .inr (List.length_take_of_le hn)
  · rw [List.take_of_length_le (by omega)]
    exact .inl h

/-- The trace explains the answer: it has tried the first twenty candidates of the request, and where
there is an answer, it begins with the specifier, ends with the answer, and has tried this too unless
there were too many candidates or a file of a bundle was taken by its name. -/
theorem trace_explains_answer (history : List Query) (request : Request) :
    let packages := PackageCache.after r history
    let out := (r.resolveTraced request).run packages
    let answer := out.1.1
    let trace := out.1.2
    (r.resolve request).run packages = (answer, out.2) ∧
      trace.tried.length ≤ 20 ∧ trace.tried = (r.tries packages request).take 20 ∧
      match answer with
      | .ok found => ∃ first between format last,
          trace.steps = first :: between ++ [format, last] ∧
          first.step = TraceStep.parseSpecifier ∧
          (format.step = TraceStep.detectFormat ∧ format.ok = true ∧
            format.path = some found.path) ∧
          (last.step = TraceStep.finalPath ∧ last.ok = true ∧ last.path = some found.path) ∧
          (found.path ∈ trace.tried ∨ trace.tried.length = 20 ∨
            trace.hasWarning TraceWarning.bundleBarePath = true)
      | .error _ => ∀ step ∈ trace.steps, step.step ≠ TraceStep.finalPath := by
  intro packages out answer trace
  have hI : packages.Rooted := r.rooted_replay Observer.plain history ()
  obtain ⟨first, t, hfirst, hcontinues, hs⟩ := r.exists_search_eq hI request
  obtain ⟨between, hsteps, hnames⟩ := hcontinues.steps
  have hsteps' : t.steps = first :: between := hsteps
  have htried : t.tried = (r.tries packages request).take 20 := hcontinues.tried
  have hlength : t.tried.length ≤ 20 := by
    rw [htried]
    exact List.length_take_le 20 _
  refine ⟨rfl, ?_⟩
  obtain ⟨e, packages', hs⟩ | ⟨path, format, packages', hs, hm⟩ := hs
  · have hout : out = _ := r.resolveTraced_eq hs
    have hanswer : answer = .error e := congrArg (fun out => out.1.1) hout
    have htrace : trace = t := congrArg (fun out => out.1.2) hout
    rw [hanswer, htrace]
    refine ⟨hlength, htried, fun step hstep => ?_⟩
    rw [hsteps'] at hstep
    rcases List.mem_cons.mp hstep with rfl | hstep
    · rw [hfirst]
      decide
    · intro hname
      have hmem := hnames.subset (List.mem_map_of_mem hstep)
      rw [hname] at hmem
      exact absurd hmem (by decide)
  · have hout : out = _ := r.resolveTraced_eq hs
    have hanswer : answer = .ok ⟨path, r.source.kind, format⟩ :=
      congrArg (fun out => out.1.1) hout
    have htrace : trace = (t.addStep (formatStep path format)).addStep (answerStep path) :=
      congrArg (fun out => out.1.2) hout
    rw [hanswer, htrace]
    refine ⟨hlength, htried, first, between, formatStep path format, answerStep path, ?_, hfirst,
      ⟨rfl, rfl, rfl⟩, ⟨rfl, rfl, rfl⟩, ?_⟩
    · simp [Trace.addStep, hsteps']
    · rcases hm with hm | hwarned
      · have hrecorded := mem_take_or_length_take hm 20
        rw [← htried] at hrecorded
        exact hrecorded.imp_right .inl
      · exact .inr (.inr hwarned)

end ModuleLoader.Resolver
