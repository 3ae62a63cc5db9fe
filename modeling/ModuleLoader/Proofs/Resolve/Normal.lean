import ModuleLoader.Proofs.Path.Normal

/-! The paths that a resolver's normalization leaves alone. On a filesystem they are absolute, in a
bundle they are relative and have no backslash, and in both they go down name by name. -/

namespace ModuleLoader

open ModuleLoader.Path Text

theorem Path.isStep_of_mem_tail {p : Path} {c : Component} (h : c ∈ p.components.tail) :
    c.isStep = true := by
  obtain ⟨first, rest, hs⟩ := p.exists_segments_eq_cons
  rw [components_eq hs] at h
  cases hf : firstComponent? first rest.isEmpty with
  | none =>
    rw [hf] at h
    exact isStep_of_mem_filterMap (List.mem_of_mem_tail (by simpa using h))
  | some lead =>
    rw [hf] at h
    exact isStep_of_mem_filterMap (by simpa using h)

theorem Path.exists_eq_map_name {components : List Component}
    (h : ∀ c ∈ components, ∃ text, c = .name text) : ∃ names : List String, components = names.map .name := by
  induction components with
  | nil => exact ⟨[], rfl⟩
  | cons c rest ih =>
    obtain ⟨text, rfl⟩ := h c List.mem_cons_self
    obtain ⟨names, rfl⟩ := ih fun c hc => h c (List.mem_cons_of_mem _ hc)
    exact ⟨text :: names, rfl⟩

namespace StorageKind

/-- Whether a path is written from the root of its source, without detours. -/
structure IsNormal (kind : StorageKind) (p : Path) : Prop where
  isAbsolute_iff : p.isAbsolute = true ↔ kind = .filesystem
  not_here : .here ∉ p.components
  not_up : .up ∉ p.components
  no_backslash : kind = .bundle → ∀ text, .name text ∈ p.components → '\\' ∉ text.toList

/-- Whether a name may stand in a normal path. A bundle takes a backslash for a slash. -/
def Admits (kind : StorageKind) (text : String) : Prop := kind = .bundle → '\\' ∉ text.toList

/-- The components that normal paths start with. -/
def start : StorageKind → List Component
  | .filesystem => [.root]
  | .bundle => []

variable {kind : StorageKind} {p : Path}

theorem isNormal_iff : kind.IsNormal p ↔
    ∃ names : List String, p.components = kind.start ++ names.map .name ∧
      ∀ name ∈ names, kind.Admits name := by
  constructor
  · intro h
    -- Past the first component there are steps only, and none of them goes up.
    have htail : ∀ c ∈ p.components.tail, ∃ text, c = .name text := by
      intro c hc
      have hm := List.mem_of_mem_tail hc
      have hs := isStep_of_mem_tail hc
      cases c with
      | root => simp [Component.isStep] at hs
      | here => simp [Component.isStep] at hs
      | up => exact absurd hm h.not_up
      | name text => exact ⟨text, rfl⟩
    obtain ⟨names, hnames⟩ : ∃ names : List String, p.components = kind.start ++ names.map .name := by
      have habs := h.isAbsolute_iff
      rw [isAbsolute_eq] at habs
      cases hc : p.components with
      | nil =>
        have hb : kind ≠ .filesystem := by simpa [hc] using habs
        cases kind with
        | filesystem => exact absurd rfl hb
        | bundle => exact ⟨[], rfl⟩
      | cons lead rest =>
        rw [hc] at htail
        obtain ⟨names, hrest⟩ := exists_eq_map_name htail
        rw [List.tail_cons] at hrest
        cases kind with
        | filesystem =>
          have hl : lead = .root := by simpa [hc] using habs
          exact ⟨names, by rw [hl, hrest]; rfl⟩
        | bundle =>
          have hl : lead ≠ .root := by simpa [hc] using habs
          have hm : lead ∈ p.components := by simp [hc]
          cases lead with
          | root => exact absurd rfl hl
          | here => exact absurd hm h.not_here
          | up => exact absurd hm h.not_up
          | name text => exact ⟨text :: names, by rw [hrest]; rfl⟩
    refine ⟨names, hnames, fun name hm hk => h.no_backslash hk name ?_⟩
    rw [hnames]
    exact List.mem_append_right _ (List.mem_map_of_mem hm)
  · rintro ⟨names, hnames, hadmits⟩
    have hmem : ∀ c ∈ p.components, c = .root ∨ ∃ name ∈ names, c = .name name := by
      intro c hc
      rw [hnames] at hc
      rcases List.mem_append.mp hc with hc | hc
      · cases kind <;> simp_all [start]
      · obtain ⟨name, hm, rfl⟩ := List.mem_map.mp hc
        exact .inr ⟨name, hm, rfl⟩
    refine ⟨?_, fun hm => ?_, fun hm => ?_, fun hk text hm => ?_⟩
    · rw [isAbsolute_eq, hnames]
      cases kind with
      | filesystem => simp [start]
      | bundle => cases names <;> simp [start]
    · simpa using hmem _ hm
    · simpa using hmem _ hm
    · have hn : text ∈ names := by simpa using hmem _ hm
      exact hadmits text hn hk

theorem IsNormal.congr {q : Path} (h : kind.IsNormal p) (hc : p.components = q.components) :
    kind.IsNormal q := by
  obtain ⟨names, hnames, hadmits⟩ := isNormal_iff.mp h
  exact isNormal_iff.mpr ⟨names, hc.symm.trans hnames, hadmits⟩

theorem IsNormal.isName (h : kind.IsNormal p) {names : List String}
    (hc : p.components = kind.start ++ names.map .name) :
    ∀ name ∈ names, IsName name ∧ kind.Admits name := by
  intro name hm
  have hp : Component.name name ∈ p.components := by
    rw [hc]
    exact List.mem_append_right _ (List.mem_map_of_mem hm)
  exact ⟨isName_of_mem_components hp, fun hk => h.no_backslash hk name hp⟩

end StorageKind

theorem Path.inner_of_components_eq (kind : StorageKind) {p : Path} {names : List String}
    (hc : p.components = kind.start ++ names.map .name) : p.inner = names.map .name := by
  have hstart : kind.start.filter Component.isStep = [] := by
    cases kind <;> rfl
  have hstep : (names.map Component.name).filter Component.isStep = names.map .name :=
    List.filter_eq_self.mpr fun c hm => by
      obtain ⟨name, -, rfl⟩ := List.mem_map.mp hm
      rfl
  rw [inner_eq, hc, List.filter_append, hstart, hstep, List.nil_append]

/-! ## Normalization by a resolver -/

namespace Bundle

theorem unfoldBackslashes_name {text : String} (h : IsName text) (hb : '\\' ∉ text.toList) :
    unfoldBackslashes (.name text) = [.name text] := by
  have hs : text.toList.splitOn '\\' = [text.toList] := List.splitOn_eq_singleton hb
  rw [unfoldBackslashes, hs, List.filterMap_cons, h.2]
  rfl

theorem flatMap_unfoldBackslashes {names : List String}
    (h : ∀ name ∈ names, IsName name ∧ '\\' ∉ name.toList) :
    (names.map Component.name).flatMap unfoldBackslashes = names.map .name := by
  have hu : ∀ name ∈ names, unfoldBackslashes (.name name) = [.name name] :=
    fun name hm => unfoldBackslashes_name (h name hm).1 (h name hm).2
  rw [List.flatMap_map, List.flatMap_congr hu, List.map_eq_flatMap]

/-- A normal path is canonical already, up to spelling. -/
theorem canonical?_of_isNormal {p : Path} (h : StorageKind.bundle.IsNormal p)
    {names : List String} (hc : p.components = names.map .name) :
    canonical? p = some (ofNames false names) := by
  have hnames := h.isName hc
  have hinner : p.inner = names.map .name := inner_of_components_eq .bundle hc
  have hunfold := flatMap_unfoldBackslashes fun name hm => ⟨(hnames name hm).1, (hnames name hm).2 rfl⟩
  rw [canonical?_eq, ← inner_eq, hinner, hunfold, settle_map_name]
  rfl

theorem isName_of_mem_unfoldBackslashes {c : Component} {text : String}
    (hc : ∀ whole, c = .name whole → IsName whole) (h : .name text ∈ unfoldBackslashes c) :
    IsName text ∧ '\\' ∉ text.toList := by
  cases c with
  | root => simp [unfoldBackslashes] at h
  | here => simp [unfoldBackslashes] at h
  | up => simp [unfoldBackslashes] at h
  | name whole =>
    obtain ⟨piece, hm, hp⟩ := List.mem_filterMap.mp h
    have hslash : '/' ∉ piece := fun hin =>
      (hc whole rfl).1 ((infix_of_mem_splitOn hm).subset hin)
    have he := innerComponent?_eq_some_name hp
    refine ⟨isName_of_innerComponent? hslash hp, ?_⟩
    rw [← he]
    exact notMem_of_mem_splitOn hm

end Bundle

namespace Resolver

variable {m : Type → Type} (r : Resolver m)

/-- What normalization settles. A relative path of a filesystem starts at the working directory. -/
def steps (p : Path) : List Component :=
  match r.source.kind with
  | .filesystem => (absolutize r.workingDirectory p).inner
  | .bundle => p.inner.flatMap Bundle.unfoldBackslashes

def isRooted (p : Path) : Bool :=
  match r.source.kind with
  | .filesystem => (absolutize r.workingDirectory p).isAbsolute
  | .bundle => false

theorem normalize?_eq (p : Path) :
    r.normalize? p = (settle (r.isRooted p) (r.steps p) []).map (ofNames (r.isRooted p)) := by
  unfold Resolver.normalize? steps isRooted
  cases r.source.kind with
  | filesystem => exact Path.normalize?_eq _
  | bundle =>
    dsimp only
    rw [inner_eq]
    exact Bundle.canonical?_eq p

theorem isName_of_mem_steps {p : Path} {text : String} (h : .name text ∈ r.steps p) :
    IsName text ∧ r.source.kind.Admits text := by
  unfold steps at h
  unfold StorageKind.Admits
  cases hk : r.source.kind with
  | filesystem =>
    rw [hk] at h
    exact ⟨isName_of_mem_inner h, by simp⟩
  | bundle =>
    rw [hk] at h
    obtain ⟨c, hc, ht⟩ := List.mem_flatMap.mp h
    have hu := Bundle.isName_of_mem_unfoldBackslashes
      (fun whole he => isName_of_mem_inner (he ▸ hc)) ht
    exact ⟨hu.1, fun _ => hu.2⟩

/-- A filesystem needs to know which directory relative paths start from. -/
def IsAnchored : Prop := r.source.kind = .filesystem → r.workingDirectory.isAbsolute = true

variable {r} {p q : Path}

theorem IsAnchored.isRooted_eq (hr : r.IsAnchored) (p : Path) :
    (if r.isRooted p = true then [Component.root] else []) = r.source.kind.start := by
  unfold isRooted
  cases hk : r.source.kind with
  | bundle => rfl
  | filesystem =>
    have hd : r.workingDirectory.isAbsolute = true := hr hk
    have ha : (absolutize r.workingDirectory p).isAbsolute = true := by
      unfold absolutize
      by_cases hp : p.isAbsolute = true
      · simp [hp]
      · have hp' : p.isAbsolute = false := by simpa using hp
        simp [hp', isAbsolute_join_of_relative hp', hd]
    simp [ha, StorageKind.start]

theorem isName_of_settle_steps {rooted : Bool} {names : List String}
    (h : settle rooted (r.steps p) [] = some names) :
    ∀ name ∈ names, IsName name ∧ r.source.kind.Admits name := by
  intro name hm
  rcases mem_of_settle_eq_some h hm with hk | hc
  · simp at hk
  · exact r.isName_of_mem_steps hc

theorem exists_names_of_normalize? (hr : r.IsAnchored) (h : r.normalize? p = some q) :
    ∃ names, q = ofNames (r.isRooted p) names ∧ q.components = r.source.kind.start ++ names.map .name ∧
      ∀ name ∈ names, IsName name ∧ r.source.kind.Admits name := by
  rw [r.normalize?_eq] at h
  obtain ⟨names, hs, rfl⟩ := Option.map_eq_some_iff.mp h
  have hnames := isName_of_settle_steps hs
  refine ⟨names, rfl, ?_, hnames⟩
  rw [components_ofNames _ fun name hm => (hnames name hm).1, hr.isRooted_eq]

theorem isNormal_of_normalize? (hr : r.IsAnchored) (h : r.normalize? p = some q) :
    r.source.kind.IsNormal q := by
  obtain ⟨names, -, hc, hn⟩ := exists_names_of_normalize? hr h
  exact StorageKind.isNormal_iff.mpr ⟨names, hc, fun name hm => (hn name hm).2⟩

theorem steps_of_isNormal (h : r.source.kind.IsNormal p) {names : List String}
    (hc : p.components = r.source.kind.start ++ names.map .name) : r.steps p = names.map .name := by
  have hnames := h.isName hc
  have hinner : p.inner = names.map .name := inner_of_components_eq _ hc
  unfold steps
  cases hk : r.source.kind with
  | filesystem =>
    have ha : p.isAbsolute = true := h.isAbsolute_iff.mpr hk
    simpa [absolutize, ha] using hinner
  | bundle =>
    dsimp only
    rw [hinner]
    exact Bundle.flatMap_unfoldBackslashes fun name hm => ⟨(hnames name hm).1, (hnames name hm).2 hk⟩

theorem normalize?_of_isNormal (h : r.source.kind.IsNormal p) {names : List String}
    (hc : p.components = r.source.kind.start ++ names.map .name) :
    r.normalize? p = some (ofNames (r.isRooted p) names) := by
  rw [r.normalize?_eq, steps_of_isNormal h hc, settle_map_name]
  rfl

/-- The normal paths are those that normalization leaves alone, up to spelling. -/
theorem map_components_normalize?_eq_iff (hr : r.IsAnchored) :
    (r.normalize? p).map components = some p.components ↔ r.source.kind.IsNormal p := by
  constructor
  · intro h
    obtain ⟨q, hq, hc⟩ := Option.map_eq_some_iff.mp h
    exact (isNormal_of_normalize? hr hq).congr hc
  · intro h
    obtain ⟨names, hc, -⟩ := StorageKind.isNormal_iff.mp h
    have hnames : ∀ name ∈ names, IsName name := fun name hm => (h.isName hc name hm).1
    rw [normalize?_of_isNormal h hc, Option.map_some, components_ofNames _ hnames, hr.isRooted_eq, hc]

end Resolver

end ModuleLoader
