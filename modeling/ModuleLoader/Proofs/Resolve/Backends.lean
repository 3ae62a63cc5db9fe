import ModuleLoader.Proofs.Resolve.Portable

/-! The two kinds of storage. Over files that both keep alike, a bundle and a filesystem resolve
relative specifiers to the same files: the paths of one are those of the other, seen from the root. -/

namespace ModuleLoader

open ModuleLoader.Path Text Likeness

/-- Whether `q` is the path of `p` from the root. -/
def Path.Mirrored (p q : Path) : Prop :=
  ∃ names, ArePlain names ∧ p = ofNames false names ∧ q = ofNames true names

theorem Path.Mirrored.eq {p q : Path} (h : Mirrored p q) : q = ⟨"/" ++ p.text⟩ := by
  obtain ⟨names, -, rfl, rfl⟩ := h
  simp [ofNames]

/-- Whether a cache has lookups along paths of plain names only, and all of them right. -/
def PackageCache.Mirrors (rooted : Bool) (source : FileSource Id) (packages : PackageCache) : Prop :=
  ∀ entry ∈ packages.lookups.entries, (∃ names, ArePlain names ∧ entry.1 = ofNames rooted names) ∧
    entry.2 = PackageLookup.read source entry.1

theorem PackageCache.Mirrors.empty (rooted : Bool) (source : FileSource Id) :
    PackageCache.empty.Mirrors rooted source := fun _ h => absurd h List.not_mem_nil

theorem PackageCache.Mirrors.load {rooted : Bool} {source : FileSource Id} {packages : PackageCache}
    (h : packages.Mirrors rooted source) {names : List String} (hn : ArePlain names) :
    (Observer.plain.look (PackageCache.load source (ofNames rooted names)) packages ()).1.1 =
        PackageLookup.read source (ofNames rooted names) ∧
      (Observer.plain.look (PackageCache.load source (ofNames rooted names)) packages ()).1.2.Mirrors
        rooted source := by
  cases hf : packages.find? (ofNames rooted names) with
  | some found =>
    rw [load_of_eq_some _ _ hf]
    obtain ⟨q, hm, hq⟩ := PathMap.exists_mem_of_find?_eq_some hf
    obtain ⟨⟨other, ho, rfl⟩, hread⟩ : (∃ other, ArePlain other ∧ q = ofNames rooted other) ∧
        found = PackageLookup.read source q := h _ hm
    obtain rfl := eq_of_components_ofNames ho.isName hn.isName hq
    exact ⟨hread, h⟩
  | none =>
    rw [load_of_eq_none _ _ hf]
    refine ⟨rfl, fun entry hm => ?_⟩
    rcases List.mem_append.mp hm with hm | hm
    · exact h entry hm
    · obtain rfl : entry =
          (ofNames rooted names, PackageLookup.read source (ofNames rooted names)) :=
        List.mem_singleton.mp hm
      exact ⟨⟨names, hn, rfl⟩, rfl⟩

/-- Paths go together that are the same from the root. Errors are not told apart. -/
def Likeness.backends (bundle source : FileSource Id) : Likeness Unit Unit where
  path := Mirrored
  exact := Mirrored
  error _ _ := True
  state packages _ packages' _ := packages.Mirrors false bundle ∧ packages'.Mirrors true source
  known d := ∀ main, d.main = some main →
    '\\' ∉ main.toList ∧ (d.root.joinText main).staysBelow = true

/-! ## Paths -/

namespace Path.ArePlain

variable {names : List String}

theorem mirrored (h : ArePlain names) : Mirrored (ofNames false names) (ofNames true names) :=
  ⟨names, h, rfl, rfl⟩

theorem append (h : ArePlain names) {ext : String} (hs : '/' ∉ ext.toList)
    (hb : '\\' ∉ ext.toList) (hl : 2 < ext.toList.length) :
    ∃ longer, ArePlain longer ∧
      ∀ rooted, (ofNames rooted names).append ext = ofNames rooted longer := by
  cases names using List.reverseRecOn with
  | nil =>
    refine ⟨[ext], h.concat (isName_of_length hs hl) hb, fun rooted => ?_⟩
    simp [ofNames, Path.append]
  | append_singleton names last =>
    obtain ⟨hlast, hbl⟩ := h last (by simp)
    have hname : IsName (last ++ ext) := by
      refine isName_of_length (by simp [hlast.1, hs]) ?_
      simp only [String.toList_append, List.length_append]
      omega
    exact ⟨names ++ [last ++ ext],
      (h.upTo (List.prefix_append _ _)).concat hname (by simp [hbl, hb]),
      fun rooted => ofNames_append rooted names last ext⟩

/-- Text that does not climb above the root leads both kinds of storage to the same place. -/
theorem normalize (h : ArePlain names) {r r' : Resolver Id} (hr : r.source.kind = .bundle)
    (hr' : r'.source.kind = .filesystem) {text : String} (hb : '\\' ∉ text.toList)
    (hs : ((ofNames false names).joinText text).staysBelow = true) :
    Option.Rel Mirrored (r.normalize? ((ofNames false names).joinText text))
      (r'.normalize? ((ofNames true names).joinText text)) := by
  obtain ⟨below, hbelow⟩ := staysBelow_iff.mp hs
  have hplain : '\\' ∉ ((ofNames false names).joinText text).text.toList := by
    have hn : '\\' ∉ (ofNames false names).text.toList :=
      notMem_ofNames false (by decide) fun name hm => (h name hm).2
    unfold joinText join
    split
    · exact hb
    · split
      · simp [hn, hb]
      · simp [hn, hb]
  have hsteps : r.steps ((ofNames false names).joinText text) =
      ((ofNames false names).joinText text).inner := by
    rw [Resolver.steps, hr]
    dsimp only
    rw [← Bundle.inner_display, display, forwardSlashes_eq_self hplain]
  have habs : ((ofNames true names).joinText text).isAbsolute = true := by
    by_cases ha : (Path.mk text).isAbsolute = true
    · rw [joinText, join, if_pos ha, ha]
    · rw [joinText, isAbsolute_join_of_relative (by simpa using ha),
        isAbsolute_ofNames true h.isName]
  have hsteps' : r'.steps ((ofNames true names).joinText text) =
      ((ofNames false names).joinText text).inner := by
    rw [Resolver.steps, hr']
    dsimp only
    rw [absolutize, if_pos habs, inner_joinText_ofNames h.isName]
  have hrooted : r.isRooted ((ofNames false names).joinText text) = false := by
    rw [Resolver.isRooted, hr]
  have hrooted' : r'.isRooted ((ofNames true names).joinText text) = true := by
    rw [Resolver.isRooted, hr']
    dsimp only
    rw [absolutize, if_pos habs, habs]
  have hnames : ArePlain below := by
    intro name hm
    have hset : settle false (r.steps ((ofNames false names).joinText text)) [] = some below := by
      rw [hsteps]
      exact hbelow
    obtain ⟨hn, ha⟩ := Resolver.isName_of_settle_steps hset name hm
    exact ⟨hn, ha hr⟩
  rw [r.normalize?_eq, r'.normalize?_eq, hsteps, hsteps', hrooted, hrooted', hbelow,
    settle_true_of_settle_false hbelow]
  exact .some hnames.mirrored

end Path.ArePlain

/-! ## Sources -/

section

variable {files : List (String × ByteArray)} (hf : Portable files) {source : FileSource Id}
  (hs : source.Holds files) {names : List String} (hn : ArePlain names)
include hf hs hn

theorem Portable.existsFile_eq : Id.run ((Bundle.sourceOf files).existsFile (ofNames false names)) =
    Id.run (source.existsFile (ofNames true names)) := by
  rw [Bundle.run_existsFile, Bundle.existsFile, Bundle.find?_ofEntries hf hn, hs.existsFile hn]

/-- A bundle sees a directory by its markers, which every directory above a file has. -/
theorem Portable.existsDir_eq (hne : files ≠ []) :
    Id.run ((Bundle.sourceOf files).existsDir (ofNames false names)) =
      Id.run (source.existsDir (ofNames true names)) := by
  have hmarker : ∀ name ∈ Bundle.markers, IsName name ∧ '\\' ∉ name.toList := by decide
  have hmarked : (Bundle.ofEntries files).existsDir (ofNames false names) = true ↔
      ∃ name ∈ Bundle.markers, ((ofNames false names).joinText name).text ∈ files.map Prod.fst := by
    rw [Bundle.existsDir, List.any_eq_true]
    refine exists_congr fun name => and_congr_right fun hm => ?_
    obtain ⟨hname, hb⟩ := hmarker name hm
    rw [joinText_ofNames false hn.isName hname, Bundle.existsFile,
      Bundle.find?_ofEntries hf (hn.concat hname hb), isSome_lookup_iff]
  rw [Bundle.run_existsDir, Bool.eq_iff_iff, hmarked, hs.existsDir hn]
  constructor
  · rintro ⟨name, hm, hkey⟩
    obtain ⟨hname, hb⟩ := hmarker name hm
    obtain ⟨file, hfile, hk⟩ := List.mem_map.mp hkey
    refine .inr ⟨file, hfile, ?_⟩
    rw [hk, joinText_ofNames false hn.isName hname]
    exact (mem_tail_ancestors_ofNames (hn.concat hname hb).isName).mpr ⟨names, List.prefix_rfl, rfl⟩
  · rintro (rfl | ⟨file, hfile, habove⟩)
    · obtain ⟨file, rest, rfl⟩ := List.exists_cons_of_ne_nil hne
      obtain ⟨front, last, hfront, hk⟩ := (hf.clean file List.mem_cons_self).exists_names
      refine hf.marked file List.mem_cons_self _ ?_
      rw [hk]
      exact (mem_tail_ancestors_ofNames hfront.isName).mpr ⟨[], List.nil_prefix, rfl⟩
    · exact hf.marked file hfile _ habove

theorem Portable.toOption_read_eq :
    Except.toOption (Id.run ((Bundle.sourceOf files).read (ofNames false names))) =
      Except.toOption (Id.run (source.read (ofNames true names))) := by
  rw [hs.read hn, Bundle.run_read]
  unfold Bundle.read
  rw [Bundle.find?_ofEntries hf hn]
  cases files.lookup (ofNames false names).text <;> rfl

omit hs in
/-- What a bundle reads next to files is one of the files, so its `main` stays inside. -/
theorem Portable.known_of_ofRead {d : PackageDescriptor}
    (hd : PackageLookup.ofRead (ofNames false names)
      (Id.run ((Bundle.sourceOf files).read (ofNames false (names ++ [manifestName])))) = .loaded d) :
    ∀ main, d.main = some main → '\\' ∉ main.toList ∧ (d.root.joinText main).staysBelow = true := by
  intro main hmain
  have hmanifest : IsName manifestName ∧ '\\' ∉ manifestName.toList := by decide
  have hplain := hn.concat hmanifest.1 hmanifest.2
  rw [Bundle.run_read] at hd
  unfold Bundle.read at hd
  rw [Bundle.find?_ofEntries hf hplain] at hd
  cases hl : files.lookup (ofNames false (names ++ [manifestName])).text with
  | none =>
    rw [hl] at hd
    cases hd
  | some content =>
    rw [hl] at hd
    obtain ⟨front, back, hfiles, -⟩ := List.lookup_eq_some_iff.mp hl
    have hm : ((ofNames false (names ++ [manifestName])).text, content) ∈ files := by simp [hfiles]
    have hname : (ofNames false (names ++ [manifestName])).fileName? = some manifestName := by
      rw [fileName?, components_ofNames false hplain.isName]
      simp
    have hroot : d.root = ofNames false names := PackageLookup.root_of_ofText hd
    rw [hroot]
    exact hf.main _ hm hname _ d main (parent?_ofNames false hplain.isName) hd hmain

theorem Portable.lookup_read : (Likeness.backends (Bundle.sourceOf files) source).Lookup
    (PackageLookup.read (Bundle.sourceOf files) (ofNames false names))
    (PackageLookup.read source (ofNames true names)) := by
  have hmanifest : IsName manifestName ∧ '\\' ∉ manifestName.toList := by decide
  have hplain := hn.concat hmanifest.1 hmanifest.2
  have hstrict : ¬(Likeness.backends (Bundle.sourceOf files) source).Strict := by
    intro h
    have he : Path.mk "" = Path.mk "/" := h ArePlain.nil.mirrored
    exact absurd he (by decide)
  rw [PackageLookup.read_eq_ite (Bundle.sourceOf files), PackageLookup.read_eq_ite source,
    joinText_ofNames false hn.isName hmanifest.1, joinText_ofNames true hn.isName hmanifest.1,
    hf.existsFile_eq hs hplain]
  split
  · exact PackageLookup.lookup_ofRead hn.mirrored (hf.toOption_read_eq hs hplain) hstrict
      fun d hd => hf.known_of_ofRead hn hd
  · exact .missing

end

/-! ## Resolution -/

/-- The search for a file goes alike in both kinds of storage. -/
theorem Probes.backends {files : List (String × ByteArray)} (hf : Portable files) (hne : files ≠ [])
    {source : FileSource Id} (hs : source.Holds files) (cwd cwd' : Path) :
    Probes (Likeness.backends (Bundle.sourceOf files) source) Observer.plain Observer.plain
      (.ofSource (Bundle.sourceOf files) ⟨""⟩ cwd) (.ofSource source ⟨"/"⟩ cwd') where
  extensions := rfl
  path_of_exact h := h
  append {p q ext} he := by
    rintro ⟨names, hn, rfl, rfl⟩
    obtain ⟨hslash, hb, hl⟩ := extension_admitted ext he
    obtain ⟨longer, hlonger, happend⟩ := hn.append hslash hb hl
    rw [happend, happend]
    exact hlonger.mirrored
  index {p q ext} he := by
    rintro ⟨names, hn, rfl, rfl⟩
    obtain ⟨hname, hb⟩ := index_admitted ext (List.mem_cons_of_mem _ he)
    rw [joinText_ofNames false hn.isName hname, joinText_ofNames true hn.isName hname]
    exact (hn.concat hname hb).mirrored
  main {d d' main} hd hmain := by
    obtain ⟨names, hn, hroot, hroot'⟩ := hd.root
    obtain ⟨hb, hstays⟩ := hd.known main hmain
    rw [hroot] at hstays
    rw [hroot, hroot']
    exact hn.normalize rfl hs.kind hb hstays
  parent := by
    rintro p q ⟨names, hn, rfl, rfl⟩
    cases names using List.reverseRecOn with
    | nil =>
      rw [parent?_ofNames_nil, parent?_ofNames_nil]
      exact .none
    | append_singleton names last =>
      rw [parent?_ofNames false hn.isName, parent?_ofNames true hn.isName]
      exact .some (hn.upTo (List.prefix_append _ _)).mirrored
  ancestors := by
    rintro p q ⟨names, hn, rfl, rfl⟩
    rw [ancestors_ofNames false hn.isName, ancestors_ofNames true hn.isName,
      List.forall₂_map_left_iff, List.forall₂_map_right_iff, List.forall₂_same]
    intro above hm
    exact (hn.upTo (by simpa using hm)).mirrored
  extension := by
    rintro p q ⟨names, hn, rfl, rfl⟩
    exact (extension?_ofNames hn.isName).symm
  error _ _ := trivial
  existsFile := by
    rintro p q ⟨names, hn, rfl, rfl⟩ packages w packages' v hst
    exact ⟨hf.existsFile_eq hs hn, hst⟩
  existsDir := by
    rintro p q ⟨names, hn, rfl, rfl⟩ packages w packages' v hst
    exact ⟨hf.existsDir_eq hs hn hne, hst⟩
  load := by
    rintro p q ⟨names, hn, rfl, rfl⟩ packages w packages' v hst
    obtain ⟨hread, hkept⟩ := hst.1.load hn
    obtain ⟨hread', hkept'⟩ := hst.2.load hn
    refine ⟨?_, hkept, hkept'⟩
    have hl := hf.lookup_read hs hn
    rw [← hread, ← hread'] at hl
    exact hl

namespace Resolver

/-- A referrer of plain names has its own directory for a base. -/
theorem baseDirectory_ofNames {r : Resolver Id} {rooted : Bool} {names : List String}
    {last : String}
    (h : ArePlain (names ++ [last]))
    (hn : r.normalize? (ofNames rooted names) = some (ofNames rooted names)) :
    r.baseDirectory (some (ofNames rooted (names ++ [last]))) = ofNames rooted names := by
  rw [baseDirectory, Option.bind_some, parent?_ofNames rooted h.isName, Option.bind_some, hn]
  rfl

/-- Over the same files, a relative specifier leads to a file of a bundle just when it leads to that
file below the root of a filesystem, in both modes and with the same format. -/
theorem backends_agree {files : List (String × ByteArray)} (hf : Portable files)
    {source : FileSource Id} (hs : source.Holds files) (cwd cwd' : Path) {key : String}
    (hkey : key ∈ files.map Prod.fst) {specifier : String}
    (hspec : Specifier.kind specifier = .relative)
    (hstays : (((Path.mk key).parent?.getD ⟨""⟩).joinText
      (Specifier.normalize specifier)).staysBelow = true) (mode : ResolveMode) :
    let bundle : Resolver Id := .ofSource (Bundle.ofEntries files).toSource ⟨""⟩ cwd
    let disk : Resolver Id := .ofSource source ⟨"/"⟩ cwd'
    let inBundle := ((bundle.resolve ⟨specifier, some ⟨key⟩, mode⟩).run PackageCache.empty).1
    let onDisk := ((disk.resolve ⟨specifier, some ⟨"/" ++ key⟩, mode⟩).run PackageCache.empty).1
    (∀ path format, inBundle = .ok ⟨path, .bundle, format⟩ ↔
      onDisk = .ok ⟨⟨"/" ++ path.text⟩, .filesystem, format⟩) ∧
    ((∃ found, inBundle = .ok found) ↔ ∃ found, onDisk = .ok found) := by
  intro bundle disk inBundle onDisk
  obtain ⟨file, hfile, rfl⟩ := List.mem_map.mp hkey
  obtain ⟨names, last, hn, hk⟩ := (hf.clean file hfile).exists_names
  have hup := hn.upTo (List.prefix_append names [last])
  have hbase : bundle.baseDirectory (some ⟨file.1⟩) = ofNames false names := by
    rw [hk]
    exact baseDirectory_ofNames hn
      (Bundle.canonical?_of_isNormal hup.isNormal (components_ofNames false hup.isName))
  have hbase' : disk.baseDirectory (some ⟨"/" ++ file.1⟩) = ofNames true names := by
    rw [MemoryFiles.ofNames_true_of_ofNames_false hk]
    refine baseDirectory_ofNames hn ?_
    have hd : disk.normalize? (ofNames true names) =
        (absolutize cwd' (ofNames true names)).normalize? := by
      rw [normalize?, show disk.source.kind = .filesystem from hs.kind]
      rfl
    rw [hd, absolutize, if_pos (isAbsolute_ofNames true hup.isName),
      normalize?_ofNames true hup.isName]
  rw [hk, parent?_ofNames false hn.isName, Option.getD_some] at hstays
  have hnormalize : Option.Rel Path.Mirrored
      (bundle.normalize? ((ofNames false names).joinText (Specifier.normalize specifier)))
      (disk.normalize? ((ofNames true names).joinText (Specifier.normalize specifier))) :=
    hup.normalize rfl hs.kind (backslash_notMem_forwardSlashes _) hstays
  rw [← hbase, ← hbase'] at hnormalize
  have hprobes : Probes (Likeness.backends (Bundle.sourceOf files) source) Observer.plain
      Observer.plain bundle disk :=
    Probes.backends hf (List.ne_nil_of_mem hfile) hs cwd cwd'
  have hsearch := hprobes.search (a := ⟨specifier, some ⟨file.1⟩, mode⟩)
    (b := ⟨specifier, some ⟨"/" ++ file.1⟩, mode⟩) rfl rfl (by rw [hspec]; rfl)
    (fun h => absurd (hspec.symm.trans h) (by decide)) trivial (by rw [hspec]; exact hnormalize)
  have hempty : (Likeness.backends (Bundle.sourceOf files) source).state .empty () .empty () :=
    ⟨.empty false _, .empty true _⟩
  have hout : (Likeness.backends (Bundle.sourceOf files) source).Outcome
      ((Likeness.backends (Bundle.sourceOf files) source).Placed .bundle source.kind) inBundle onDisk :=
    (hsearch.resolve hempty).1
  clear_value inBundle onDisk
  rcases inBundle with e | ⟨p, place, format⟩ <;> rcases onDisk with e' | ⟨q, place', format'⟩
  · simp
  · exact hout.elim
  · exact hout.elim
  · obtain ⟨hpath, rfl, rfl, rfl⟩ := hout
    obtain rfl := Mirrored.eq hpath
    have htext (path : Path) : p = path ↔ p.text = path.text :=
      ⟨congrArg Path.text, congrArg Path.mk⟩
    simp [hs.kind, htext]

/-- A directory that is required by its package's `main`, from a file of another directory. -/
theorem backends_agree_main :
    let files := [("index.js", "".toUTF8), ("app/index.js", "".toUTF8), ("lib/main.js", "".toUTF8),
      ("lib/package.json", "\x7b\"type\":\"module\",\"main\":\"./main\"\x7d".toUTF8)]
    let disk : Resolver Id := .ofSource (MemoryFiles.ofFiles files).toSource ⟨"/"⟩ ⟨"/"⟩
    Portable files ∧ FileSource.Holds (MemoryFiles.ofFiles files).toSource files ∧
      "app/index.js" ∈ files.map Prod.fst ∧ Specifier.kind "../lib" = .relative ∧
      (((Path.mk "app/index.js").parent?.getD ⟨""⟩).joinText
        (Specifier.normalize "../lib")).staysBelow = true ∧
      ((disk.resolve ⟨"../lib", some ⟨"/app/index.js"⟩, .require⟩).run PackageCache.empty).1 =
        .ok ⟨⟨"/lib/main.js"⟩, .filesystem, .esm⟩ := by
  intro files disk
  have hclean : ∀ file ∈ files, IsCleanKey file.1 := by decide +kernel
  have hmain : (PackageLookup.ofText ⟨"lib"⟩ (readLossy
      "\x7b\"type\":\"module\",\"main\":\"./main\"\x7d".toUTF8)).descriptor?.bind
        PackageDescriptor.main = some "./main" := by decide +kernel
  have hf : Portable files := by
    refine ⟨hclean, by decide +kernel, by decide +kernel,
      fun file hm hname dir d main hdir hd hd' => ?_⟩
    simp only [files, List.mem_cons, List.not_mem_nil, or_false] at hm
    obtain rfl | rfl | rfl | rfl := hm
    · exact absurd hname (by decide +kernel)
    · exact absurd hname (by decide +kernel)
    · exact absurd hname (by decide +kernel)
    · obtain rfl : Path.mk "lib" = dir := Option.some.inj (Eq.trans (by decide +kernel) hdir)
      rw [hd] at hmain
      obtain rfl : "./main" = main := Option.some.inj (hmain.symm.trans hd')
      decide +kernel
  have hs := MemoryFiles.holds_ofFiles hclean
  have hkey : "app/index.js" ∈ files.map Prod.fst := by decide +kernel
  have hspec : Specifier.kind "../lib" = .relative := by decide +kernel
  have hstays : (((Path.mk "app/index.js").parent?.getD ⟨""⟩).joinText
      (Specifier.normalize "../lib")).staysBelow = true := by decide +kernel
  have hfound : (((Resolver.ofSource (Bundle.ofEntries files).toSource ⟨""⟩ ⟨"/"⟩ : Resolver Id).resolve
      ⟨"../lib", some ⟨"app/index.js"⟩, .require⟩).run PackageCache.empty).1 =
      .ok ⟨⟨"lib/main.js"⟩, .bundle, .esm⟩ := by decide +kernel
  refine ⟨hf, hs, hkey, hspec, hstays, ?_⟩
  have hagree := (backends_agree hf hs ⟨"/"⟩ ⟨"/"⟩ hkey hspec hstays .require).1
  exact (hagree ⟨"lib/main.js"⟩ .esm).mp hfound

end Resolver

end ModuleLoader
