import ModuleLoader.Proofs.Resolve.Canonical
import ModuleLoader.Proofs.Source.Entries

/-! Sets of files that a bundle and a filesystem keep alike: under plain relative names, in
directories that a bundle knows to exist too, and with no `main` that a filesystem reads otherwise. -/

namespace ModuleLoader

open ModuleLoader.Path Text

/-- Names that every source takes as they are written. -/
def Path.ArePlain (names : List String) : Prop := ∀ name ∈ names, IsName name ∧ '\\' ∉ name.toList

namespace Path.ArePlain

variable {names : List String}

theorem isName (h : ArePlain names) : ∀ name ∈ names, IsName name := fun name hm => (h name hm).1

theorem nil : ArePlain [] := fun _ h => absurd h List.not_mem_nil

theorem concat (h : ArePlain names) {last : String} (hl : IsName last) (hb : '\\' ∉ last.toList) :
    ArePlain (names ++ [last]) := by
  intro name hm
  rcases List.mem_append.mp hm with hm | hm
  · exact h name hm
  · obtain rfl : name = last := by simpa using hm
    exact ⟨hl, hb⟩

theorem upTo (h : ArePlain names) {above : List String} (ha : above <+: names) : ArePlain above :=
  fun name hm => h name (ha.subset hm)

theorem isNormal (h : ArePlain names) : StorageKind.bundle.IsNormal (ofNames false names) :=
  StorageKind.isNormal_iff.mpr
    ⟨names, components_ofNames false h.isName, fun name hm _ => (h name hm).2⟩

theorem key? (h : ArePlain names) :
    Bundle.key? (ofNames false names) = some (ofNames false names).text :=
  Bundle.key?_of_isNormal h.isNormal (components_ofNames false h.isName)

end Path.ArePlain

/-- A relative name without a backslash and without an empty, `.` or `..` segment. -/
def IsCleanKey (key : String) : Prop :=
  '\\' ∉ key.toList ∧ ∀ segment ∈ (Path.mk key).segments,
    segment ≠ [] ∧ segment ≠ ['.'] ∧ segment ≠ ['.', '.']

instance (key : String) : Decidable (IsCleanKey key) :=
  inferInstanceAs (Decidable (_ ∧ ∀ segment ∈ (Path.mk key).segments, _))

theorem IsCleanKey.exists_names {key : String} (h : IsCleanKey key) :
    ∃ names last, ArePlain (names ++ [last]) ∧ Path.mk key = ofNames false (names ++ [last]) := by
  obtain ⟨segments, final, hs⟩ : ∃ segments final, (Path.mk key).segments = segments ++ [final] :=
    ⟨_, _, (List.dropLast_append_getLast (List.splitOn_ne_nil '/' key.toList)).symm⟩
  have hmap : (segments.map String.ofList ++ [String.ofList final]).map String.toList =
      (Path.mk key).segments := by
    simp [hs]
  refine ⟨segments.map String.ofList, String.ofList final, fun name hm => ?_, ?_⟩
  · have hseg : name.toList ∈ (Path.mk key).segments := hmap ▸ List.mem_map_of_mem hm
    obtain ⟨hne, hdot, hdots⟩ := h.2 _ hseg
    refine ⟨isName_iff.mpr ⟨notMem_of_mem_splitOn hseg, ?_, ?_, ?_⟩, fun hb => h.1 ?_⟩
    · rintro rfl
      exact hne (by decide)
    · rintro rfl
      exact hdot (by decide)
    · rintro rfl
      exact hdots (by decide)
    · exact (infix_of_mem_splitOn hseg).subset hb
  · have ht : key.toList =
        (ofNames false (segments.map String.ofList ++ [String.ofList final])).text.toList := by
      rw [toList_ofNames, hmap]
      exact (Path.mk key).intercalate_segments.symm
    exact congrArg Path.mk (String.toList_inj.mp ht)

/-- Files that every source keeps alike. Each directory above one of them has a file by which a
bundle knows it, and no `main` leads out of the whole. -/
structure Portable (files : List (String × ByteArray)) : Prop where
  clean : ∀ file ∈ files, IsCleanKey file.1
  distinct : (files.map Prod.fst).Nodup
  marked : ∀ file ∈ files, ∀ dir ∈ (Path.mk file.1).ancestors.tail,
    ∃ name ∈ Bundle.markers, (dir.joinText name).text ∈ files.map Prod.fst
  main : ∀ file ∈ files, (Path.mk file.1).fileName? = some manifestName →
    ∀ dir d main, (Path.mk file.1).parent? = some dir →
      PackageLookup.ofText dir (readLossy file.2) = .loaded d → d.main = some main →
      '\\' ∉ main.toList ∧ (dir.joinText main).staysBelow = true

/-- Whether a filesystem has the given files below its root and no others, and the directories that
they lie in. -/
structure FileSource.Holds (source : FileSource Id) (files : List (String × ByteArray)) : Prop where
  kind : source.kind = .filesystem
  existsFile {names : List String} : ArePlain names →
    Id.run (source.existsFile (ofNames true names)) =
      (files.lookup (ofNames false names).text).isSome
  existsDir {names : List String} : ArePlain names →
    (Id.run (source.existsDir (ofNames true names)) = true ↔
      names = [] ∨ ∃ file ∈ files, ofNames false names ∈ (Path.mk file.1).ancestors.tail)
  read {names : List String} : ArePlain names →
    Except.toOption (Id.run (source.read (ofNames true names))) =
      files.lookup (ofNames false names).text

variable {files : List (String × ByteArray)} {names : List String}

/-! ## In a bundle -/

namespace Bundle

/-- The bundle of the given files, as a source of plain answers. -/
def sourceOf (files : List (String × ByteArray)) : FileSource Id := (ofEntries files).toSource

theorem run_existsFile (files : List (String × ByteArray)) (p : Path) :
    Id.run ((sourceOf files).existsFile p) = (ofEntries files).existsFile p := by
  rw [sourceOf, toSource, Id.run_pure]

theorem run_existsDir (files : List (String × ByteArray)) (p : Path) :
    Id.run ((sourceOf files).existsDir p) = (ofEntries files).existsDir p := by
  rw [sourceOf, toSource, Id.run_pure]

theorem run_read (files : List (String × ByteArray)) (p : Path) :
    Id.run ((sourceOf files).read p) = (ofEntries files).read p := by
  rw [sourceOf, toSource, Id.run_pure]

theorem insert_of_isCleanKey (b : Bundle) {key : String} (h : IsCleanKey key)
    (content : ByteArray) : b.insert key content = ⟨insertEntry key content b.entries⟩ := by
  obtain ⟨names, last, hn, hk⟩ := h.exists_names
  have hkey : key? ⟨key⟩ = some key := by
    rw [hk, hn.key?, ← hk]
  have hne : key ≠ "" := fun he => (h.2 [] (by subst he; decide)).1 rfl
  unfold insert insert?
  rw [hkey]
  simp [hne]

theorem lookup_foldl_insert (hc : ∀ file ∈ files, IsCleanKey file.1)
    (hd : (files.map Prod.fst).Nodup) (b : Bundle) (key : String) :
    (files.foldl (fun b (path, content) => b.insert path content) b).entries.lookup key =
      (files.lookup key).or (b.entries.lookup key) := by
  induction files generalizing b with
  | nil => rfl
  | cons file rest ih =>
    obtain ⟨k, c⟩ := file
    obtain ⟨hnot, hrest⟩ := List.nodup_cons.mp hd
    have hk : IsCleanKey k := hc (k, c) List.mem_cons_self
    rw [List.foldl_cons, ih (fun file hm => hc file (List.mem_cons_of_mem _ hm)) hrest]
    dsimp only
    rw [b.insert_of_isCleanKey hk, lookup_insertEntry, List.lookup_cons]
    by_cases h : key = k
    · subst h
      have hn : rest.lookup key = none := List.lookup_eq_none_iff.mpr fun p hp => by
        have hne : key ≠ p.1 := fun he => hnot (List.mem_map.mpr ⟨p, hp, he.symm⟩)
        simpa using hne
      simp [hn]
    · have h' : (key == k) = false := by simpa using h
      simp [h, h']

theorem find?_ofEntries (hf : Portable files) (hn : ArePlain names) :
    (ofEntries files).find? (ofNames false names) = files.lookup (ofNames false names).text := by
  rw [find?, hn.key?, Option.bind_some, ofEntries, lookup_foldl_insert hf.clean hf.distinct]
  simp [empty]

end Bundle

/-! ## In a filesystem -/

namespace MemoryFiles

def ofFiles (files : List (String × ByteArray)) : MemoryFiles :=
  files.foldr (fun file fs => fs.insertFile ⟨"/" ++ file.1⟩ (.ok file.2)) .empty

theorem ofFiles_cons (file : String × ByteArray) (rest : List (String × ByteArray)) :
    ofFiles (file :: rest) = (ofFiles rest).insertFile ⟨"/" ++ file.1⟩ (.ok file.2) := rfl

theorem locate_ofNames (h : ∀ name ∈ names, IsName name) :
    locate (ofNames true names) = ofNames true names := by
  rw [locate, join, isAbsolute_ofNames true h, if_pos rfl, normalize?_ofNames true h]
  rfl

theorem ofNames_true_of_ofNames_false {key : String} (h : Path.mk key = ofNames false names) :
    Path.mk ("/" ++ key) = ofNames true names := by
  obtain rfl : key = "/".intercalate names := by simpa [ofNames] using congrArg Path.text h
  rfl

theorem files_ofFiles (hc : ∀ file ∈ files, IsCleanKey file.1) :
    (ofFiles files).files = files.map fun file => ("/" ++ file.1, .ok file.2) := by
  induction files with
  | nil => rfl
  | cons file rest ih =>
    obtain ⟨names, last, hn, hk⟩ := (hc file List.mem_cons_self).exists_names
    have hkey : key ⟨"/" ++ file.1⟩ = "/" ++ file.1 := by
      have hp := ofNames_true_of_ofNames_false hk
      rw [key, hp, locate_ofNames hn.isName, ← hp]
    have hrest := ih fun file hm => hc file (List.mem_cons_of_mem _ hm)
    rw [List.map_cons, ← hrest, ofFiles_cons, insertFile, addDirectories, hkey]

theorem mem_directories_ofFiles (name : String) : name ∈ (ofFiles files).directories ↔
    name = "/" ∨ ∃ file ∈ files, name ∈ above ⟨"/" ++ file.1⟩ := by
  induction files with
  | nil => simp [ofFiles, empty]
  | cons file rest ih =>
    rw [ofFiles_cons, insertFile, addDirectories, List.mem_append, ih]
    simp only [List.mem_cons, exists_eq_or_imp]
    exact or_left_comm

theorem lookup_map_files (files : List (String × ByteArray)) (key : String) :
    (files.map fun file => ("/" ++ file.1, (.ok file.2 : Except String ByteArray))).lookup
      ("/" ++ key) = (files.lookup key).map .ok := by
  induction files with
  | nil => rfl
  | cons file rest ih =>
    obtain ⟨k, c⟩ := file
    rw [List.map_cons, List.lookup_cons, List.lookup_cons, ih]
    by_cases h : key = k
    · simp [h]
    · have h' : ("/" ++ key == "/" ++ k) = false := by simpa using h
      have h'' : (key == k) = false := by simpa using h
      simp only [h', h'']

theorem mem_above_iff {file : String × ByteArray} (hc : IsCleanKey file.1)
    (hn : ArePlain names) : (ofNames true names).text ∈ above ⟨"/" ++ file.1⟩ ↔
      ofNames false names ∈ (Path.mk file.1).ancestors.tail := by
  obtain ⟨front, last, hf, hk⟩ := hc.exists_names
  rw [above, ofNames_true_of_ofNames_false hk, locate_ofNames hf.isName, List.drop_one, hk,
    mem_tail_ancestors_ofNames hf.isName, List.mem_map]
  simp only [mem_tail_ancestors_ofNames hf.isName]
  have hnames {up : List String} (hu : up <+: front) : ∀ name ∈ up, IsName name :=
    (hf.upTo (hu.trans (List.prefix_append _ _))).isName
  constructor
  · rintro ⟨_, ⟨up, hu, rfl⟩, ht⟩
    obtain rfl : up = names := eq_of_components_ofNames (hnames hu) hn.isName
      (congrArg components (congrArg Path.mk ht))
    exact ⟨up, hu, rfl⟩
  · rintro ⟨up, hu, he⟩
    obtain rfl : up = names := eq_of_components_ofNames (hnames hu) hn.isName
      (congrArg components he)
    exact ⟨_, ⟨up, hu, rfl⟩, rfl⟩

theorem holds_ofFiles (hc : ∀ file ∈ files, IsCleanKey file.1) :
    FileSource.Holds (ofFiles files).toSource files where
  kind := rfl
  existsFile {names} hn := by
    have hl : (ofFiles files).files.lookup (key (ofNames true names)) =
        (files.lookup (ofNames false names).text).map .ok := by
      rw [key, locate_ofNames hn.isName, files_ofFiles hc]
      exact lookup_map_files files _
    change ((ofFiles files).files.lookup (key (ofNames true names))).isSome = _
    rw [hl, Option.isSome_map]
  existsDir {names} hn := by
    have hroot : (ofNames true names).text = "/" ↔ names = [] := by
      refine ⟨fun h => ?_, fun h => h ▸ rfl⟩
      exact eq_of_components_ofNames hn.isName (by simp) (congrArg components (congrArg Path.mk h))
    change (ofFiles files).directories.contains (key (ofNames true names)) = true ↔ _
    rw [List.contains_iff_mem, key, locate_ofNames hn.isName, mem_directories_ofFiles, hroot]
    refine or_congr Iff.rfl (exists_congr fun file => and_congr_right fun hm => ?_)
    exact mem_above_iff (hc file hm) hn
  read {names} hn := by
    have hl : (ofFiles files).files.lookup (key (ofNames true names)) =
        (files.lookup (ofNames false names).text).map .ok := by
      rw [key, locate_ofNames hn.isName, files_ofFiles hc]
      exact lookup_map_files files _
    change Except.toOption ((ofFiles files).read (ofNames true names)) = _
    unfold MemoryFiles.read
    rw [hl]
    cases files.lookup (ofNames false names).text <;> rfl

end MemoryFiles

end ModuleLoader
