import ModuleLoader.Proofs.Source.Entries
import ModuleLoader.Proofs.Source.Walks
import ModuleLoader.Source.Disk

/-! Snapshots of directories. A snapshot has every file below its directory under the names that lead
there, with the content of the file, and there is none if a directory or a file cannot be read. -/

namespace ModuleLoader

open ModuleLoader.Path Text

/-- A disk that shows a tree. A walk visits the path that it starts from, which leads to a directory
or is a link to one, and then what is below, depth first with siblings by name. -/
structure Disk.Shows (disk : Disk Id) (t : FileTree) : Prop where
  files : disk.files = t.toSource
  walk {p : Path} {node : Node} : t.find p = .ok node → node.isDirectory = true →
    ∃ kind, kind ≠ .file ∧ disk.walk p = .ok ⟨p, kind⟩ :: node.visitsBelow p

theorem FileTree.shows_toDisk (t : FileTree) : t.toDisk.Shows t := by
  refine ⟨rfl, fun {p node} hf hdir => ?_⟩
  change ∃ kind, kind ≠ EntryKind.file ∧ t.walk p = .ok ⟨p, kind⟩ :: node.visitsBelow p
  rw [FileTree.walk]
  rcases t.locate_of_find hf with hl | ⟨target, hl⟩
  · refine ⟨node.kind, ?_, ?_⟩
    · cases node <;> simp_all [Node.isDirectory, Node.kind]
    · rw [hl]
      cases node with
      | link target => cases hdir
      | _ => rfl
  · exact ⟨.link, by decide, by rw [hl, hf]⟩

/-! ## Reading what was found -/

namespace Bundle

variable {disk : Disk Id} {found : List (String × Path)}

theorem addFiles_of_read {α : Type} {places : List α} {name : α → String} {path : α → Path}
    {content : α → ByteArray} (h : ∀ x ∈ places, disk.files.read (path x) = .ok (content x))
    (b : Bundle) :
    addFiles disk b (places.map fun x => (name x, path x)) =
      .ok ((places.map fun x => (name x, content x)).foldl
        (fun b (path, content) => b.insert path content) b) := by
  induction places generalizing b with
  | nil => rfl
  | cons x rest ih =>
    have hx := h x List.mem_cons_self
    have hrest := ih (fun y hm => h y (List.mem_cons_of_mem _ hm)) (b.insert (name x) (content x))
    rw [List.map_cons, addFiles]
    simp only [hx, List.map_cons, List.foldl_cons]
    exact hrest

/-- The first file that cannot be read is the end of it. -/
theorem exists_addFiles_eq_error
    (h : ∃ file ∈ found, ∀ content, disk.files.read file.2 ≠ .ok content) (b : Bundle) :
    ∃ file ∈ found, ∃ e, disk.files.read file.2 = .error e ∧
      addFiles disk b found = .error ⟨file.2, e⟩ := by
  induction found generalizing b with
  | nil => simp at h
  | cons file rest ih =>
    obtain ⟨name, path⟩ := file
    cases hfile : disk.files.read path with
    | error e =>
      exact ⟨(name, path), List.mem_cons_self, e, hfile, by rw [addFiles]; simp only [hfile]; rfl⟩
    | ok content =>
      have hrest : ∃ file ∈ rest, ∀ content, disk.files.read file.2 ≠ .ok content := by
        obtain ⟨file, hm, hf⟩ := h
        rcases List.mem_cons.mp hm with rfl | hm
        · exact absurd hfile (hf content)
        · exact ⟨file, hm, hf⟩
      obtain ⟨file, hm, e, he, ha⟩ := ih hrest (b.insert name content)
      refine ⟨file, List.mem_cons_of_mem _ hm, e, he, ?_⟩
      rw [addFiles]
      simp only [hfile]
      exact ha

/-! ## Names as keys -/

variable {names : List String} {files : List (String × ByteArray)} {key : String}
  {content : ByteArray}

theorem isAccepted_iff (hne : names ≠ []) (h : ∀ name ∈ names, Node.IsPlainName name) :
    IsAccepted ("/".intercalate names) key ↔ key = "/".intercalate names := by
  have hnames : ∀ name ∈ names, IsName name := fun name hm => (h name hm).isName
  have hpath : Path.mk ("/".intercalate names) = ofNames false names := by simp [ofNames]
  have hb : '\\' ∉ (ofNames false names).text.toList :=
    notMem_ofNames false (by decide) fun name hm => (h name hm).noBackslash
  have hkey : key? ⟨"/".intercalate names⟩ = some ("/".intercalate names) := by
    rw [hpath, key?, canonical?_eq_normalize?, below_eq_self (isAbsolute_ofNames false hnames) hb,
      normalize?_ofNames false hnames, Option.map_some, Node.display_ofNames h]
  have htext := text_ofNames_ne_empty hne hnames
  rw [← hpath] at htext
  rw [IsAccepted, ← key?_eq_some_iff, hkey]
  constructor
  · rintro ⟨he, -⟩
    exact (Option.some.inj he).symm
  · rintro rfl
    exact ⟨rfl, htext⟩

theorem lastInserted_of_mem (hd : (files.map Prod.fst).Nodup)
    (hself : ∀ file ∈ files, ∀ key, IsAccepted file.1 key ↔ key = file.1)
    (hm : (key, content) ∈ files) : LastInserted files key content := by
  obtain ⟨front, back, rfl⟩ := List.append_of_mem hm
  refine ⟨front, key, back, rfl, (hself _ hm key).mpr rfl, fun file hfile ha => ?_⟩
  have he : key = file.1 :=
    (hself file (List.mem_append_right _ (List.mem_cons_of_mem _ hfile)) key).mp ha
  rw [List.map_append, List.map_cons] at hd
  have hnot := (List.nodup_cons.mp (List.nodup_append.mp hd).2.1).1
  exact hnot (List.mem_map.mpr ⟨file, hfile, he.symm⟩)

end Bundle

/-! ## Snapshots -/

variable {t : FileTree} {disk : Disk Id} {p : Path} {root node : Node} {names : List String}
  {content : ByteArray}

theorem FileTree.read_descend (hf : t.find p = .ok root) (hn : root.IsWellNamed)
    (hat : root.at? names = some node) (hfile : node.isFile = true) :
    t.read (p.descend names) = .ok content ↔
      node = .file content ∧ byteLength (p.descend names).text.toList < Node.pathLimit := by
  by_cases hshort : byteLength (p.descend names).text.toList < Node.pathLimit
  · have hlink : node.kind ≠ .link := by
      rintro hk
      cases node <;> simp_all [Node.isFile, Node.kind]
    have hfind := FileTree.find_descend hf hn hat hlink hshort
    have hread : t.read (p.descend names) = node.read := by rw [FileTree.read, hfind]; rfl
    rw [hread]
    cases node <;> simp_all [Node.read, Node.isFile]
  · obtain ⟨e, he⟩ := FileTree.exists_find_eq_error (t := t) (not_lt.mp hshort)
    have hread : t.read (p.descend names) = .error e := by rw [FileTree.read, he]; rfl
    simp [hread, hshort]

theorem Disk.Shows.read (h : disk.Shows t) (p : Path) : disk.files.read p = t.read p := by
  rw [h.files]
  rfl

theorem Disk.Shows.collectFiles_of_opens (h : disk.Shows t) (hf : t.find p = .ok root)
    (hdir : root.isDirectory = true) (hn : root.IsWellNamed) (ho : root.Opens p) :
    disk.collectFiles p = .ok (root.fileNames.map (listed p)) := by
  obtain ⟨kind, hkind, hwalk⟩ := h.walk hf hdir
  have hp : p.text ≠ "" := (Node.lookUp_eq_ok_iff.mp hf).2.1
  have hroot : root.kind ≠ .file := by cases root <;> simp_all [Node.isDirectory, Node.kind]
  have hvisits := Node.files_visits hp [] (by simp) (.inr hdir) hn ho
  rw [Node.visits, Node.files_cons_of_ne hroot] at hvisits
  change Walk.files p (disk.walk p) = _
  rw [hwalk, Node.files_cons_of_ne hkind]
  exact hvisits

theorem Disk.Shows.collectFiles_of_not_opens (h : disk.Shows t) (hf : t.find p = .ok root)
    (hdir : root.isDirectory = true) (hn : root.IsWellNamed) (ho : ¬root.Opens p) :
    ∃ e, disk.collectFiles p = .error e := by
  obtain ⟨kind, -, hwalk⟩ := h.walk hf hdir
  obtain ⟨e, he⟩ := Node.exists_error_of_not_opens hn ho
  refine Walk.exists_files_eq_error (e := e) ?_
  rw [hwalk]
  exact List.mem_cons_of_mem _ he

theorem Node.plain_of_mem_fileNames (hdir : root.isDirectory = true) (hn : root.IsWellNamed)
    (hm : names ∈ root.fileNames) : names ≠ [] ∧ ∀ name ∈ names, Node.IsPlainName name := by
  obtain ⟨node, hat, hfile⟩ := (Node.mem_fileNames_iff hn).mp hm
  refine ⟨?_, hn.forall_mem hat⟩
  rintro rfl
  obtain rfl : root = node := Option.some.inj hat
  cases root <;> simp_all [Node.isDirectory, Node.isFile]

/-- What a file of a tree holds. -/
def Node.contentAt (root : Node) (names : List String) : ByteArray :=
  match root.at? names with
  | some (file content) => content
  | _ => ByteArray.empty

/-- The files of a tree under their names. -/
def Node.contents (root : Node) : List (String × ByteArray) :=
  root.fileNames.map fun names => ("/".intercalate names, root.contentAt names)

theorem Node.nodup_contents (hdir : root.isDirectory = true) (hn : root.IsWellNamed) :
    (root.contents.map Prod.fst).Nodup := by
  have hnodup : root.fileNames.Nodup := (Node.pairwise_fileNames hn).imp ne_of_lt
  rw [Node.contents, List.map_map]
  refine List.Nodup.map_on (fun names hm other ho he => ?_) hnodup
  have hnames := (Node.plain_of_mem_fileNames hdir hn hm).2
  have hother := (Node.plain_of_mem_fileNames hdir hn ho).2
  have htext : "/".intercalate names = "/".intercalate other := he
  have hpath : ofNames false names = ofNames false other := by rw [ofNames, ofNames, htext]
  exact eq_of_components_ofNames (fun name hm => (hnames name hm).isName)
    (fun name hm => (hother name hm).isName) (congrArg components hpath)

theorem Node.isAccepted_of_mem_contents (hdir : root.isDirectory = true) (hn : root.IsWellNamed) :
    ∀ file ∈ root.contents, ∀ key, Bundle.IsAccepted file.1 key ↔ key = file.1 := by
  intro file hm key
  obtain ⟨names, hnames, rfl⟩ := List.mem_map.mp hm
  obtain ⟨hne, hplain⟩ := Node.plain_of_mem_fileNames hdir hn hnames
  exact Bundle.isAccepted_iff hne hplain

namespace Bundle

theorem ofDirectory_eq (disk : Disk Id) (p : Path) : ofDirectory disk p =
    match (disk.collectFiles p : Except ReadError (List (String × Path))) with
    | .error error => Except.error (DirectoryError.mk p error)
    | .ok found => addFiles disk empty found := rfl

theorem ofDirectory_of_reads (h : disk.Shows t) (hf : t.find p = .ok root)
    (hdir : root.isDirectory = true) (hn : root.IsWellNamed) (ho : root.Opens p)
    (hr : root.Reads p) : ofDirectory disk p = .ok (ofEntries root.contents) := by
  rw [ofDirectory_eq, h.collectFiles_of_opens hf hdir hn ho]
  refine addFiles_of_read (fun names hm => ?_) empty
  obtain ⟨node, hat, hfile⟩ := (Node.mem_fileNames_iff hn).mp hm
  obtain ⟨⟨content, rfl⟩, hshort⟩ := hr names node hat hfile
  rw [h.read, (FileTree.read_descend hf hn hat hfile).mpr ⟨rfl, hshort⟩, Node.contentAt, hat]

theorem perm_keys_contents (hdir : root.isDirectory = true) (hn : root.IsWellNamed) :
    (ofEntries root.contents).keys.Perm (root.contents.map Prod.fst) := by
  refine (List.perm_ext_iff_of_nodup ((pairwise_keys_ofEntries _).imp ne_of_lt)
    (Node.nodup_contents hdir hn)).mpr fun key => ?_
  rw [mem_keys_ofEntries_iff, List.mem_map]
  refine exists_congr fun file => and_congr_right fun hm => ?_
  rw [Node.isAccepted_of_mem_contents hdir hn file hm]
  exact eq_comm

theorem read_contents (hdir : root.isDirectory = true) (hn : root.IsWellNamed)
    (hat : root.at? names = some (.file content)) :
    (ofEntries root.contents).read ⟨"/".intercalate names⟩ = .ok content := by
  have hm : ("/".intercalate names, content) ∈ root.contents := by
    refine List.mem_map.mpr ⟨names, (Node.mem_fileNames_iff hn).mpr ⟨_, hat, rfl⟩, ?_⟩
    rw [Node.contentAt, hat]
  have hself := Node.isAccepted_of_mem_contents hdir hn
  rw [read_eq_ok_iff, find?_eq_some_iff]
  exact ⟨_, ((hself _ hm _).mpr rfl).1, lastInserted_of_mem (Node.nodup_contents hdir hn) hself hm⟩

theorem exists_ofDirectory_eq_error (h : disk.Shows t) (hf : t.find p = .ok root)
    (hdir : root.isDirectory = true) (hn : root.IsWellNamed) (ho : root.Opens p)
    (hr : ¬root.Reads p) : ∃ names ∈ root.fileNames, ∃ e,
      disk.files.read (p.descend names) = .error e ∧
        ofDirectory disk p = .error ⟨p.descend names, e⟩ := by
  unfold Node.Reads Node.Everywhere at hr
  push Not at hr
  obtain ⟨names, node, hat, hfile, hclosed⟩ := hr
  have hunread : ∃ file ∈ root.fileNames.map (listed p),
      ∀ content, disk.files.read file.2 ≠ .ok content := by
    refine ⟨listed p names,
      List.mem_map_of_mem ((Node.mem_fileNames_iff hn).mpr ⟨node, hat, hfile⟩), fun content hc => ?_⟩
    rw [h.read] at hc
    obtain ⟨hnode, hshort⟩ := (FileTree.read_descend hf hn hat hfile).mp hc
    exact not_lt.mpr (hclosed ⟨content, hnode⟩) hshort
  obtain ⟨file, hm, e, he, ha⟩ := exists_addFiles_eq_error hunread empty
  obtain ⟨found, hfound, rfl⟩ := List.mem_map.mp hm
  refine ⟨found, hfound, e, he, ?_⟩
  rw [ofDirectory_eq, h.collectFiles_of_opens hf hdir hn ho]
  exact ha

/-- Snapshots lose nothing. Where every directory below a path can be opened, the files below it are
listed once each, in increasing order of the names that lead to them. Where all of these can be read
too, the bundle of the directory has their relative paths as its keys, each with the content of its
file. One directory that cannot be opened or one file that cannot be read leaves no bundle. -/
theorem ofDirectory_complete (h : disk.Shows t) (hf : t.find p = .ok root)
    (hdir : root.isDirectory = true) (hn : root.IsWellNamed) :
    (root.Opens p → ∃ found : List (List String),
      disk.collectFiles p = .ok (found.map fun names => ("/".intercalate names, p.descend names)) ∧
      (∀ names, names ∈ found ↔ root.HasFile names) ∧ found.Pairwise (· < ·) ∧
      (∀ names ∈ found, (p.descend names).components = p.components ++ names.map .name) ∧
      (root.Reads p → ∃ b, ofDirectory disk p = .ok b ∧
        b.keys.Perm (found.map fun names => "/".intercalate names) ∧
        ∀ names content, root.at? names = some (.file content) →
          b.read ⟨"/".intercalate names⟩ = .ok content) ∧
      (¬root.Reads p → ∃ names ∈ found, ∃ e, disk.files.read (p.descend names) = .error e ∧
        ofDirectory disk p = .error ⟨p.descend names, e⟩)) ∧
    (¬root.Opens p → ∃ e, disk.collectFiles p = .error e ∧ ofDirectory disk p = .error ⟨p, e⟩) := by
  have hp : p.text ≠ "" := (Node.lookUp_eq_ok_iff.mp hf).2.1
  refine ⟨fun ho => ⟨root.fileNames, h.collectFiles_of_opens hf hdir hn ho,
    fun names => Node.mem_fileNames_iff hn, Node.pairwise_fileNames hn, fun names hm => ?_,
    fun hr => ?_, exists_ofDirectory_eq_error h hf hdir hn ho⟩, fun ho => ?_⟩
  · have hplain := (Node.plain_of_mem_fileNames hdir hn hm).2
    exact components_descend hp fun name hm => (hplain name hm).isName
  · have hkeys := perm_keys_contents hdir hn
    rw [Node.contents, List.map_map] at hkeys
    exact ⟨_, ofDirectory_of_reads h hf hdir hn ho hr, hkeys,
      fun names content => read_contents hdir hn⟩
  · obtain ⟨e, he⟩ := h.collectFiles_of_not_opens hf hdir hn ho
    exact ⟨e, he, by rw [ofDirectory_eq, he]⟩

/-- A directory with a link in it, and a tree where another link leads to the directory. -/
def linkedDirectory : Node := .directory [
  ("lib.js", .file "exports.a = 1".toUTF8),
  ("lib", .directory [("z.js", .file "exports.z = 2".toUTF8)]),
  ("alias.js", .link ⟨"lib/z.js"⟩)]

def linkedTree : FileTree where
  root := .directory [("app", linkedDirectory), ("current", .link ⟨"app"⟩)]
  workingDirectory := ⟨"/"⟩

theorem isWellNamed_lib (content : ByteArray) :
    (Node.directory [("z.js", .file content)]).IsWellNamed :=
  Node.isWellNamed_directory (by simp) fun entry hm => by
    rw [List.mem_singleton.mp hm]
    exact ⟨show Node.IsPlainName "z.js" by decide, Node.isWellNamed_leaf nofun⟩

theorem isWellNamed_linkedDirectory : linkedDirectory.IsWellNamed := by
  refine Node.isWellNamed_directory (by decide) ?_
  simp only [List.forall_mem_cons]
  exact ⟨⟨by decide, Node.isWellNamed_leaf nofun⟩, ⟨by decide, isWellNamed_lib _⟩,
    ⟨by decide, Node.isWellNamed_leaf nofun⟩, nofun⟩

theorem everywhere_linkedDirectory {good : Path → Node → Prop}
    (hroot : good ⟨"/current"⟩ linkedDirectory)
    (hfile : good ⟨"/current/lib.js"⟩ (.file "exports.a = 1".toUTF8))
    (hdir : good ⟨"/current/lib"⟩ (.directory [("z.js", .file "exports.z = 2".toUTF8)]))
    (hbelow : good ⟨"/current/lib/z.js"⟩ (.file "exports.z = 2".toUTF8))
    (hlink : good ⟨"/current/alias.js"⟩ (.link ⟨"lib/z.js"⟩)) :
    linkedDirectory.Everywhere good ⟨"/current"⟩ := by
  refine (Node.everywhere_directory isWellNamed_linkedDirectory).mpr ⟨hroot, ?_⟩
  simp only [List.forall_mem_cons]
  refine ⟨(Node.everywhere_leaf (by nofun)).mpr hfile,
    (Node.everywhere_directory (isWellNamed_lib _)).mpr ⟨hdir, ?_⟩,
    (Node.everywhere_leaf (by nofun)).mpr hlink, nofun⟩
  simp only [List.forall_mem_cons]
  exact ⟨(Node.everywhere_leaf (by nofun)).mpr hbelow, nofun⟩

theorem ofDirectory_complete_linked :
    linkedTree.find ⟨"/current"⟩ = .ok linkedDirectory ∧ linkedDirectory.Opens ⟨"/current"⟩ ∧
      linkedDirectory.Reads ⟨"/current"⟩ ∧ ∃ b,
        ofDirectory (linkedTree.toDisk : Disk Id) ⟨"/current"⟩ = .ok b ∧
        b.read ⟨"lib.js"⟩ = .ok "exports.a = 1".toUTF8 ∧
        b.read ⟨"lib/z.js"⟩ = .ok "exports.z = 2".toUTF8 := by
  have hfind : linkedTree.find ⟨"/current"⟩ = .ok linkedDirectory := rfl
  have hopens : linkedDirectory.Opens ⟨"/current"⟩ :=
    everywhere_linkedDirectory (fun _ => ⟨⟨_, rfl⟩, by decide⟩) (fun h => by cases h)
      (fun _ => ⟨⟨_, rfl⟩, by decide⟩) (fun h => by cases h) (fun h => by cases h)
  have hreads : linkedDirectory.Reads ⟨"/current"⟩ :=
    everywhere_linkedDirectory (fun h => by cases h) (fun _ => ⟨⟨_, rfl⟩, by decide⟩)
      (fun h => by cases h) (fun _ => ⟨⟨_, rfl⟩, by decide⟩) (fun h => by cases h)
  obtain ⟨hcomplete, -⟩ := ofDirectory_complete linkedTree.shows_toDisk hfind rfl
    isWellNamed_linkedDirectory
  obtain ⟨found, -, -, -, -, hbundle, -⟩ := hcomplete hopens
  obtain ⟨b, hb, -, hread⟩ := hbundle hreads
  exact ⟨hfind, hopens, hreads, b, hb, hread ["lib.js"] _ rfl, hread ["lib", "z.js"] _ rfl⟩

end Bundle

end ModuleLoader
