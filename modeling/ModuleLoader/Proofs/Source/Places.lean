import ModuleLoader.Proofs.Json.Members
import ModuleLoader.Proofs.Path.Below
import ModuleLoader.Source.Walk

/-! Places in a tree. Where a path leads to a node, names behind the path lead to what these names
lead to from the node, however the path gets there. -/

namespace ModuleLoader

open ModuleLoader.Path Text

namespace Node

/-- What names lead to from a node. No link is followed. -/
def at? : List String → Node → Option Node
  | [], node => some node
  | name :: rest, directory entries => (entries.lookup name).bind (at? rest)
  | _ :: _, _ => none

/-- A name that an entry of a directory can have, without backslashes. -/
structure IsPlainName (name : String) : Prop where
  isName : IsName name
  noNul : '\x00' ∉ name.toList
  short : byteLength name.toList ≤ nameLimit
  noBackslash : '\\' ∉ name.toList

instance (name : String) : Decidable (IsPlainName name) :=
  decidable_of_iff (IsName name ∧ '\x00' ∉ name.toList ∧ byteLength name.toList ≤ nameLimit ∧
    '\\' ∉ name.toList)
    ⟨fun h => ⟨h.1, h.2.1, h.2.2.1, h.2.2.2⟩, fun h => ⟨h.isName, h.noNul, h.short, h.noBackslash⟩⟩

/-- A tree whose directories have plain names, each of them for one entry. -/
structure IsWellNamed (root : Node) : Prop where
  distinct {names : List String} {entries : List (String × Node)} :
    root.at? names = some (directory entries) → (entries.map Prod.fst).Nodup
  plain {names : List String} {entries : List (String × Node)} :
    root.at? names = some (directory entries) → ∀ entry ∈ entries, IsPlainName entry.1

variable {root node other : Node} {entries : List (String × Node)} {names : List String}

theorem at?_nil (node : Node) : node.at? [] = some node := rfl

theorem at?_append (front back : List String) (node : Node) :
    node.at? (front ++ back) = (node.at? front).bind (at? back) := by
  induction front generalizing node with
  | nil => rfl
  | cons name front ih =>
    cases node with
    | directory entries =>
      rw [List.cons_append, at?, at?, Option.bind_assoc]
      exact congrArg _ (funext fun child => ih child)
    | _ => rfl

theorem exists_directory_of_at? {name : String} (h : node.at? (name :: names) = some other) :
    ∃ entries child, node = directory entries ∧ entries.lookup name = some child ∧
      child.at? names = some other := by
  cases node with
  | directory entries =>
    obtain ⟨child, hc, hrest⟩ := Option.bind_eq_some_iff.mp h
    exact ⟨entries, child, rfl, hc, hrest⟩
  | _ => cases h

theorem mem_of_lookup {name : String} (h : entries.lookup name = some node) :
    (name, node) ∈ entries := by
  obtain ⟨front, back, he, -⟩ := List.lookup_eq_some_iff.mp h
  simp [he]

theorem IsWellNamed.at? (h : root.IsWellNamed) (hn : root.at? names = some node) :
    node.IsWellNamed := by
  have hat {below entries} (hb : node.at? below = some (directory entries)) :
      root.at? (names ++ below) = some (directory entries) := by
    rw [at?_append, hn]
    exact hb
  exact ⟨fun hb => h.distinct (hat hb), fun hb => h.plain (hat hb)⟩

theorem IsWellNamed.forall_mem (h : root.IsWellNamed) (hn : root.at? names = some node) :
    ∀ name ∈ names, IsPlainName name := by
  induction names generalizing root with
  | nil => simp
  | cons name names ih =>
    obtain ⟨entries, child, rfl, hc, hrest⟩ := exists_directory_of_at? hn
    have hm := mem_of_lookup hc
    have hat : (directory entries).at? [name] = some child := by simp [Node.at?, hc]
    exact List.forall_mem_cons.mpr ⟨h.plain (at?_nil _) _ hm, ih (h.at? hat) hrest⟩

theorem at?_of_leaf (h : ∀ entries, root ≠ directory entries) (hn : root.at? names = some node) :
    names = [] ∧ root = node := by
  cases names with
  | nil => exact ⟨rfl, Option.some.inj hn⟩
  | cons name names =>
    obtain ⟨entries, -, he, -, -⟩ := exists_directory_of_at? hn
    exact absurd he (h entries)

theorem isWellNamed_leaf (h : ∀ entries, root ≠ directory entries) : root.IsWellNamed where
  distinct hat := absurd (at?_of_leaf h hat).2 (h _)
  plain hat := absurd (at?_of_leaf h hat).2 (h _)

theorem isWellNamed_directory (hd : (entries.map Prod.fst).Nodup)
    (h : ∀ entry ∈ entries, IsPlainName entry.1 ∧ entry.2.IsWellNamed) :
    (directory entries).IsWellNamed := by
  have hat {names : List String} {below : List (String × Node)}
      (hb : (directory entries).at? names = some (directory below)) :
      (below.map Prod.fst).Nodup ∧ ∀ entry ∈ below, IsPlainName entry.1 := by
    cases names with
    | nil =>
      obtain rfl : entries = below := by simpa [Node.at?] using hb
      exact ⟨hd, fun entry hm => (h entry hm).1⟩
    | cons name names =>
      obtain ⟨entries', child, he, hl, hrest⟩ := exists_directory_of_at? hb
      cases he
      have hchild := (h _ (mem_of_lookup hl)).2
      exact ⟨hchild.distinct hrest, hchild.plain hrest⟩
  exact ⟨fun hb => (hat hb).1, fun hb => (hat hb).2⟩

theorem IsWellNamed.lookup_eq_some_iff (h : (directory entries).IsWellNamed) {name : String} :
    entries.lookup name = some node ↔ (name, node) ∈ entries :=
  Members.lookup_eq_some_iff_mem (h.distinct (at?_nil _))

theorem IsWellNamed.at?_cons (h : (directory entries).IsWellNamed) {entry : String × Node}
    (hm : entry ∈ entries) (names : List String) :
    (directory entries).at? (entry.1 :: names) = entry.2.at? names := by
  rw [Node.at?, h.lookup_eq_some_iff.mpr hm, Option.bind_some]

theorem IsWellNamed.entry (h : (directory entries).IsWellNamed) {entry : String × Node}
    (hm : entry ∈ entries) : entry.2.IsWellNamed := h.at? (h.at?_cons hm [])

/-! ## All places -/

/-- Whether all places of a tree that is at `p` are good. -/
def Everywhere (good : Path → Node → Prop) (p : Path) (root : Node) : Prop :=
  ∀ names node, root.at? names = some node → good (p.descend names) node

variable {good : Path → Node → Prop} {p : Path}

theorem everywhere_leaf (h : ∀ entries, root ≠ directory entries) :
    root.Everywhere good p ↔ good p root := by
  refine ⟨fun hg => hg [] root rfl, fun hg names node hat => ?_⟩
  obtain ⟨rfl, rfl⟩ := at?_of_leaf h hat
  exact hg

theorem everywhere_directory (h : (directory entries).IsWellNamed) :
    (directory entries).Everywhere good p ↔
      good p (directory entries) ∧
        ∀ entry ∈ entries, entry.2.Everywhere good (p.joinText entry.1) := by
  constructor
  · intro hg
    refine ⟨hg [] _ rfl, fun entry hm names node hat => ?_⟩
    exact hg (entry.1 :: names) node (by rwa [h.at?_cons hm])
  · rintro ⟨hroot, hentries⟩ names node hat
    cases names with
    | nil =>
      obtain rfl : directory entries = node := Option.some.inj hat
      exact hroot
    | cons name names =>
      obtain ⟨entries', child, he, hl, hrest⟩ := exists_directory_of_at? hat
      cases he
      exact hentries _ (mem_of_lookup hl) names node hrest

/-- Whether every directory of a tree that is at `p` can be opened. -/
def Opens : Path → Node → Prop :=
  Everywhere fun p node => node.isDirectory = true →
    (∃ entries, node = directory entries) ∧ byteLength p.text.toList < pathLimit

/-- Whether every file of a tree that is at `p` can be read. -/
def Reads : Path → Node → Prop :=
  Everywhere fun p node => node.isFile = true →
    (∃ content, node = file content) ∧ byteLength p.text.toList < pathLimit

/-! ## Going on from a place -/

variable {followsLast : Bool}
  {next next' : List Node → Path → List (List Char) → Except ReadError Node}
  {above stack entered : List Node} {links : Nat}

theorem IsPlainName.segment_eq {name : String} (h : IsPlainName name) :
    (name.toList.isEmpty || isDot name.toList) = false ∧ isDotDot name.toList = false ∧
      ¬nameLimit < byteLength name.toList := by
  have hi := h.isName.2
  unfold innerComponent? at hi
  refine ⟨?_, ?_, not_lt.mpr h.short⟩
  · cases he : (name.toList.isEmpty || isDot name.toList)
    · rfl
    · simp [he] at hi
  · cases hd : isDotDot name.toList
    · rfl
    · simp [hd] at hi

theorem enter_entry {name : String} (h : IsPlainName name) (hl : entries.lookup name = some node) :
    enter (directory entries :: above) name.toList = .ok (node :: directory entries :: above) := by
  obtain ⟨hidle, hup, hshort⟩ := h.segment_eq
  rw [enter, if_neg (by simp [hidle]), if_neg (by simp [hup]), if_neg hshort, String.ofList_toList,
    hl]

/-- Whether a segment has led to a link. -/
def atLink : List Node → Bool
  | link _ :: _ => true
  | _ => false

theorem reachLink_step {segment : List Char} (h : enter stack segment = .ok entered)
    (hlink : atLink entered = false) (rest : List (List Char)) :
    reachLink followsLast next stack (segment :: rest) = reachLink followsLast next entered rest := by
  rw [reachLink, h]
  split
  · next he => cases he
  · next he => cases he; cases hlink
  · next he => cases he; rfl

theorem reachLink_names (h : node.at? names = some other) (hvalid : ∀ name ∈ names, IsPlainName name)
    (hlink : other.kind ≠ .link) :
    reachLink followsLast next (node :: above) (names.map String.toList) = .ok other := by
  induction names generalizing node above with
  | nil =>
    obtain rfl : node = other := Option.some.inj h
    rfl
  | cons name names ih =>
    obtain ⟨entries, child, rfl, hc, hrest⟩ := exists_directory_of_at? h
    have hchild : atLink (child :: directory entries :: above) = false := by
      cases child with
      | link target =>
        cases names with
        | nil =>
          obtain rfl : link target = other := Option.some.inj hrest
          exact absurd rfl hlink
        | cons name names => cases hrest
      | _ => rfl
    rw [List.map_cons, reachLink_step (enter_entry (hvalid name List.mem_cons_self) hc) hchild]
    exact ih hrest fun name hm => hvalid name (List.mem_cons_of_mem _ hm)

/-- What can be said about the end of a path can be said about the path, since the way to its end
does not depend on it. By induction on the segments before the end. -/
theorem reachLink_append {tail tail' : List (List Char)}
    (hnext : ∀ above target rest, next above target (rest ++ tail) = .ok node →
      next above target (rest ++ tail') = .ok other)
    (htail : ∀ stack, reachLink true next stack tail = .ok node →
      reachLink true next stack tail' = .ok other) (front : List (List Char))
    (h : reachLink true next stack (front ++ tail) = .ok node) :
    reachLink true next stack (front ++ tail') = .ok other := by
  induction front generalizing stack with
  | nil => exact htail stack h
  | cons segment front ih =>
    rw [List.cons_append, reachLink] at h ⊢
    cases he : enter stack segment with
    | error e => simp [he] at h
    | ok entered =>
      rw [he] at h
      cases entered with
      | nil => exact ih h
      | cons here above =>
        cases here with
        | link target =>
          simp only [Bool.not_true, Bool.and_false, Bool.false_eq_true, if_false] at h ⊢
          exact hnext _ _ _ h
        | _ => exact ih h

theorem reach_append {tail tail' : List (List Char)}
    (htail : ∀ next stack, reachLink true next stack tail = .ok node →
      reachLink true next stack tail' = .ok other) (front : List (List Char))
    (h : reach true links stack (front ++ tail) = .ok node) :
    reach true links stack (front ++ tail') = .ok other := by
  induction links generalizing stack front with
  | zero => exact reachLink_append (fun _ _ _ h => by cases h) (htail _) front h
  | succ links ih =>
    refine reachLink_append (fun above target rest h => ?_) (htail _) front h
    rw [← List.append_assoc] at h ⊢
    exact ih _ h

/-- Where a path leads to a directory, names behind the path lead on from it. An empty segment at the
end of the path makes no difference. -/
theorem reach_names (h : (directory entries).at? names = some other)
    (hvalid : ∀ name ∈ names, IsPlainName name) (hlink : other.kind ≠ .link)
    {front segments : List (List Char)} (hs : segments = front ∨ segments = front ++ [[]])
    (hr : reach true links stack segments = .ok (directory entries)) :
    reach true links stack (front ++ names.map String.toList) = .ok other := by
  rcases hs with rfl | rfl
  · have htail : reach true links stack (segments ++ []) = .ok (directory entries) := by
      rwa [List.append_nil]
    refine reach_append (fun next stack ht => ?_) segments htail
    cases stack with
    | nil => cases ht
    | cons here above =>
      obtain rfl : here = directory entries := Except.ok.inj ht
      exact reachLink_names h hvalid hlink
  · refine reach_append (fun next stack ht => ?_) front hr
    cases stack with
    | nil => cases ht
    | cons here above =>
      cases here with
      | directory entries' =>
        obtain rfl : entries' = entries := by simpa [reachLink, enter] using ht
        exact reachLink_names h hvalid hlink
      | _ => simp [reachLink, enter] at ht

/-! ## Links at the end -/

/-- A place is where a path leads by itself unless a link is there. -/
theorem reachLink_false (hnext : ∀ above target rest, next above target rest = .ok node →
      next' above target rest = .ok node ∨ ∃ aim, next' above target rest = .ok (link aim))
    {segments : List (List Char)} (h : reachLink true next stack segments = .ok node) :
    reachLink false next' stack segments = .ok node ∨
      ∃ aim, reachLink false next' stack segments = .ok (link aim) := by
  induction segments generalizing stack with
  | nil =>
    cases stack with
    | nil => cases h
    | cons here above => exact .inl h
  | cons segment rest ih =>
    rw [reachLink] at h ⊢
    cases he : enter stack segment with
    | error e => simp [he] at h
    | ok entered =>
      rw [he] at h
      cases entered with
      | nil => exact ih h
      | cons here above =>
        cases here with
        | link target =>
          dsimp only at h ⊢
          rw [if_neg (by simp)] at h
          split
          · exact .inr ⟨target, rfl⟩
          · exact hnext _ _ _ h
        | _ => exact ih h

theorem reach_false {segments : List (List Char)} (h : reach true links stack segments = .ok node) :
    reach false links stack segments = .ok node ∨
      ∃ aim, reach false links stack segments = .ok (link aim) := by
  induction links generalizing stack segments with
  | zero => exact reachLink_false (fun _ _ _ h => by cases h) h
  | succ links ih => exact reachLink_false (fun _ _ _ h => ih h) h

theorem lookUp_eq_ok_iff {base p : Path} : root.lookUp followsLast base p = .ok node ↔
    '\x00' ∉ p.text.toList ∧ p.text ≠ "" ∧ byteLength p.text.toList < pathLimit ∧
      reach followsLast linkLimit [root] (absolutize base p).segments = .ok node := by
  unfold lookUp
  split
  · next h => simp_all
  · next hnul =>
    split
    · next h => simp [h]
    · next hne =>
      split
      · next h => simp [not_lt.mpr h]
      · next hshort => simp_all

end Node

namespace FileTree

variable {t : FileTree} {p : Path} {node other : Node} {names : List String}

theorem locate_of_find (h : t.find p = .ok node) :
    t.locate p = .ok node ∨ ∃ target, t.locate p = .ok (.link target) := by
  obtain ⟨hnul, hne, hshort, hr⟩ := Node.lookUp_eq_ok_iff.mp h
  rcases Node.reach_false hr with hr | ⟨target, hr⟩
  · exact .inl (Node.lookUp_eq_ok_iff.mpr ⟨hnul, hne, hshort, hr⟩)
  · exact .inr ⟨target, Node.lookUp_eq_ok_iff.mpr ⟨hnul, hne, hshort, hr⟩⟩

theorem exists_find_eq_error (h : Node.pathLimit ≤ byteLength p.text.toList) :
    ∃ e, t.find p = .error e := by
  cases hf : t.find p with
  | error e => exact ⟨e, rfl⟩
  | ok node => exact absurd (Node.lookUp_eq_ok_iff.mp hf).2.2.1 (not_lt.mpr h)

theorem nul_notMem_descend (hp : '\x00' ∉ p.text.toList)
    (h : ∀ name ∈ names, Node.IsPlainName name) : '\x00' ∉ (p.descend names).text.toList := by
  by_cases hne : names = []
  · simpa [hne, descend] using hp
  · have hnames : ∀ name ∈ names, IsName name := fun name hm => (h name hm).isName
    have hb : '\x00' ∉ (ofNames false names).text.toList :=
      notMem_ofNames false (by decide) fun name hm => (h name hm).noNul
    rw [descend_eq_join p hne hnames, join_of_relative (isAbsolute_ofNames false hnames)]
    simp only [String.toList_append, List.mem_append, hp, hb, glue]
    split <;> simp

/-- A path leads to a directory, so names behind the path lead to what is below the directory. -/
theorem find_descend (hf : t.find p = .ok node) (hn : node.IsWellNamed)
    (h : node.at? names = some other) (hlink : other.kind ≠ .link)
    (hshort : byteLength (p.descend names).text.toList < Node.pathLimit) :
    t.find (p.descend names) = .ok other := by
  have hvalid : ∀ name ∈ names, Node.IsPlainName name := hn.forall_mem h
  have hnames : ∀ name ∈ names, IsName name := fun name hm => (hvalid name hm).isName
  obtain ⟨hnul, hne, -, hr⟩ := Node.lookUp_eq_ok_iff.mp hf
  cases names with
  | nil =>
    obtain rfl : node = other := Option.some.inj h
    exact hf
  | cons name names =>
    obtain ⟨entries, -, rfl, -, -⟩ := Node.exists_directory_of_at? h
    have hjoin := descend_eq_join p (List.cons_ne_nil name names) hnames
    have habsolute := isAbsolute_ofNames false hnames
    refine Node.lookUp_eq_ok_iff.mpr ⟨nul_notMem_descend hnul hvalid, ?_, hshort, ?_⟩
    · rw [Ne, text_eq_empty_iff, components_descend hne hnames]
      simp
    · have hbase : (absolutize t.workingDirectory p).text ≠ "" := text_absolutize_ne_empty hne _
      obtain ⟨first, rest, c, hsegments, hp, -, -⟩ := exists_segments_join hbase
      rw [hjoin, absolutize_join hne habsolute, hsegments _ habsolute,
        segments_ofNames (List.cons_ne_nil name names) fun name hm => (hnames name hm).1]
      exact Node.reach_names h hvalid hlink hp hr

end FileTree

end ModuleLoader
