import Mathlib.Data.Set.Card
import Mathlib.Data.String.Basic
import ModuleLoader.Proofs.Path.Cancelled
import ModuleLoader.Proofs.Source.Spelling

/-! Bundles as maps. A bundle holds what was put in last under each canonical name, and all spellings
of that name find it. -/

namespace ModuleLoader

open ModuleLoader.Path Text

theorem isSome_lookup_iff {files : List (String × ByteArray)} {key : String} :
    (files.lookup key).isSome = true ↔ key ∈ files.map Prod.fst := by
  rw [Option.isSome_iff_ne_none, Ne, List.lookup_eq_none_iff, List.mem_map]
  constructor
  · intro h
    by_contra hcon
    exact h fun file hm => by simpa using fun he => hcon ⟨file, hm, Eq.symm he⟩
  · rintro ⟨file, hm, rfl⟩ h
    simpa using h file hm

namespace Bundle

variable {entries : List (String × ByteArray)} {key other : String} {content : ByteArray}

/-! ## Entries -/

theorem lookup_insertEntry (key other : String) (content : ByteArray)
    (entries : List (String × ByteArray)) :
    (insertEntry key content entries).lookup other =
      if other = key then some content else entries.lookup other := by
  have hfront (entries : List (String × ByteArray)) : ((key, content) :: entries).lookup other =
      if other = key then some content else entries.lookup other := by
    rw [List.lookup_cons]
    by_cases h : other = key
    · simp [h]
    · have h' : (other == key) = false := by simpa using h
      simp [h, h']
  induction entries with
  | nil => exact hfront []
  | cons entry rest ih =>
    obtain ⟨k, c⟩ := entry
    unfold insertEntry
    split
    · exact hfront ((k, c) :: rest)
    · split
      · next hk =>
        subst hk
        by_cases h : other = k
        · simp [h]
        · have h' : (other == k) = false := by simpa using h
          simp [List.lookup_cons, h, h']
      · next hk =>
        rw [List.lookup_cons, List.lookup_cons, ih]
        by_cases h : other = k
        · simp [h, hk]
        · have h' : (other == k) = false := by simpa using h
          simp [h']

theorem mem_keys_insertEntry : other ∈ (insertEntry key content entries).map Prod.fst ↔
    other = key ∨ other ∈ entries.map Prod.fst := by
  rw [← isSome_lookup_iff, ← isSome_lookup_iff, lookup_insertEntry]
  by_cases h : other = key <;> simp [h]

theorem pairwise_insertEntry (h : (entries.map Prod.fst).Pairwise (· < ·)) :
    ((insertEntry key content entries).map Prod.fst).Pairwise (· < ·) := by
  induction entries with
  | nil => simp [insertEntry]
  | cons entry rest ih =>
    obtain ⟨k, c⟩ := entry
    obtain ⟨hk, hrest⟩ := List.pairwise_cons.mp h
    unfold insertEntry
    split
    · next hlt =>
      refine List.pairwise_cons.mpr ⟨fun other hm => ?_, h⟩
      rcases List.mem_cons.mp hm with rfl | hm
      · exact hlt
      · exact lt_trans hlt (hk other hm)
    · split
      · next he =>
        subst he
        exact h
      · next hnot hne =>
        have hlt : k < key := lt_of_le_of_ne (not_lt.mp hnot) hne
        refine List.pairwise_cons.mpr ⟨fun other hm => ?_, ih hrest⟩
        rcases mem_keys_insertEntry.mp hm with rfl | hm
        · exact hlt
        · exact hk other hm

/-! ## Canonical names -/

/-- What a bundle takes a path for: backslashes are slashes, and slashes in front are dropped. -/
def below (p : Path) : Path := ⟨String.ofList (p.display.toList.dropWhile (· == '/'))⟩

/-- Whether a text is the canonical name of a path, which is what is left once every `..` has taken
a name back. A path that climbs above the bundle has none. -/
def IsKey (p : Path) (key : String) : Prop :=
  ¬Climbs (below p).components ∧ key = "/".intercalate (survivors (below p).components)

theorem canonical?_eq_normalize? (p : Path) : canonical? p = (below p).normalize? := rfl

theorem isAbsolute_below (p : Path) : (below p).isAbsolute = false := isAbsolute_dropWhile_slash _

theorem backslash_notMem_below (p : Path) : '\\' ∉ (below p).text.toList := by
  rw [below, String.toList_ofList]
  exact fun hm => backslash_notMem_forwardSlashes p.text ((List.dropWhile_sublist _).subset hm)

/-- A relative path without backslashes stands for itself. -/
theorem below_eq_self {p : Path} (hr : p.isAbsolute = false) (hb : '\\' ∉ p.text.toList) :
    below p = p := by
  have hd : p.text.toList.dropWhile (· == '/') = p.text.toList := by
    cases hs : p.text.toList with
    | nil => rfl
    | cons c r =>
      have hc : c ≠ '/' := by
        rintro rfl
        simp [isAbsolute, hs, startsWith_singleton] at hr
      simp [hc]
  rw [below, display, forwardSlashes_eq_self hb, hd, String.ofList_toList]

theorem canonical?_spec {p q : Path} (h : canonical? p = some q) :
    q = ofNames false (survivors (below p).components) ∧ '\\' ∉ q.text.toList ∧ canonical? q = some q := by
  rw [canonical?_eq_normalize?] at h
  obtain ⟨hq, hmem⟩ := eq_ofNames_of_normalize? h
  rw [isAbsolute_below] at hq
  have hnames : ∀ name ∈ survivors (below p).components, IsName name := fun name hm =>
    isName_of_mem_components (hmem name hm)
  have hb : '\\' ∉ q.text.toList := by
    rw [hq]
    refine notMem_ofNames false (by decide) fun name hm hc => backslash_notMem_below p ?_
    have hi : .name name ∈ (below p).inner := by
      rw [inner_eq]
      exact List.mem_filter.mpr ⟨hmem name hm, rfl⟩
    exact mem_text_of_mem_name hi hc
  refine ⟨hq, hb, ?_⟩
  rw [canonical?_eq_normalize?, below_eq_self (by rw [hq, isAbsolute_ofNames false hnames]) hb, hq,
    normalize?_ofNames false hnames]

theorem canonical?_eq_none_iff {p : Path} : canonical? p = none ↔ Climbs (below p).components := by
  rw [canonical?_eq_normalize?, normalize?_eq_none_iff, isAbsolute_below]
  simp

theorem key?_eq_some_iff {p : Path} : key? p = some key ↔ IsKey p key := by
  rw [key?, IsKey, ← canonical?_eq_none_iff]
  cases hc : canonical? p with
  | none => simp
  | some q =>
    obtain ⟨hq, hb, -⟩ := canonical?_spec hc
    have ht : q.display = "/".intercalate (survivors (below p).components) := by
      rw [display, forwardSlashes_eq_self hb, hq]
      simp [ofNames]
    simp [ht, eq_comm]

/-- A canonical name is its own canonical name. -/
theorem IsKey.isKey_self {p : Path} (h : IsKey p key) : IsKey ⟨key⟩ key := by
  rw [← key?_eq_some_iff] at h ⊢
  obtain ⟨q, hq, rfl⟩ := Option.map_eq_some_iff.mp h
  obtain ⟨-, hb, hself⟩ := canonical?_spec hq
  have hd : q.display = q.text := forwardSlashes_eq_self hb
  rw [hd, key?, show canonical? ⟨q.text⟩ = some q from hself, Option.map_some, hd]

/-! ## Insertions -/

/-- Whether a path is accepted for insertion, and the name that it is put under. It may not be that
of the bundle's root. -/
def IsAccepted (path key : String) : Prop := IsKey ⟨path⟩ key ∧ key ≠ ""

/-- Whether the last of some insertions under a name put this content there. -/
def LastInserted (files : List (String × ByteArray)) (key : String) (content : ByteArray) : Prop :=
  ∃ front path back, files = front ++ (path, content) :: back ∧ IsAccepted path key ∧
    ∀ file ∈ back, ¬IsAccepted file.1 key

theorem insert?_eq_some_iff {b b' : Bundle} {path : String} : b.insert? path content = some b' ↔
    ∃ key, IsAccepted path key ∧ b' = ⟨insertEntry key content b.entries⟩ := by
  simp only [IsAccepted, ← key?_eq_some_iff]
  unfold insert?
  cases hk : key? ⟨path⟩ with
  | none => simp
  | some key => by_cases hne : key = "" <;> simp [hne, eq_comm]

theorem insert_of_isAccepted (b : Bundle) {path : String} (h : IsAccepted path key) :
    b.insert path content = ⟨insertEntry key content b.entries⟩ := by
  rw [insert, insert?_eq_some_iff.mpr ⟨key, h, rfl⟩, Option.getD_some]

theorem insert_of_not_isAccepted (b : Bundle) {path : String} (h : ∀ key, ¬IsAccepted path key) :
    b.insert path content = b := by
  cases hi : b.insert? path content with
  | none => rw [insert, hi, Option.getD_none]
  | some b' =>
    obtain ⟨key, ha, -⟩ := insert?_eq_some_iff.mp hi
    exact absurd ha (h key)

theorem IsAccepted.eq {path : String} (h : IsAccepted path key) (h' : IsAccepted path other) :
    key = other := by
  have hk := key?_eq_some_iff.mpr h.1
  rw [key?_eq_some_iff.mpr h'.1] at hk
  exact (Option.some.inj hk).symm

theorem ofEntries_concat (files : List (String × ByteArray)) (path : String) (content : ByteArray) :
    ofEntries (files ++ [(path, content)]) = (ofEntries files).insert path content := by
  simp [ofEntries, List.foldl_append]

theorem not_lastInserted_nil : ¬LastInserted [] key content := by
  rintro ⟨front, path, back, he, -⟩
  simp at he

/-- The last insertion decides if it is under the name. -/
theorem lastInserted_concat {files : List (String × ByteArray)} {path : String}
    {last : ByteArray} : LastInserted (files ++ [(path, last)]) key content ↔
      (IsAccepted path key ∧ content = last) ∨ (¬IsAccepted path key ∧ LastInserted files key content) := by
  constructor
  · rintro ⟨front, name, back, he, ha, hback⟩
    cases back using List.reverseRecOn with
    | nil =>
      obtain ⟨rfl, hl⟩ := List.append_inj' he rfl
      obtain ⟨rfl, rfl⟩ : path = name ∧ last = content := by simpa using hl
      exact .inl ⟨ha, rfl⟩
    | append_singleton back file =>
      have he' : files ++ [(path, last)] = (front ++ (name, content) :: back) ++ [file] := by simpa using he
      obtain ⟨rfl, hl⟩ := List.append_inj' he' rfl
      obtain rfl : (path, last) = file := by simpa using hl
      refine .inr ⟨hback (path, last) (by simp), front, name, back, rfl, ha, fun file hm => hback file ?_⟩
      exact List.mem_append_left _ hm
  · rintro (⟨ha, rfl⟩ | ⟨hn, front, name, back, rfl, ha, hback⟩)
    · exact ⟨files, path, [], rfl, ha, by simp⟩
    · refine ⟨front, name, back ++ [(path, last)], by simp, ha, fun file hm => ?_⟩
      rcases List.mem_append.mp hm with hm | hm
      · exact hback file hm
      · rw [List.mem_singleton.mp hm]
        exact hn

/-- By induction on the insertions, the last one first. -/
theorem lookup_ofEntries_eq_some_iff {files : List (String × ByteArray)} :
    (ofEntries files).entries.lookup key = some content ↔ LastInserted files key content := by
  induction files using List.reverseRecOn with
  | nil => simp [ofEntries, empty, not_lastInserted_nil]
  | append_singleton files file ih =>
    obtain ⟨path, last⟩ := file
    rw [ofEntries_concat, lastInserted_concat]
    by_cases ha : ∃ name, IsAccepted path name
    · obtain ⟨name, ha⟩ := ha
      rw [insert_of_isAccepted _ ha, lookup_insertEntry]
      by_cases hk : key = name
      · subst hk
        simp [ha, eq_comm]
      · have hn : ¬IsAccepted path key := fun h => hk (h.eq ha)
        simp [hk, hn, ih]
    · have hn : ∀ key, ¬IsAccepted path key := fun key h => ha ⟨key, h⟩
      rw [insert_of_not_isAccepted _ hn]
      simp [hn, ih]

theorem pairwise_keys_ofEntries (files : List (String × ByteArray)) :
    (ofEntries files).keys.Pairwise (· < ·) := by
  induction files using List.reverseRecOn with
  | nil => exact List.Pairwise.nil
  | append_singleton files file ih =>
    obtain ⟨path, last⟩ := file
    rw [ofEntries_concat]
    by_cases ha : ∃ name, IsAccepted path name
    · obtain ⟨name, ha⟩ := ha
      rw [insert_of_isAccepted _ ha]
      exact pairwise_insertEntry ih
    · rw [insert_of_not_isAccepted _ fun key h => ha ⟨key, h⟩]
      exact ih

theorem mem_keys_ofEntries_iff {files : List (String × ByteArray)} :
    key ∈ (ofEntries files).keys ↔ ∃ file ∈ files, IsAccepted file.1 key := by
  induction files using List.reverseRecOn with
  | nil => simp [ofEntries, empty, keys]
  | append_singleton files file ih =>
    obtain ⟨path, last⟩ := file
    rw [ofEntries_concat]
    by_cases ha : ∃ name, IsAccepted path name
    · obtain ⟨name, ha⟩ := ha
      have hp : IsAccepted path key ↔ key = name := ⟨fun h => h.eq ha, fun h => h ▸ ha⟩
      rw [insert_of_isAccepted _ ha, keys, mem_keys_insertEntry]
      simp [or_and_right, exists_or, hp, ← ih, keys, or_comm]
    · have hn : ∀ key, ¬IsAccepted path key := fun key h => ha ⟨key, h⟩
      rw [insert_of_not_isAccepted _ hn, ih]
      simp [or_and_right, exists_or, hn]

theorem find?_eq_some_iff {files : List (String × ByteArray)} {q : Path} :
    (ofEntries files).find? q = some content ↔ ∃ key, IsKey q key ∧ LastInserted files key content := by
  simp only [find?, Option.bind_eq_some_iff, key?_eq_some_iff, lookup_ofEntries_eq_some_iff]

theorem read_eq_ok_iff {b : Bundle} {q : Path} :
    b.read q = .ok content ↔ b.find? q = some content := by
  unfold Bundle.read
  cases b.find? q <;> simp

theorem read_of_find?_eq_none {b : Bundle} {q : Path} (h : b.find? q = none) :
    b.read q = .error (.notInBundle q.text) := by
  unfold Bundle.read
  rw [h]

theorem existsFile_iff {b : Bundle} {q : Path} :
    b.existsFile q = true ↔ ∃ content, b.read q = .ok content := by
  simp only [existsFile, Option.isSome_iff_exists, read_eq_ok_iff]

theorem size_ofEntries (files : List (String × ByteArray)) :
    (ofEntries files).size = {key | ∃ file ∈ files, IsAccepted file.1 key}.ncard := by
  have hset : {key | ∃ file ∈ files, IsAccepted file.1 key} =
      ((ofEntries files).keys.toFinset : Set String) := by
    ext key
    simp [mem_keys_ofEntries_iff]
  have hnodup : (ofEntries files).keys.Nodup := (pairwise_keys_ofEntries files).imp ne_of_lt
  rw [hset, Set.ncard_coe_finset, List.toFinset_card_of_nodup hnodup, keys, List.length_map, size]

/-- The normal form of a path in a bundle is written as its canonical name. -/
theorem isKey_of_canonical? {p q : Path} (h : canonical? p = some q) : IsKey p q.text := by
  obtain ⟨-, hb, -⟩ := canonical?_spec h
  rw [← key?_eq_some_iff, key?, h, Option.map_some, display, forwardSlashes_eq_self hb]

theorem find?_of_canonical? (b : Bundle) {p q : Path} (h : canonical? p = some q) :
    b.find? q = b.find? p := by
  rw [find?, find?, key?, key?, (canonical?_spec h).2.2, h]

/-- A bundle is a map over canonical names. Insertions are accepted for paths that have such a name
other than the root's. Under any path that has the name the last content put there is read and every
other path is not found. Directories exist by their marker files, names are listed in increasing
order, and a resolver takes paths for the same names. -/
theorem maps_canonical_names (files : List (String × ByteArray)) (root workingDirectory : Path)
    (extensions : List String) :
    let b := ofEntries files
    (∀ path content, (b.insert? path content).isSome = true ↔ ∃ key, IsAccepted path key) ∧
    (∀ path content, (∀ key, ¬IsAccepted path key) → b.insert path content = b) ∧
    (∀ q content, b.read q = .ok content ↔ ∃ key, IsKey q key ∧ LastInserted files key content) ∧
    (∀ q, (∀ content, b.read q ≠ .ok content) → ∃ e, b.read q = .error e ∧ e.kind = "NotFound") ∧
    (∀ q, b.existsFile q = true ↔ ∃ content, b.read q = .ok content) ∧
    (∀ q, b.existsDir q = true ↔ ∃ name ∈ ["package.json", "index.js", "index.mjs", "index.cjs"],
      b.existsFile (q.joinText name) = true) ∧
    b.keys.Pairwise (· < ·) ∧ (∀ key ∈ b.keys, IsKey ⟨key⟩ key) ∧
    b.size = {key | ∃ file ∈ files, IsAccepted file.1 key}.ncard ∧
    let r : Resolver Id := ⟨b.toSource, root, extensions, workingDirectory⟩
    (∀ q, (r.normalize? q).isSome = true ↔ ∃ key, IsKey q key) ∧
    ∀ q n, r.normalize? q = some n → IsKey q n.text ∧ b.existsFile n = b.existsFile q := by
  intro b
  refine ⟨fun path content => ?_, fun path content => b.insert_of_not_isAccepted, fun q content => ?_,
    fun q hq => ?_, fun q => existsFile_iff, fun q => ?_, pairwise_keys_ofEntries files,
    fun key hk => ?_, size_ofEntries files, fun q => ?_, fun q n hn => ?_⟩
  · simp only [Option.isSome_iff_exists, insert?_eq_some_iff]
    constructor
    · rintro ⟨b', key, ha, -⟩
      exact ⟨key, ha⟩
    · rintro ⟨key, ha⟩
      exact ⟨_, key, ha, rfl⟩
  · rw [read_eq_ok_iff, find?_eq_some_iff]
  · have hnone : b.find? q = none := by
      cases hf : b.find? q with
      | none => rfl
      | some content => exact absurd (read_eq_ok_iff.mpr hf) (hq content)
    exact ⟨.notInBundle q.text, read_of_find?_eq_none hnone, rfl⟩
  · rw [existsDir, List.any_eq_true]
    rfl
  · obtain ⟨file, -, ha⟩ := mem_keys_ofEntries_iff.mp hk
    exact ha.1.isKey_self
  · simp only [← key?_eq_some_iff, ← Option.isSome_iff_exists]
    rw [key?, Option.isSome_map]
    rfl
  · exact ⟨isKey_of_canonical? hn, by rw [existsFile, existsFile, b.find?_of_canonical? hn]⟩

end Bundle

end ModuleLoader
