import ModuleLoader.Proofs.CommonJs.Assignments
import ModuleLoader.Proofs.Source.Entries

/-! All names that a text exports: they are in order, more text adds to them only, and an assignment
is missed only where it is chained to one that is found. -/

namespace ModuleLoader.CommonJs

open Text

variable {s name rest inside more : List Char} {length : Nat}

theorem after?_append {lead : List Char} (h : after? lead s = some rest) (more : List Char) :
    after? lead (s ++ more) = some (rest ++ more) := by
  rw [after?_eq_some_iff.mp h, List.append_assoc]
  exact after?_eq_some_iff.mpr rfl

/-- What is found behind blanks is found there with more text. -/
theorem trimStart_append_of_some {α : Type} {find? : List Char → Option α} {found : α}
    (hnil : find? [] = none) (h : find? (trimStart s) = some found) (more : List Char) :
    trimStart (s ++ more) = trimStart s ++ more := by
  refine trimStart_append_of_ne_nil ?_ more
  intro he
  rw [he, hnil] at h
  cases h

theorem after?_trimStart_append {a : Char} {lead : List Char}
    (h : after? (a :: lead) (trimStart s) = some rest) (more : List Char) :
    after? (a :: lead) (trimStart (s ++ more)) = some (rest ++ more) := by
  rw [trimStart_append_of_some rfl h]
  exact after?_append h more

/-! ## Definitions -/

theorem exportsObject?_trimStart_append (h : exportsObject? (trimStart s) = some rest)
    (more : List Char) : exportsObject? (trimStart (s ++ more)) = some (rest ++ more) := by
  rw [trimStart_append_of_some rfl h]
  obtain ⟨object, hobject, hs⟩ := exists_object_of_exportsObject? h
  rw [hs, List.append_assoc]
  exact (exportsObject?_append hobject _).1

theorem quoteMark?_append (h : quoteMark? s = some rest) (more : List Char) :
    quoteMark? (s ++ more) = some (rest ++ more) := by
  cases s with
  | nil => cases h
  | cons c r =>
    rw [quoteMark?] at h
    by_cases hc : (c == '"' || c == '\'') = true
    · rw [if_pos hc] at h
      cases h
      exact if_pos hc
    · rw [if_neg hc] at h
      cases h

theorem namePart?_append_of_ne_nil (h : namePart? s = some (name, rest)) (hrest : rest ≠ [])
    (more : List Char) : namePart? (s ++ more) = some (name, rest ++ more) := by
  obtain ⟨hs, hne, hname, hstop⟩ := eq_append_of_namePart? h
  rw [hs, List.append_assoc]
  refine namePart?_append hne hname ?_
  obtain ⟨c, r, rfl⟩ := List.exists_cons_of_ne_nil hrest
  cases hc : isNamePart c with
  | true => simp [hc] at hstop
  | false => simp [hc]

theorem definedName?_append (h : definedName? s = some name) (more : List Char) :
    definedName? (s ++ more) = some name := by
  unfold definedName? at h
  obtain ⟨call, hcall, h⟩ := Option.bind_eq_some_iff.mp h
  obtain ⟨args, hargs, h⟩ := Option.bind_eq_some_iff.mp h
  obtain ⟨object, hobject, h⟩ := Option.bind_eq_some_iff.mp h
  obtain ⟨comma, hcomma, h⟩ := Option.bind_eq_some_iff.mp h
  obtain ⟨quoted, hquoted, h⟩ := Option.bind_eq_some_iff.mp h
  obtain ⟨⟨found, closing⟩, hname, h⟩ := Option.bind_eq_some_iff.mp h
  obtain ⟨back, hback, h⟩ := Option.bind_eq_some_iff.mp h
  cases h
  have hclosing : closing ≠ [] := by
    rintro rfl
    cases hback
  have hq : quoteMark? (trimStart (comma ++ more)) = some (quoted ++ more) := by
    rw [trimStart_append_of_some rfl hquoted]
    exact quoteMark?_append hquoted more
  simp only [definedName?, Option.bind_eq_bind, after?_append hcall, Option.bind_some,
    after?_trimStart_append hargs, exportsObject?_trimStart_append hobject,
    after?_trimStart_append hcomma, hq, namePart?_append_of_ne_nil hname hclosing,
    quoteMark?_append hback, Option.pure_def]

theorem definedNames_subset_append (s more : List Char) :
    definedNames s ⊆ definedNames (s ++ more) := by
  induction s with
  | nil => exact List.nil_subset _
  | cons c r ih =>
    rw [definedNames, List.cons_append, definedNames]
    refine List.append_subset.mpr ⟨?_, List.Subset.trans ih (List.subset_append_right _ _)⟩
    intro name hm
    have hname := definedName?_append (Option.mem_toList.mp hm) more
    exact List.mem_append_left _ (Option.mem_toList.mpr hname)

/-! ## Objects -/

/-- What stands in front of the entries of an exported object. -/
structure ObjectLead where
  before : List Char
  after : List Char
  blankBefore : AllBlank before
  blankAfter : AllBlank after

def ObjectLead.text (l : ObjectLead) : List Char :=
  "module.exports".toList ++ (l.before ++ '=' :: (l.after ++ ['\x7b']))

theorem ObjectLead.text_append (l : ObjectLead) (rest : List Char) : l.text ++ rest =
    "module.exports".toList ++ (l.before ++ '=' :: (l.after ++ '\x7b' :: rest)) := by
  unfold text
  rw [List.append_assoc, List.append_assoc, List.cons_append, List.append_assoc,
    List.singleton_append]

theorem ObjectLead.length_text (l : ObjectLead) : l.text.length =
    "module.exports".length + l.before.length + 1 + l.after.length + 1 := by
  unfold text
  rw [List.length_append, String.length_toList, List.length_append, List.length_cons,
    List.length_append, List.length_singleton]
  omega

theorem exportedObject?_text (l : ObjectLead) (h : '\x7d' ∉ inside) (back : List Char) :
    exportedObject? (l.text ++ (inside ++ '\x7d' :: back)) =
      some (inside, l.text.length + inside.length + 1) := by
  let entries := inside ++ '\x7d' :: back
  have hpass : ∀ c ∈ inside, (c != '\x7d') = true := fun c hc =>
    bne_iff_ne.mpr fun he => h (he ▸ hc)
  have htake : entries.takeWhile (· != '\x7d') = inside := by
    rw [List.takeWhile_append_of_pos hpass]
    simp
  have hdrop : entries.dropWhile (· != '\x7d') = '\x7d' :: back := by
    rw [List.dropWhile_append_of_pos hpass]
    simp
  let body := l.after ++ '\x7b' :: entries
  let value := l.before ++ '=' :: body
  have hvalue : after? "module.exports".toList (l.text ++ entries) = some value :=
    after?_eq_some_iff.mpr (l.text_append entries)
  have hbody : after? ['='] (trimStart value) = some body := by
    rw [trimStart_append_of_blank l.blankBefore, trimStart_of_not_blank (by decide)]
    rfl
  have hentries : after? ['\x7b'] (trimStart body) = some entries := by
    rw [trimStart_append_of_blank l.blankAfter, trimStart_of_not_blank (by decide)]
    rfl
  have hbefore : blankCount value = l.before.length := blankCount_append l.blankBefore (by decide) _
  have hafter : blankCount body = l.after.length := blankCount_append l.blankAfter (by decide) _
  show exportedObject? (l.text ++ entries) = _
  simp only [exportedObject?, Option.bind_eq_bind, hvalue, Option.bind_some, hbody, hentries, htake,
    hdrop, hbefore, hafter, List.isEmpty_cons, l.length_text, Bool.false_eq_true, if_false,
    Option.pure_def]

theorem exists_lead_of_exportedObject? (h : exportedObject? s = some (inside, length)) :
    ∃ (l : ObjectLead) (back : List Char), s = l.text ++ (inside ++ '\x7d' :: back) ∧
      '\x7d' ∉ inside ∧ length = l.text.length + inside.length + 1 := by
  have hfound := h
  unfold exportedObject? at h
  obtain ⟨value, hvalue, h⟩ := Option.bind_eq_some_iff.mp h
  obtain ⟨body, hbody, h⟩ := Option.bind_eq_some_iff.mp h
  obtain ⟨entries, hentries, h⟩ := Option.bind_eq_some_iff.mp h
  obtain ⟨before, hbefore, hgap⟩ := exists_trimStart value
  obtain ⟨after, hafter, hgap'⟩ := exists_trimStart body
  rw [after?_eq_some_iff.mp hbody] at hgap
  rw [after?_eq_some_iff.mp hentries] at hgap'
  let l : ObjectLead := ⟨before, after, hbefore, hafter⟩
  have hs : s = l.text ++ entries := by
    rw [after?_eq_some_iff.mp hvalue, hgap, hgap']
    exact (l.text_append entries).symm
  have hinside : '\x7d' ∉ entries.takeWhile (· != '\x7d') := fun hm =>
    absurd (List.mem_takeWhile_imp hm) (by decide)
  cases hdrop : entries.dropWhile (· != '\x7d') with
  | nil =>
    rw [hdrop] at h
    cases h
  | cons c back =>
    have hc : c = '\x7d' := by
      have hhead := List.head_dropWhile_not (· != '\x7d') (l := entries) (by simp [hdrop])
      simpa [hdrop] using hhead
    have hsplit : entries = entries.takeWhile (· != '\x7d') ++ '\x7d' :: back := by
      rw [← hc, ← hdrop, hc, List.takeWhile_append_dropWhile]
    rw [hs, hsplit, exportedObject?_text l hinside] at hfound
    cases hfound
    exact ⟨l, back, by rw [hs, ← hsplit], hinside, rfl⟩

theorem ObjectLead.notMem_text (l : ObjectLead) : '\x7d' ∉ l.text := by
  have hblank {gap : List Char} (hgap : AllBlank gap) : '\x7d' ∉ gap := fun h =>
    absurd (hgap _ h) (by decide)
  unfold text
  simp [hblank l.blankBefore, hblank l.blankAfter]

theorem keysOfObject?_append {m : List (List Char) × Nat} (h : m ∈ keysOfObject? s)
    (more : List Char) : keysOfObject? (s ++ more) = some m := by
  obtain ⟨⟨inside, length⟩, hobject, rfl⟩ := Option.map_eq_some_iff.mp h
  obtain ⟨l, back, rfl, hinside, rfl⟩ := exists_lead_of_exportedObject? hobject
  have htext : l.text ++ (inside ++ '\x7d' :: back) ++ more =
      l.text ++ (inside ++ '\x7d' :: (back ++ more)) := by simp
  rw [keysOfObject?, htext, exportedObject?_text l hinside]
  rfl

theorem mem_of_keysOfObject? {m : List (List Char) × Nat} (h : m ∈ keysOfObject? s) :
    '\x7d' ∈ s := by
  obtain ⟨⟨inside, length⟩, hobject, -⟩ := Option.map_eq_some_iff.mp h
  obtain ⟨l, back, rfl, -, -⟩ := exists_lead_of_exportedObject? hobject
  simp

theorem objectKeys_subset_append (s more : List Char) :
    objectKeysFrom 0 s ⊆ objectKeysFrom 0 (s ++ more) := by
  rw [objectKeysFrom_eq, objectKeysFrom_eq]
  refine scanFrom_subset_append (fun s m hm => keysOfObject?_append hm more) ?_ 0
  intro c r hnone hsome
  obtain ⟨m, hmore⟩ := Option.ne_none_iff_exists'.mp hsome
  obtain ⟨⟨inside, length⟩, hobject, -⟩ := Option.map_eq_some_iff.mp hmore
  obtain ⟨l, back, hwhole, hinside, -⟩ := exists_lead_of_exportedObject? hobject
  rw [← List.append_assoc] at hwhole
  have hlead : '\x7d' ∉ l.text ++ inside := by simp [l.notMem_text, hinside]
  -- The brace that closes the object stands in the text that is appended.
  have hopen : '\x7d' ∉ c :: r := by
    obtain ⟨tail, hl, -⟩ | ⟨tail, hl, htail⟩ := List.append_eq_append_iff.mp hwhole
    · rw [hl] at hlead
      exact fun hm => hlead (List.mem_append_left _ hm)
    · cases tail with
      | nil => rwa [hl, List.append_nil]
      | cons d tail =>
        rw [List.cons_append] at htail
        obtain ⟨rfl, -⟩ := List.cons.inj htail
        rw [hl, List.append_assoc, keysOfObject?, exportedObject?_text l hinside] at hnone
        cases hnone
  refine scanFrom_eq_nil 0 fun front rest hsplit _ => ?_
  by_contra hmatch
  obtain ⟨m', hmatch⟩ := Option.ne_none_iff_exists'.mp hmatch
  have hclose : '\x7d' ∈ rest := mem_of_keysOfObject? hmatch
  exact hopen (by rw [hsplit]; simp [hclose])

/-! ## All names -/

/-- Names are put in as the keys of a map are. -/
theorem insertName_eq (name : String) (names : List String) : insertName name names =
    (Bundle.insertEntry name .empty (names.map (·, .empty))).map Prod.fst := by
  induction names with
  | nil => rfl
  | cons other rest ih =>
    rw [insertName, List.map_cons, Bundle.insertEntry, ih]
    split
    · simp [Function.comp_def]
    · split
      · next he => simp [he, Function.comp_def]
      · next hne => rw [if_neg (Ne.symm hne), List.map_cons]

theorem mem_insertName {name other : String} {names : List String} :
    other ∈ insertName name names ↔ other = name ∨ other ∈ names := by
  rw [insertName_eq, Bundle.mem_keys_insertEntry]
  simp [Function.comp_def]

theorem pairwise_insertName {name : String} {names : List String} (h : names.Pairwise (· < ·)) :
    (insertName name names).Pairwise (· < ·) := by
  rw [insertName_eq]
  refine Bundle.pairwise_insertEntry ?_
  simpa [Function.comp_def] using h

/-- What the three scans find. -/
def scannedNames (s : List Char) : List (List Char) :=
  definedNames s ++ assignedNames s ++ objectKeysFrom 0 s

theorem mem_exportedNames {source name : String} :
    name ∈ exportedNames source ↔ name.toList ∈ scannedNames source.toList := by
  have hfold (found : List (List Char)) (names : List String) :
      name ∈ found.foldl (fun names name => insertName (String.ofList name) names) names ↔
        name ∈ names ∨ name.toList ∈ found := by
    induction found generalizing names with
    | nil => simp
    | cons first found ih =>
      have hfirst : name = String.ofList first ↔ name.toList = first := by
        rw [← String.toList_inj, String.toList_ofList]
      rw [List.foldl_cons, ih, mem_insertName, List.mem_cons, hfirst]
      tauto
  rw [exportedNames, hfold]
  simp [scannedNames]

theorem pairwise_exportedNames (source : String) : (exportedNames source).Pairwise (· < ·) := by
  have hfold (found : List (List Char)) (names : List String) (h : names.Pairwise (· < ·)) :
      (found.foldl (fun names name => insertName (String.ofList name) names) names).Pairwise
        (· < ·) := by
    induction found generalizing names with
    | nil => exact h
    | cons first found ih => exact ih _ (pairwise_insertName h)
  exact hfold _ [] List.Pairwise.nil

theorem scannedNames_subset_append (s more : List Char) :
    scannedNames s ⊆ scannedNames (s ++ more) := by
  intro name hm
  rcases List.mem_append.mp hm with hm | hm
  · refine List.mem_append_left _ (List.mem_append.mpr ?_)
    exact (List.mem_append.mp hm).imp (fun h => definedNames_subset_append s more h)
      fun h => assignedNames_subset_append s more h
  · exact List.mem_append_right _ (objectKeys_subset_append s more hm)

/-- The names of a text are in order, more text keeps them, and every assignment is among them unless
it is chained: one that is among them ends in the equals sign right before it, or in the one before
the single character in front of it. -/
theorem exportedNames_finds (source : String) :
    (∀ front (a : Assignment), AssignedAt source.toList front a →
      String.ofList a.name ∈ exportedNames source ∨
        ∃ before b between, AssignedAt source.toList before b ∧
          String.ofList b.name ∈ exportedNames source ∧
          front = before ++ (b.text ++ between) ∧ between.length ≤ 1) ∧
    (exportedNames source).Pairwise (· < ·) ∧
    ∀ more, exportedNames source ⊆ exportedNames (source ++ more) := by
  have hassigned {a : Assignment} (h : a.name ∈ assignedNames source.toList) :
      String.ofList a.name ∈ exportedNames source := by
    rw [mem_exportedNames, String.toList_ofList]
    exact List.mem_append_left _ (List.mem_append_right _ h)
  refine ⟨fun front a ha => ?_, pairwise_exportedNames source, fun more name hm => ?_⟩
  · obtain h | ⟨before, b, between, hb, hin, hfront⟩ := assignedNames_finds ha
    · exact .inl (hassigned h)
    · exact .inr ⟨before, b, between, hb, hassigned hin, hfront⟩
  · rw [mem_exportedNames] at hm ⊢
    rw [String.toList_append]
    exact scannedNames_subset_append _ _ hm

/-- An assignment as it is mostly written, with one space in front of the equals sign. -/
def Assignment.plain (name : List Char) (named : name ≠ [])
    (isName : ∀ c ∈ name, isNamePart c = true) : Assignment :=
  ⟨"exports".toList, name, [' '], .inl rfl, named, isName, AllBlank.space⟩

theorem assignedAt_chained {s back : List Char}
    (hs : s = "exports.a = exports.b = ".toList ++ back) :
    AssignedAt s "exports.a = ".toList (.plain ['b'] (by decide) (by decide)) := by
  refine ⟨fun d hd => ?_, ' ', back, hs, by decide⟩
  obtain rfl : ' ' = d := Option.some.inj hd
  decide

/-- Of three assignments in a chain the second is missed, and the first one ends right before it. -/
theorem exportedNames_finds_chain :
    let source := "exports.a = exports.b = exports.c = v"
    exportedNames source = ["a", "c"] ∧ ∃ before b between, AssignedAt source.toList before b ∧
      String.ofList b.name ∈ exportedNames source ∧
      "exports.a = ".toList = before ++ (b.text ++ between) ∧ between.length ≤ 1 := by
  intro source
  have hnames : exportedNames source = ["a", "c"] := by decide +kernel
  have hsecond := assignedAt_chained
    (by decide : source.toList = "exports.a = exports.b = ".toList ++ "exports.c = v".toList)
  have hmissed : ¬String.ofList ['b'] ∈ exportedNames source := by
    rw [hnames]
    decide
  exact ⟨hnames, ((exportedNames_finds source).1 _ _ hsecond).resolve_left hmissed⟩

theorem exportedNames_misses_chained : ¬∀ (source : String) (front : List Char) (a : Assignment),
    AssignedAt source.toList front a → String.ofList a.name ∈ exportedNames source := by
  intro h
  have hfound := h "exports.a = exports.b = v" _ _
    (assignedAt_chained (by decide : _ = "exports.a = exports.b = ".toList ++ ['v']))
  exact absurd hfound (by decide +kernel)

end ModuleLoader.CommonJs
