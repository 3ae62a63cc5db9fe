import ModuleLoader.CommonJs.Wrapper
import ModuleLoader.Proofs.CommonJs.Names
import ModuleLoader.Proofs.Json.RoundTrip
import ModuleLoader.Proofs.Text.Lines

/-! The ES module that hands out a CommonJS module loads it by its path and declares each name once.
Of the names that it leaves out only two could be declared. -/

namespace ModuleLoader.CommonJs

open Text

variable {name : String} {s rest : List Char} {c : Char}

/-! ## Spelling of names -/

/-- A text that is spelled like a name, with any character of names in front. -/
def IsSpelled (name : List Char) : Prop := name ≠ [] ∧ ∀ c ∈ name, isNamePart c = true

theorem isSpelled_of_namePart? {name : List Char} (h : namePart? s = some (name, rest)) :
    IsSpelled name :=
  ⟨(eq_append_of_namePart? h).2.1, (eq_append_of_namePart? h).2.2.1⟩

theorem isSpelled_of_definedName? {name : List Char} (h : definedName? s = some name) :
    IsSpelled name := by
  unfold definedName? at h
  obtain ⟨_, -, h⟩ := Option.bind_eq_some_iff.mp h
  obtain ⟨_, -, h⟩ := Option.bind_eq_some_iff.mp h
  obtain ⟨_, -, h⟩ := Option.bind_eq_some_iff.mp h
  obtain ⟨_, -, h⟩ := Option.bind_eq_some_iff.mp h
  obtain ⟨_, -, h⟩ := Option.bind_eq_some_iff.mp h
  obtain ⟨⟨found, closing⟩, hname, h⟩ := Option.bind_eq_some_iff.mp h
  obtain ⟨_, -, h⟩ := Option.bind_eq_some_iff.mp h
  cases h
  exact isSpelled_of_namePart? hname

theorem isSpelled_of_takeName? {name : List Char} (h : takeName? s = some (name, rest)) :
    IsSpelled name := by
  cases s with
  | nil => cases h
  | cons c r =>
    rw [takeName?] at h
    by_cases hc : isNameStart c = true
    · rw [if_pos hc] at h
      cases h
      refine ⟨List.cons_ne_nil _ _, List.forall_mem_cons.mpr ⟨isNamePart_of_isNameStart hc, ?_⟩⟩
      exact fun d hd => List.mem_takeWhile_imp hd
    · rw [if_neg hc] at h
      cases h

theorem isSpelled_of_objectKey? {entry name : List Char} (h : objectKey? entry = some name) :
    IsSpelled name := by
  unfold objectKey? at h
  obtain ⟨⟨found, rest⟩, hname, h⟩ := Option.bind_eq_some_iff.mp h
  have hfound : found = name := by
    revert h
    dsimp only
    split
    · exact fun h => Option.some.inj h
    · split
      · exact fun h => Option.some.inj h
      · exact fun h => absurd h (by simp)
  exact hfound ▸ isSpelled_of_takeName? hname

theorem mem_scanFrom {α : Type} {find? : List Char → Option (List α × Nat)} {skip : Nat} {a : α}
    (h : a ∈ scanFrom find? skip s) :
    ∃ t found length, find? t = some (found, length) ∧ a ∈ found := by
  induction s generalizing skip with
  | nil =>
    rw [scanFrom] at h
    cases h
  | cons c r ih =>
    cases skip with
    | succ skip => exact ih h
    | zero =>
      cases hc : find? (c :: r) with
      | none => exact ih (by rwa [scanFrom_of_no_match hc] at h)
      | some m =>
        rw [scanFrom_of_match hc] at h
        rcases List.mem_append.mp h with h | h
        · exact ⟨c :: r, m.1, m.2, hc, h⟩
        · exact ih h

theorem isSpelled_of_mem_definedNames {name : List Char} (h : name ∈ definedNames s) :
    IsSpelled name := by
  induction s with
  | nil => cases h
  | cons c r ih =>
    rcases List.mem_append.mp h with h | h
    · exact isSpelled_of_definedName? (Option.mem_toList.mp h)
    · exact ih h

theorem isSpelled_of_mem_exportedNames {source : String} (h : name ∈ exportedNames source) :
    IsSpelled name.toList := by
  rw [mem_exportedNames] at h
  rcases List.mem_append.mp h with h | h
  · rcases List.mem_append.mp h with h | h
    · exact isSpelled_of_mem_definedNames h
    · rw [assignedNames_eq] at h
      obtain ⟨t, found, len, ht, hm⟩ := mem_scanFrom h
      obtain ⟨d, a, e, back, -, -, -, rfl, -⟩ := exists_assignment_of_assignedAfter? ht
      rw [List.mem_singleton.mp hm]
      exact ⟨a.named, a.isName⟩
  · rw [objectKeysFrom_eq] at h
    obtain ⟨t, found, len, ht, hm⟩ := mem_scanFrom h
    obtain ⟨⟨inside, len'⟩, -, he⟩ := Option.map_eq_some_iff.mp ht
    cases he
    obtain ⟨entry, -, hkey⟩ := List.mem_filterMap.mp hm
    exact isSpelled_of_objectKey? hkey

/-! ## Lines -/

/-- The name that a line declares and exports. -/
def declaredName? (line : List Char) : Option String :=
  (after? "export const ".toList line).map fun rest => String.ofList (rest.takeWhile (· != ' '))

/-- The names that the `export const` lines of a module declare, in the order of the lines. -/
def declaredNames (code : String) : List String :=
  (code.toList.splitOn '\n').filterMap declaredName?

/-- The line of a declaration, without its line feed. -/
def declarationLine (name : String) : List Char :=
  "export const ".toList ++
    (name.toList ++ ' ' :: ("= __modhost_cjs.".toList ++ (name.toList ++ [';'])))

theorem toList_declaration (name : String) :
    (declaration name).toList = declarationLine name ++ ['\n'] := by
  unfold declaration declarationLine
  simp

theorem IsSpelled.notMem {name : List Char} (h : IsSpelled name) (hc : isNamePart c = false) :
    c ∉ name := by
  intro hm
  rw [h.2 c hm] at hc
  cases hc

theorem declaredName?_declarationLine (h : IsSpelled name.toList) :
    declaredName? (declarationLine name) = some name := by
  have hpass : ∀ c ∈ name.toList, (c != ' ') = true := fun c hc =>
    bne_iff_ne.mpr fun he => h.notMem (by decide : isNamePart ' ' = false) (he ▸ hc)
  unfold declarationLine
  rw [declaredName?, after?_eq_some_iff.mpr rfl, Option.map_some, List.takeWhile_append_of_pos hpass,
    List.takeWhile_cons_of_neg (by decide), List.append_nil, String.ofList_toList]

theorem notMem_declarationLine (h : IsSpelled name.toList) : '\n' ∉ declarationLine name := by
  have hname : '\n' ∉ name.toList := h.notMem (by decide)
  unfold declarationLine
  simp [hname]

theorem splitOn_declarations {names : List String} (h : ∀ name ∈ names, IsSpelled name.toList) :
    (String.join (names.map declaration)).toList.splitOn '\n' =
      names.map declarationLine ++ [[]] := by
  induction names with
  | nil => rfl
  | cons name names ih =>
    obtain ⟨hname, hnames⟩ := List.forall_mem_cons.mp h
    rw [List.map_cons, String.join_cons, String.toList_append, toList_declaration, List.append_assoc,
      List.singleton_append, List.splitOn_append_cons_self, List.splitOn_eq_singleton (notMem_declarationLine hname),
      ih hnames]
    rfl

/-- The line that loads the module, without its line feed. -/
def loadingLine (path : Path) : List Char :=
  "const __modhost_cjs = globalThis.__modhost_require(".toList ++
    ((quote path.display).toList ++ [')', ';'])

theorem notMem_loadingLine (path : Path) : '\n' ∉ loadingLine path := by
  unfold loadingLine
  simp [notMem_quote]

/-- The module starts with two lines that every such module has. -/
theorem toList_bridge (path : Path) (source : String) : (bridge path source).toList =
    loadingLine path ++ '\n' :: ("export default __modhost_cjs;".toList ++
      '\n' :: (declarations (exportedNames source)).toList) := by
  unfold bridge loadingLine
  simp [requireGlobal]

/-- The lines after those two are those of the names. -/
theorem declaredNames_bridge (path : Path) (source : String) : declaredNames (bridge path source) =
    (exportedNames source).filter (!reservedWords.contains ·) := by
  let names := (exportedNames source).filter (!reservedWords.contains ·)
  have hspelled : ∀ name ∈ names, IsSpelled name.toList := fun name hm =>
    isSpelled_of_mem_exportedNames (List.mem_filter.mp hm).1
  have hfound : (names.map declarationLine).filterMap declaredName? = names := by
    rw [List.filterMap_map]
    refine (List.filterMap_congr fun name hm => ?_).trans List.filterMap_some
    exact declaredName?_declarationLine (hspelled name hm)
  have hheader : declaredName? (loadingLine path) = none ∧
      declaredName? "export default __modhost_cjs;".toList = none ∧ declaredName? [] = none :=
    ⟨rfl, rfl, rfl⟩
  rw [declaredNames, toList_bridge, List.splitOn_append_cons_self, List.splitOn_append_cons_self,
    List.splitOn_eq_singleton (notMem_loadingLine path), List.splitOn_eq_singleton (by decide), declarations,
    splitOn_declarations hspelled]
  simp only [List.filterMap_append, List.filterMap_cons, List.filterMap_nil, hfound, hheader,
    List.nil_append, List.append_nil, names]

/-- The text that a module loads its CommonJS module by, read as scripts read a string literal. -/
def loadedText? (code : String) : Option String := do
  let line ← (code.toList.splitOn '\n').head?
  let rest ← after? "const __modhost_cjs = globalThis.__modhost_require(".toList line
  match Json.parse (String.ofList rest.dropLast.dropLast) with
  | .ok (.string text) => some text
  | _ => none

theorem loadedText?_bridge (path : Path) (source : String) :
    loadedText? (bridge path source) = some path.display := by
  have hline : ((bridge path source).toList.splitOn '\n').head? = some (loadingLine path) := by
    rw [toList_bridge, List.splitOn_append_cons_self, List.splitOn_eq_singleton (notMem_loadingLine path)]
    rfl
  have hafter : after? "const __modhost_cjs = globalThis.__modhost_require(".toList
      (loadingLine path) = some ((quote path.display).toList ++ [')', ';']) :=
    after?_eq_some_iff.mpr rfl
  unfold loadedText?
  rw [hline, Option.bind_eq_bind, Option.bind_some, hafter, Option.bind_some]
  simp [Json.parse_quote]

/-! ## Names that can be declared -/

/-- The words that are reserved in the code of ES modules. -/
def moduleWords : List String :=
  ["await", "break", "case", "catch", "class", "const", "continue", "debugger", "default", "delete",
    "do", "else", "enum", "export", "extends", "false", "finally", "for", "function", "if",
    "implements", "import", "in", "instanceof", "interface", "let", "new", "null", "package",
    "private", "protected", "public", "return", "static", "super", "switch", "this", "throw", "true",
    "try", "typeof", "var", "void", "while", "with", "yield"]

theorem mem_reservedWords_iff : name ∈ reservedWords ↔
    name ∈ moduleWords ∨ name = "undefined" ∨ name = "__esModule" := by
  have hto : ∀ word ∈ reservedWords,
      word ∈ moduleWords ∨ word = "undefined" ∨ word = "__esModule" := by decide +kernel
  have hfrom : ∀ word ∈ moduleWords, word ∈ reservedWords := by decide +kernel
  constructor
  · exact hto name
  · rintro (h | rfl | rfl)
    · exact hfrom name h
    · decide +kernel
    · decide +kernel

def StartsName (isLetter : Char → Bool) (name : String) : Prop :=
  ∃ c ∈ name.toList.head?, isLetter c = true ∨ c = '_' ∨ c = '$'

/-- A scanned name that an ES module may bind. Which characters are letters is left open. -/
structure IsBindingName (isLetter : Char → Bool) (name : String) : Prop where
  starts : StartsName isLetter name
  notReserved : name ∉ moduleWords
  notRestricted : name ≠ "eval" ∧ name ≠ "arguments"

theorem mem_declaredNames_bridge {path : Path} {source : String} :
    name ∈ declaredNames (bridge path source) ↔ name ∈ exportedNames source ∧
      name ∉ moduleWords ∧ name ≠ "undefined" ∧ name ≠ "__esModule" := by
  have hkept : (!reservedWords.contains name) = true ↔ name ∉ reservedWords := by simp
  rw [declaredNames_bridge, List.mem_filter, hkept, mem_reservedWords_iff]
  tauto

/-- The names declared are scanned names, each once and none reserved. Of those that could be declared
none is missing but the ones that are left out on purpose. -/
theorem bridge_declares (isLetter : Char → Bool) (path : Path) (source : String) :
    (declaredNames (bridge path source)).Nodup ∧
    (∀ name ∈ declaredNames (bridge path source), name ∈ exportedNames source ∧
      IsSpelled name.toList ∧ name ∉ moduleWords ∧
      (StartsName isLetter name → name ≠ "eval" → name ≠ "arguments" →
        IsBindingName isLetter name)) ∧
    ∀ name ∈ exportedNames source, IsBindingName isLetter name → name ≠ "undefined" →
      name ≠ "__esModule" → name ≠ "__modhost_cjs" → name ∈ declaredNames (bridge path source) := by
  refine ⟨?_, fun name hm => ?_, fun name hm hname hundefined hmarker _ => ?_⟩
  · rw [declaredNames_bridge]
    exact ((pairwise_exportedNames source).filter _).imp fun hlt => ne_of_lt hlt
  · obtain ⟨hscanned, hwords, -, -⟩ := mem_declaredNames_bridge.mp hm
    exact ⟨hscanned, isSpelled_of_mem_exportedNames hscanned, hwords,
      fun hstart heval harguments => ⟨hstart, hwords, heval, harguments⟩⟩
  · exact mem_declaredNames_bridge.mpr ⟨hm, hname.notReserved, hundefined, hmarker⟩

/-- The mark of a transpiled module could be declared, and is left out. -/
theorem bridge_leaves_out_marker :
    "__esModule" ∈ exportedNames "exports.__esModule = true" ∧
    (∀ isLetter, IsBindingName isLetter "__esModule") ∧
    ∀ path, "__esModule" ∉ declaredNames (bridge path "exports.__esModule = true") := by
  refine ⟨by decide +kernel, fun isLetter => ?_, fun path hm => ?_⟩
  · exact ⟨⟨'_', rfl, .inr (.inl rfl)⟩, by decide +kernel, by decide, by decide⟩
  · exact (mem_declaredNames_bridge.mp hm).2.2.2 rfl

end ModuleLoader.CommonJs
