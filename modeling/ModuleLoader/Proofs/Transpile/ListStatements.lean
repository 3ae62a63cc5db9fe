import ModuleLoader.Proofs.Text.Slices
import ModuleLoader.Proofs.Transpile.Header
import ModuleLoader.Proofs.Transpile.Lists

/-! The statements that are written with a list in braces, and those that import a default. Each of
them is recognized on one line, as what it says. -/

namespace ModuleLoader.Transpile

open Text

/-! ## What is written -/

/-- A string literal without escapes. -/
structure ModuleName where
  mark : Char
  text : List Char
  isQuoteMark : isQuoteMark mark = true
  ne_nil : text ≠ []
  plain : ∀ c ∈ text, Transpile.isQuoteMark c = false ∧ c ≠ '\n'

def ModuleName.specifier (m : ModuleName) : String := String.ofList m.text

def ModuleName.literal (m : ModuleName) : List Char := m.mark :: (m.text ++ [m.mark])

def ending (semicolon : Bool) : List Char := if semicolon then [';'] else []

def fromText (m : ModuleName) (semicolon : Bool) : List Char :=
  " from ".toList ++ (m.literal ++ ending semicolon)

/-- What a list in braces belongs to. -/
inductive ListForm where
  | importList (main : Option Identifier) (m : ModuleName)
  | exportList
  | exportListFrom (m : ModuleName)

/-- A default name in front of a list. -/
def mainText (main : Option Identifier) : List Char := main.elim [] fun n => n.text ++ [',', ' ']

namespace ListForm

/-- What stands before the list, up to its opening brace. -/
def opening : ListForm → List Char
  | importList main _ => "import ".toList ++ (mainText main ++ ['\x7b'])
  | exportList => "export ".toList ++ ['\x7b']
  | exportListFrom _ => "export ".toList ++ ['\x7b']

/-- What follows the list from its closing brace on. -/
def closing (semicolon : Bool) : ListForm → List Char
  | importList _ m => '\x7d' :: fromText m semicolon
  | exportList => '\x7d' :: ending semicolon
  | exportListFrom m => '\x7d' :: fromText m semicolon

def statement (entries : List ListEntry) : ListForm → Statement
  | importList main m =>
    .importFrom (.bindings (main.map fun n => String.ofList n.text) none (some entries)) m.specifier
  | exportList => .exportList entries
  | exportListFrom m => .exportListFrom entries m.specifier

end ListForm

structure ListStatement where
  form : ListForm
  pieces : List Piece
  semicolon : Bool

def ListStatement.text (s : ListStatement) : List Char :=
  s.form.opening ++ (listText s.pieces ++ s.form.closing s.semicolon)

def defaultImportText (main : Identifier) (m : ModuleName) (semicolon : Bool) : List Char :=
  "import ".toList ++ (main.text ++ fromText m semicolon)

/-! ## Ends of statements -/

section

variable {s rest clause gap : List Char} {c q : Char}

theorem isQuoteMark_of_isBlank (h : isBlank c = true) : isQuoteMark c = false := by
  rw [Bool.eq_false_iff]
  intro hq
  simp only [isQuoteMark, Bool.or_eq_true, beq_iff_eq] at hq
  rcases hq with rfl | rfl <;> exact absurd h (by decide)

theorem isBlank_of_isQuoteMark (h : isQuoteMark q = true) : isBlank q = false := by
  rw [Bool.eq_false_iff]
  intro hb
  rw [isQuoteMark_of_isBlank hb] at h
  cases h

theorem endsStatement_ending (semicolon : Bool) : endsStatement (ending semicolon) = true := by
  cases semicolon <;> rfl

theorem specifier?_literal (m : ModuleName) (rest : List Char) :
    specifier? (m.literal ++ rest) = some (m.specifier, rest) := by
  have hplain : ∀ c ∈ m.text, (!isQuoteMark c) = true := fun c hc => by simp [(m.plain c hc).1]
  have htake : (m.text ++ (m.mark :: rest)).takeWhile (!isQuoteMark ·) = m.text := by
    rw [List.takeWhile_append_of_pos hplain]
    simp [m.isQuoteMark]
  have hdrop : (m.text ++ (m.mark :: rest)).dropWhile (!isQuoteMark ·) = m.mark :: rest := by
    rw [List.dropWhile_append_of_pos hplain]
    simp [m.isQuoteMark]
  obtain ⟨c, text, hc⟩ := List.exists_cons_of_ne_nil m.ne_nil
  have htext : m.literal ++ rest = m.mark :: (m.text ++ (m.mark :: rest)) := by
    simp [ModuleName.literal]
  rw [htext, specifier?, if_pos m.isQuoteMark, htake, hdrop, hc]
  simp [ModuleName.specifier, hc]

theorem finalSpecifier?_literal (m : ModuleName) (semicolon : Bool) (hg : AllBlank gap) :
    finalSpecifier? (gap ++ (m.literal ++ ending semicolon)) = some m.specifier := by
  have hs : trimStart (gap ++ (m.literal ++ ending semicolon)) = m.literal ++ ending semicolon := by
    rw [trimStart_append_of_blank hg]
    exact trimStart_of_not_blank (isBlank_of_isQuoteMark m.isQuoteMark) _
  simp [finalSpecifier?, hs, specifier?_literal, endsStatement_ending]

theorem fromSpecifier?_fromText (m : ModuleName) (semicolon : Bool) :
    fromSpecifier? (fromText m semicolon) = some m.specifier := by
  have hs : after? "from".toList (trimStart (fromText m semicolon)) =
      some ([' '] ++ (m.literal ++ ending semicolon)) := by
    rw [after?_eq_some_iff]
    rfl
  rw [fromSpecifier?, hs]
  exact finalSpecifier?_literal m semicolon .space

/-- What a specifier behind `from` is found in: nothing but blanks and the word stands before its
quote. -/
theorem eq_of_fromSpecifier? {specifier : String} (h : fromSpecifier? s = some specifier) :
    ∃ front gap q rest, s = front ++ ("from".toList ++ (gap ++ q :: rest)) ∧ AllBlank front ∧
      AllBlank gap ∧ isQuoteMark q = true := by
  obtain ⟨r, hr, hs⟩ := Option.bind_eq_some_iff.mp h
  obtain ⟨⟨text, tail⟩, ht, -⟩ := Option.bind_eq_some_iff.mp hs
  obtain ⟨front, hf, hfront⟩ := exists_trimStart s
  obtain ⟨gap, hg, hgap⟩ := exists_trimStart r
  rw [after?_eq_some_iff] at hr
  cases hq : trimStart r with
  | nil => simp [hq, specifier?] at ht
  | cons q rest =>
    by_cases hquote : isQuoteMark q = true
    · exact ⟨front, gap, q, rest, by rw [hfront, hr, hgap, hq], hf, hg, hquote⟩
    · simp [hq, specifier?, hquote] at ht

/-- Where something other than blanks stands before it, the `from` of a specifier is not found. -/
theorem fromSpecifier?_append_eq_none (hq : ∀ c ∈ s, isQuoteMark c = false)
    (hs : ∃ c ∈ s, isBlank c = false) (m : ModuleName) (semicolon : Bool) :
    fromSpecifier? (s ++ fromText m semicolon) = none := by
  by_contra hne
  obtain ⟨specifier, h⟩ := Option.ne_none_iff_exists'.mp hne
  obtain ⟨front, gap, q, rest, heq, hf, hg, hquote⟩ := eq_of_fromSpecifier? h
  -- Up to the first quote mark, the two sides have the same characters that are no blanks.
  have hleft : (s ++ fromText m semicolon).takeWhile (!isQuoteMark ·) = s ++ " from ".toList := by
    have hplain : ∀ c ∈ s ++ " from ".toList, (!isQuoteMark c) = true := by
      intro c hc
      rcases List.mem_append.mp hc with hc | hc
      · simp [hq c hc]
      · have hall : ∀ c ∈ " from ".toList, (!isQuoteMark c) = true := by decide
        exact hall c hc
    have htext : s ++ fromText m semicolon =
        (s ++ " from ".toList) ++ (m.mark :: (m.text ++ [m.mark]) ++ ending semicolon) :=
      (List.append_assoc _ _ _).symm
    rw [htext, List.takeWhile_append_of_pos hplain]
    simp [m.isQuoteMark]
  have hright : (front ++ ("from".toList ++ (gap ++ q :: rest))).takeWhile (!isQuoteMark ·) =
      front ++ ("from".toList ++ gap) := by
    have hblank {gap : List Char} (hg : AllBlank gap) : ∀ c ∈ gap, (!isQuoteMark c) = true :=
      fun c hc => by simp [isQuoteMark_of_isBlank (hg c hc)]
    have hword : ∀ c ∈ "from".toList, (!isQuoteMark c) = true := by decide
    rw [List.takeWhile_append_of_pos (hblank hf), List.takeWhile_append_of_pos hword,
      List.takeWhile_append_of_pos (hblank hg)]
    simp [hquote]
  have hall := congrArg (List.countP (!isBlank ·)) (hleft.symm.trans ((congrArg _ heq).trans hright))
  have hfrom : "from".toList.countP (!isBlank ·) = 4 := by decide
  have hspaced : " from ".toList.countP (!isBlank ·) = 4 := by decide
  have hblank {gap : List Char} (hg : AllBlank gap) : gap.countP (!isBlank ·) = 0 := by
    rw [List.countP_eq_zero]
    intro c hc
    simp [hg c hc]
  have hpos : 0 < s.countP (!isBlank ·) := by
    obtain ⟨c, hc, hb⟩ := hs
    exact List.countP_pos_iff.mpr ⟨c, hc, by simp [hb]⟩
  rw [List.countP_append, List.countP_append, List.countP_append, hfrom, hspaced, hblank hf,
    hblank hg] at hall
  omega

/-- A clause without quotes reaches up to the `from` behind it. -/
theorem clauseBeforeFrom?_fromText (hq : ∀ c ∈ clause, isQuoteMark c = false)
    (hs : ∃ front c, clause = front ++ [c] ∧ isBlank c = false) (m : ModuleName) (semicolon : Bool) :
    clauseBeforeFrom? (clause ++ fromText m semicolon) = some (clause, m.specifier) := by
  induction clause with
  | nil =>
    obtain ⟨front, c, he, -⟩ := hs
    simp at he
  | cons d r ih =>
    obtain ⟨-, hr⟩ := List.forall_mem_cons.mp hq
    rw [List.cons_append, clauseBeforeFrom?]
    by_cases hne : r = []
    · rw [hne, List.nil_append, fromSpecifier?_fromText]
    · obtain ⟨front, c, he, hc⟩ := hs
      have hlast : ∃ front, r = front ++ [c] := by
        cases front with
        | nil => simp_all
        | cons e front => exact ⟨front, (List.cons.inj he).2⟩
      obtain ⟨front', hr'⟩ := hlast
      rw [fromSpecifier?_append_eq_none hr ⟨c, by simp [hr'], hc⟩, ih hr ⟨front', c, hr', hc⟩]
      rfl

/-! ## Clauses -/

theorem Identifier.forall_ne (n : Identifier) {d : Char} (hd : isAsciiNamePart d = false) :
    d ∉ n.text := by
  intro hm
  have hpart := n.forall_mem d hm
  simp [hd] at hpart

theorem Identifier.forall_not_quote (n : Identifier) : ∀ c ∈ n.text, isQuoteMark c = false :=
  fun c hc => by
    rw [Bool.eq_false_iff]
    intro hq
    rcases isQuoteMark_iff.mp hq with rfl | rfl <;> exact n.forall_ne (by decide) hc

/-- An identifier may stand in a list. -/
def Identifier.toName (n : Identifier) : Name where
  text := n.text
  ne_nil := n.ne_nil
  plain c hc := by
    have hne {d : Char} (hd : isAsciiNamePart d = false) : c ≠ d := by
      rintro rfl
      exact n.forall_ne hd hc
    exact ⟨(plain_of_isAsciiNamePart (n.forall_mem c hc)).1, hne (by decide),
      by simpa [isNotBrace] using hne (d := '\x7d') (by decide), n.forall_not_quote c hc⟩

theorem Identifier.solid (n : Identifier) : Solid n.text :=
  solid_of_forall n.ne_nil fun c hc => (plain_of_isAsciiNamePart (n.forall_mem c hc)).1

theorem Identifier.startsWith_append (n : Identifier) (rest : List Char) :
    startsWith ['\x7b'] (n.text ++ rest) = false ∧ startsWith ['*'] (n.text ++ rest) = false := by
  obtain ⟨c, r, hc⟩ := List.exists_cons_of_ne_nil n.ne_nil
  have hne {d : Char} (hd : isAsciiNamePart d = false) : c ≠ d := by
    rintro rfl
    exact n.forall_ne hd (by simp [hc])
  simp [startsWith_singleton, hc, hne (by decide : isAsciiNamePart '\x7b' = false),
    hne (by decide : isAsciiNamePart '*' = false)]

/-- A list in braces, behind a default name or not. -/
def namedClause (main : Option Identifier) (list : List Char) : List Char :=
  mainText main ++ '\x7b' :: (list ++ ['\x7d'])

theorem namedClause_solid (main : Option Identifier) (list : List Char) :
    Solid (namedClause main list) := by
  have hbrace : Solid ('\x7b' :: (list ++ ['\x7d'])) :=
    ⟨⟨'\x7b', _, rfl, by decide⟩, ⟨'\x7b' :: list, '\x7d', rfl, by decide⟩⟩
  cases main with
  | none => exact hbrace
  | some n =>
    have h := n.solid.between hbrace [',', ' ']
    simpa [namedClause, mainText] using h

theorem bindings?_list (main : Option String) (list : List Char) :
    bindings? main ('\x7b' :: (list ++ ['\x7d'])) =
      some (.bindings main none (some (listEntries list))) := by
  simp [bindings?]

theorem after?_type_identifier (n : Identifier) {c : Char} (hc : c ≠ ' ') (rest : List Char)
    (hp : isAsciiNamePart c = false) : after? "type ".toList (n.text ++ c :: rest) = none := by
  by_contra hne
  obtain ⟨r, hr⟩ := Option.ne_none_iff_exists'.mp hne
  rw [after?_eq_some_iff] at hr
  have hword : ∀ c ∈ "type".toList, isAsciiNamePart c = true := by decide
  have hfront : n.text = "type".toList := by
    have htake := congrArg (List.takeWhile isAsciiNamePart) hr
    have htype : "type ".toList ++ r = "type".toList ++ ' ' :: r := rfl
    have hspace : isAsciiNamePart ' ' = false := by decide
    rw [htype, List.takeWhile_append_of_pos n.forall_mem, List.takeWhile_append_of_pos hword] at htake
    simpa [hp, hspace] using htake
  rw [hfront] at hr
  have htail : c :: rest = ' ' :: r := by simpa using hr
  exact hc (List.cons.inj htail).1

theorem importClause?_named (main : Option Identifier) (list : List Char) :
    importClause? (namedClause main list) =
      some (.bindings (main.map fun n => String.ofList n.text) none (some (listEntries list))) := by
  have htrim : trim (namedClause main list) = namedClause main list := by
    simpa using (namedClause_solid main list).trim_between .nil .nil
  rw [importClause?, htrim]
  cases main with
  | none =>
    have htype : isTypeClause (namedClause none list) = false := rfl
    have hmain : defaultName? (namedClause none list) = some (none, namedClause none list) := rfl
    simp only [htype, hmain]
    exact bindings?_list none list
  | some n =>
    have hclause : namedClause (some n) list =
        n.text ++ ',' :: (' ' :: '\x7b' :: (list ++ ['\x7d'])) := by simp [namedClause, mainText]
    have htype : isTypeClause (namedClause (some n) list) = false := by
      rw [isTypeClause, hclause, after?_type_identifier n (by decide) _ (by decide)]
    have hrest : trim (' ' :: '\x7b' :: (list ++ ['\x7d'])) = '\x7b' :: (list ++ ['\x7d']) := by
      simpa [namedClause, mainText] using (namedClause_solid none list).trim_between .space .nil
    have hname : trim n.text = n.text := by simpa using n.solid.trim_between .nil .nil
    have hmain : defaultName? (namedClause (some n) list) =
        some (some (String.ofList n.text), '\x7b' :: (list ++ ['\x7d'])) := by
      have hcut := cutAt?_of_notMem (n.forall_ne (d := ',') (by decide))
        (' ' :: '\x7b' :: (list ++ ['\x7d']))
      obtain ⟨hbrace, hstar⟩ := n.startsWith_append (',' :: (' ' :: '\x7b' :: (list ++ ['\x7d'])))
      rw [defaultName?, hclause, hcut, hbrace, hstar]
      simp [hname, hrest, n.valid]
    simp only [htype, hmain]
    exact bindings?_list (some (String.ofList n.text)) list

theorem importClause?_default (n : Identifier) :
    importClause? n.text = some (.bindings (some (String.ofList n.text)) none none) := by
  have htrim : trim n.text = n.text := by simpa using n.solid.trim_between .nil .nil
  have htype : isTypeClause n.text = false := by
    have hno : after? "type ".toList n.text = none := by
      by_contra hne
      obtain ⟨r, hr⟩ := Option.ne_none_iff_exists'.mp hne
      rw [after?_eq_some_iff] at hr
      exact n.forall_ne (d := ' ') (by decide) (by simp [hr])
    rw [isTypeClause, hno]
  have hmain : defaultName? n.text = some (some (String.ofList n.text), []) := by
    have hcut : cutAt? [','] n.text = none := cutAt?_eq_none (n.forall_ne (by decide))
    have hstarts := n.startsWith_append []
    rw [List.append_nil] at hstarts
    rw [defaultName?, hcut, hstarts.1, hstarts.2]
    simp [n.valid]
  rw [importClause?, htrim]
  simp only [htype, hmain]
  rfl

/-! ## Statements -/

theorem blanks?_space (h : Solid clause) (rest : List Char) :
    blanks? (' ' :: (clause ++ rest)) = some (clause ++ rest) := by
  obtain ⟨c, r, rfl, hc⟩ := h.starts
  have hspace : isBlank ' ' = true := by decide
  simp [blanks?, hspace, trimStart_of_blank hspace, trimStart_of_not_blank hc]

/-- An import is recognized by its clause. -/
theorem recognize?_import (h : Solid clause) (hq : ∀ c ∈ clause, isQuoteMark c = false)
    {read : ImportClause} (hr : importClause? clause = some read) (m : ModuleName)
    (semicolon : Bool) :
    Statement.recognize? ("import ".toList ++ (clause ++ fromText m semicolon)) =
      some (.importFrom read m.specifier) := by
  have hlead : after? "import".toList ("import ".toList ++ (clause ++ fromText m semicolon)) =
      some (' ' :: (clause ++ fromText m semicolon)) := after?_eq_some_iff.mpr rfl
  have hfinal : finalSpecifier? (' ' :: (clause ++ fromText m semicolon)) = none := by
    obtain ⟨c, r, rfl, hc⟩ := h.starts
    have hquote : isQuoteMark c = false := hq c List.mem_cons_self
    have hspace : isBlank ' ' = true := by decide
    simp [finalSpecifier?, trimStart_of_blank hspace, trimStart_of_not_blank hc, specifier?, hquote]
  rw [Statement.recognize?, hlead]
  simp only [importStatement?, hfinal, importFrom?, blanks?_space h, Option.bind_eq_bind,
    Option.bind_some, clauseBeforeFrom?_fromText hq h.ends, hr]
  rfl

theorem recognize?_defaultImport (n : Identifier) (m : ModuleName) (semicolon : Bool) :
    Statement.recognize? (defaultImportText n m semicolon) =
      some (.importFrom (.bindings (some (String.ofList n.text)) none none) m.specifier) :=
  recognize?_import n.solid n.forall_not_quote (importClause?_default n) m semicolon

theorem Piece.forall_plain (p : Piece) :
    ∀ c ∈ p.text, isNotBrace c = true ∧ isQuoteMark c = false := by
  have hblank {gap : List Char} (hg : AllBlank gap) :
      ∀ c ∈ gap, isNotBrace c = true ∧ isQuoteMark c = false := fun c hc => by
    refine ⟨?_, isQuoteMark_of_isBlank (hg c hc)⟩
    have hne : c ≠ '\x7d' := by
      rintro rfl
      exact absurd (hg _ hc) (by decide)
    simp [isNotBrace, hne]
  have hname (n : Name) : ∀ c ∈ n.text, isNotBrace c = true ∧ isQuoteMark c = false :=
    fun c hc => (n.plain c hc).2.2
  have has : ∀ c ∈ ['a', 's'], isNotBrace c = true ∧ isQuoteMark c = false := by decide
  have htype : ∀ c ∈ "type".toList, isNotBrace c = true ∧ isQuoteMark c = false := by decide
  have hbinding (b : Binding) : ∀ c ∈ b.text, isNotBrace c = true ∧ isQuoteMark c = false := by
    cases b with
    | name n => exact hname n
    | renamed source before after asName =>
      have hall := List.forall_mem_append.mpr ⟨hname source, List.forall_mem_append.mpr
        ⟨hblank before.blank, List.forall_mem_append.mpr
          ⟨has, List.forall_mem_append.mpr ⟨hblank after.blank, hname asName⟩⟩⟩⟩
      simpa [Binding.text] using hall
  have hitem (i : Item) : ∀ c ∈ i.text, isNotBrace c = true ∧ isQuoteMark c = false := by
    cases i with
    | binding b => exact hbinding b
    | typeOnly gap b => exact List.forall_mem_append.mpr ⟨htype, List.forall_mem_append.mpr
        ⟨hblank gap.blank, hbinding b⟩⟩
  cases p with
  | item m i => exact List.forall_mem_append.mpr ⟨hblank m.blankBefore,
      List.forall_mem_append.mpr ⟨hitem i, hblank m.blankAfter⟩⟩
  | empty gap hg => exact hblank hg

theorem listText_plain (pieces : List Piece) :
    ∀ c ∈ listText pieces, isNotBrace c = true ∧ isQuoteMark c = false := by
  intro c hc
  rcases mem_intercalate hc with rfl | ⟨t, ht, hm⟩
  · decide
  · obtain ⟨p, -, rfl⟩ := List.mem_map.mp ht
    exact p.forall_plain c hm

theorem braced?_list {list : List Char} (h : ∀ c ∈ list, isNotBrace c = true) (rest : List Char) :
    braced? (' ' :: '\x7b' :: (list ++ '\x7d' :: rest)) = some (list, rest) := by
  have hbrace : isNotBrace '\x7d' = false := by decide
  have hs : trimStart (' ' :: '\x7b' :: (list ++ '\x7d' :: rest)) =
      '\x7b' :: (list ++ '\x7d' :: rest) := rfl
  simp [braced?, hs, List.dropWhile_append_of_pos h, List.takeWhile_append_of_pos h, hbrace]

theorem recognize?_export {list : List Char} (h : ∀ c ∈ list, isNotBrace c = true)
    (rest : List Char) {st : Statement} (hr : (match fromSpecifier? rest with
      | some specifier => some (.exportListFrom (listEntries list) specifier)
      | none => if endsStatement rest then some (.exportList (listEntries list)) else none) = some st) :
    Statement.recognize? ("export ".toList ++ ['\x7b'] ++ (list ++ '\x7d' :: rest)) = some st := by
  have hlead : after? "export".toList ("export ".toList ++ ['\x7b'] ++ (list ++ '\x7d' :: rest)) =
      some (' ' :: '\x7b' :: (list ++ '\x7d' :: rest)) := after?_eq_some_iff.mpr rfl
  have hno : after? "import".toList ("export ".toList ++ ['\x7b'] ++ (list ++ '\x7d' :: rest)) = none := rfl
  have hall : exportAll? (' ' :: '\x7b' :: (list ++ '\x7d' :: rest)) = none := rfl
  have hlist : exportList? (' ' :: '\x7b' :: (list ++ '\x7d' :: rest)) = some st := by
    simp only [exportList?, braced?_list h, Option.bind_eq_bind, Option.bind_some]
    exact hr
  rw [Statement.recognize?, hno, hlead]
  simp only [Option.bind_some, exportStatement?, hall, hlist, Option.none_or, Option.some_or]

theorem namedClause_plain (main : Option Identifier) {list : List Char}
    (h : ∀ c ∈ list, isQuoteMark c = false) : ∀ c ∈ namedClause main list, isQuoteMark c = false := by
  have hbraces : ∀ c ∈ '\x7b' :: (list ++ ['\x7d']), isQuoteMark c = false :=
    List.forall_mem_cons.mpr ⟨by decide, List.forall_mem_append.mpr ⟨h, by decide⟩⟩
  cases main with
  | none => exact hbraces
  | some n =>
    have hcomma : ∀ c ∈ [',', ' '], isQuoteMark c = false := by decide
    exact List.forall_mem_append.mpr
      ⟨List.forall_mem_append.mpr ⟨n.forall_not_quote, hcomma⟩, hbraces⟩

theorem ListForm.opening_solid (form : ListForm) : Solid form.opening := by
  cases form with
  | importList main m =>
    exact ⟨⟨'i', _, rfl, by decide⟩, "import ".toList ++ mainText main, '\x7b',
      (List.append_assoc _ _ _).symm, by decide⟩
  | exportList => exact ⟨⟨'e', _, rfl, by decide⟩, "export ".toList, '\x7b', rfl, by decide⟩
  | exportListFrom m => exact ⟨⟨'e', _, rfl, by decide⟩, "export ".toList, '\x7b', rfl, by decide⟩

theorem ListStatement.starts (s : ListStatement) : ∃ c r, s.text = c :: r ∧ isBlank c = false :=
  s.form.opening_solid.starts_append _

theorem importList_text (main : Option Identifier) (m : ModuleName) (list : List Char)
    (semicolon : Bool) :
    (ListForm.importList main m).opening ++ (list ++ (ListForm.importList main m).closing semicolon) =
      "import ".toList ++ (namedClause main list ++ fromText m semicolon) := by
  have h (lead : List Char) : (lead ++ (mainText main ++ ['\x7b'])) ++
      (list ++ '\x7d' :: fromText m semicolon) =
        lead ++ ((mainText main ++ '\x7b' :: (list ++ ['\x7d'])) ++ fromText m semicolon) := by
    simp
  exact h "import ".toList

/-- On one line, a statement with a list is recognized with the entries that are read from it. -/
theorem ListStatement.recognize?_text (s : ListStatement) (h : '\n' ∉ listText s.pieces) :
    Statement.recognize? s.text = some (s.form.statement (s.pieces.filterMap Piece.kept?)) := by
  rw [← listEntries_listText s.pieces h, ListStatement.text]
  have hplain := listText_plain s.pieces
  have hbrace : ∀ c ∈ listText s.pieces, isNotBrace c = true := fun c hc => (hplain c hc).1
  cases s.form with
  | importList main m =>
    rw [importList_text, recognize?_import (namedClause_solid main _)
      (namedClause_plain main fun c hc => (hplain c hc).2) (importClause?_named main _) m s.semicolon]
    rfl
  | exportList =>
    have hfrom : fromSpecifier? (ending s.semicolon) = none := by cases s.semicolon <;> rfl
    refine recognize?_export hbrace (ending s.semicolon) ?_
    rw [hfrom, if_pos (endsStatement_ending s.semicolon)]
    rfl
  | exportListFrom m =>
    refine recognize?_export hbrace (fromText m s.semicolon) ?_
    rw [fromSpecifier?_fromText]
    rfl

end

end ModuleLoader.Transpile
