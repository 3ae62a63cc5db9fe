import ModuleLoader.Proofs.Transpile.Comments
import ModuleLoader.Proofs.Transpile.Trailing

/-! Exports with a comment behind them, and all statements. A statement stays what it is, but for
the text that it keeps, which the comment becomes part of, and for the names of a declaration, which
are looked for in all of the line. -/

namespace ModuleLoader.Transpile

open Text

section

variable {s rest : List Char} {specifier : String} {c : Comment}

/-! ## Exports from modules and lists -/

/-- An export of a whole module under a name, behind its star. -/
def exportAllAs? (s : List Char) : Option Statement := do
  let (name, rest) ← takeName? (← blanks? (← after? "as".toList (trimStart s)))
  return .exportAllAs (String.ofList name) (← fromSpecifier? (← blanks? rest))

theorem exportAll?_star (h : trimStart s = '*' :: rest) :
    exportAll? s = (exportAllAs? rest).or ((fromSpecifier? rest).map .exportAll) := by
  rw [exportAll?, h]
  rfl

theorem exportAllAs?_append_tail (c : Comment) {st : Statement} (h : exportAllAs? s = some st) :
    exportAllAs? (s ++ c.tail) = some st := by
  obtain ⟨r, hr, h⟩ := Option.bind_eq_some_iff.mp h
  obtain ⟨t, ht, h⟩ := Option.bind_eq_some_iff.mp h
  obtain ⟨⟨name, u⟩, hu, h⟩ := Option.bind_eq_some_iff.mp h
  obtain ⟨v, hv, h⟩ := Option.bind_eq_some_iff.mp h
  obtain ⟨specifier, hs, h⟩ := Option.bind_eq_some_iff.mp h
  have hstart : trimStart s ≠ [] := by
    rw [after?_eq_some_iff.mp hr]
    exact List.cons_ne_nil _ _
  have hquotes := two_quotes_of_fromSpecifier? hs
  obtain ⟨behind, hb, hblank⟩ := blanks?_append_tail_of_some c hv
  obtain rfl : behind = c.tail := hb.resolve_right fun hnil => by
    rw [hnil.1] at hquotes
    simp at hquotes
  obtain ⟨behind, hb, hblank'⟩ := blanks?_append_tail_of_some c ht
  obtain rfl : behind = c.tail := hb.resolve_right fun hnil => by
    rw [hnil.1] at hu
    cases hu
  rw [exportAllAs?, trimStart_append_of_ne_nil hstart, after?_append_tail (by decide), hr]
  show (blanks? (r ++ c.tail)).bind _ = _
  rw [hblank']
  show (takeName? (t ++ c.tail)).bind _ = _
  rw [takeName?_append_tail, hu]
  show (blanks? (u ++ c.tail)).bind _ = _
  rw [hblank]
  show (fromSpecifier? (v ++ c.tail)).bind _ = _
  rw [fromSpecifier?_append_tail c hquotes, hs]
  exact h

theorem exists_star_of_exportAll? {st : Statement} (h : exportAll? s = some st) :
    ∃ r, trimStart s = '*' :: r := by
  rw [exportAll?] at h
  split at h
  · next r hr => exact ⟨r, hr⟩
  · cases h

theorem exportAll?_append_tail (c : Comment) {st : Statement} (h : exportAll? s = some st) :
    exportAll? (s ++ c.tail) = some st := by
  obtain ⟨r, hr⟩ := exists_star_of_exportAll? h
  have happend : trimStart (s ++ c.tail) = '*' :: (r ++ c.tail) := by
    rw [trimStart_append_of_ne_nil (by rw [hr]; exact List.cons_ne_nil _ _), hr, List.cons_append]
  rw [exportAll?_star hr] at h
  rw [exportAll?_star happend]
  cases hn : exportAllAs? r with
  | some named =>
    rw [hn, Option.some_or] at h
    rw [exportAllAs?_append_tail c hn, Option.some_or, h]
  | none =>
    rw [hn, Option.none_or] at h
    obtain ⟨specifier, hs, hst⟩ := Option.map_eq_some_iff.mp h
    -- A `from` stands where `as` would have to stand.
    have hnone : exportAllAs? (r ++ c.tail) = none := by
      obtain ⟨t, ht, -⟩ := Option.bind_eq_some_iff.mp hs
      have hne : trimStart r ≠ [] := by
        rw [after?_eq_some_iff.mp ht]
        exact List.cons_ne_nil _ _
      rw [exportAllAs?, trimStart_append_of_ne_nil hne, after?_eq_some_iff.mp ht]
      rfl
    rw [hnone, fromSpecifier?_append_tail c (two_quotes_of_fromSpecifier? hs), hs]
    exact congrArg some hst

theorem braced?_eq_some_iff {list : List Char} : braced? s = some (list, rest) ↔
    trimStart s = '{' :: (list ++ '}' :: rest) ∧ ∀ d ∈ list, isNotBrace d = true := by
  constructor
  · intro h
    rw [braced?] at h
    split at h
    · next r hr =>
      split at h
      · next d tail hd =>
        cases h
        have hclose : d = '}' := by
          have hhead := List.head_dropWhile_not isNotBrace (l := r) (by rw [hd]; simp)
          simp only [hd, List.head_cons] at hhead
          simpa [isNotBrace] using hhead
        refine ⟨?_, fun d hd => List.mem_takeWhile_imp hd⟩
        rw [hr, ← hclose, ← hd, List.takeWhile_append_dropWhile]
      · cases h
    · cases h
  · rintro ⟨hs, hl⟩
    have hbrace : isNotBrace '}' = false := by decide
    simp [braced?, hs, List.dropWhile_append_of_pos hl, List.takeWhile_append_of_pos hl, hbrace]

theorem fromSpecifier?_of_endsStatement (h : endsStatement s = true) : fromSpecifier? s = none := by
  cases hf : after? "from".toList (trimStart s) with
  | none =>
    rw [fromSpecifier?, hf]
    rfl
  | some r =>
    rw [endsStatement_eq_skip, skip, after?_eq_some_iff.mp hf] at h
    have hfalse : false = true := h
    cases hfalse

/-- What a list and the text behind it are an export of. -/
def exportOfList? (list rest : List Char) : Option Statement :=
  match fromSpecifier? rest with
  | some specifier => some (.exportListFrom (listEntries list) specifier)
  | none => if endsStatement rest then some (.exportList (listEntries list)) else none

theorem exportList?_eq (s : List Char) :
    exportList? s = (braced? s).bind fun (list, rest) => exportOfList? list rest := rfl

theorem exportOfList?_append_tail (c : Comment) {list : List Char} {st : Statement}
    (h : exportOfList? list rest = some st) : exportOfList? list (rest ++ c.tail) = some st := by
  rw [exportOfList?] at h ⊢
  cases hf : fromSpecifier? rest with
  | some specifier =>
    rw [hf] at h
    rw [fromSpecifier?_append_tail c (two_quotes_of_fromSpecifier? hf), hf]
    exact h
  | none =>
    rw [hf] at h
    by_cases he : endsStatement rest = true
    · have hends : endsStatement (rest ++ c.tail) = true := by
        rw [endsStatement_append_tail, he]
      rw [fromSpecifier?_of_endsStatement hends, if_pos hends]
      rw [if_pos he] at h
      exact h
    · rw [if_neg he] at h
      cases h

theorem exportList?_append_tail (c : Comment) {st : Statement} (h : exportList? s = some st) :
    exportList? (s ++ c.tail) = some st := by
  obtain ⟨⟨list, rest⟩, hb, h⟩ := Option.bind_eq_some_iff.mp h
  obtain ⟨hs, hl⟩ := braced?_eq_some_iff.mp hb
  have hbraced : braced? (s ++ c.tail) = some (list, rest ++ c.tail) := by
    refine braced?_eq_some_iff.mpr ⟨?_, hl⟩
    rw [trimStart_append_of_ne_nil (by rw [hs]; exact List.cons_ne_nil _ _), hs]
    simp
  rw [exportList?_eq, hbraced]
  exact exportOfList?_append_tail c h

/-! ## Exports of declarations and values -/

/-- What stands behind the first word of a statement with a space there. -/
theorem exportForms_none (h : ∃ d r, trimStart s = d :: r ∧ d ≠ '*' ∧ d ≠ '\x7b') :
    exportAll? s = none ∧ exportList? s = none := by
  obtain ⟨d, r, hs, hstar, hbrace⟩ := h
  constructor
  · rw [exportAll?, hs]
    split
    · next t ht => exact absurd (List.cons.inj ht).1 hstar
    · rfl
  · cases hb : braced? s with
    | none =>
      rw [exportList?, hb]
      rfl
    | some found =>
      have hopen := (braced?_eq_some_iff.mp hb).1
      rw [hs] at hopen
      exact absurd (List.cons.inj hopen).1 hbrace

/-- The statement with a text behind the one that it keeps, and with other names if it declares
any. -/
def Statement.extended (t : String) (names : List String) : Statement → Statement
  | .exportDefaultFunction name text => .exportDefaultFunction name (text ++ t)
  | .exportDefaultClass name text => .exportDefaultClass name (text ++ t)
  | .exportDefault expression => .exportDefault (expression ++ t)
  | .exportDeclaration _ text => .exportDeclaration names (text ++ t)
  | st => st

/-- The names that a declaration binds. -/
def Statement.declared : Statement → List String
  | .exportDeclaration names _ => names
  | _ => []

/-- The default export of a value: a function or a class that is bound to its name, or else an
expression. -/
def defaultExport (value : List Char) : Statement :=
  match functionName? value with
  | some name => .exportDefaultFunction (String.ofList name) (String.ofList value)
  | none =>
    match defaultClassName? value with
    | some name => .exportDefaultClass (String.ofList name) (String.ofList value)
    | none => .exportDefault (String.ofList value)

theorem exportDefault?_eq (s : List Char) : exportDefault? s = (blanks? s).bind fun rest =>
    (after? "default".toList rest).bind fun rest => (blanks? rest).map defaultExport := by
  refine congrArg (blanks? s).bind (funext fun rest => ?_)
  refine congrArg (after? "default".toList rest).bind (funext fun rest => ?_)
  rw [Option.map_eq_bind]
  refine congrArg (blanks? rest).bind (funext fun value => ?_)
  rw [Function.comp_apply, defaultExport]
  cases functionName? value with
  | some name => rfl
  | none => cases defaultClassName? value with
    | some name => rfl
    | none => rfl

theorem defaultExport_append {value t : List Char}
    (hf : functionName? (value ++ t) = functionName? value)
    (hc : className? (value ++ t) = className? value) : defaultExport (value ++ t) =
      (defaultExport value).extended (String.ofList t) (defaultExport value).declared := by
  rw [defaultExport, defaultExport, defaultClassName?, defaultClassName?, hf, hc, String.ofList_append]
  cases functionName? value with
  | some name => rfl
  | none =>
    cases (className? value).filter (· ≠ "extends".toList) with
    | some name => rfl
    | none => rfl

theorem exportDefault?_append_tail (c : Comment) {st : Statement} (h : exportDefault? s = some st) :
    ∃ t, (t = c.tail ∨ t = c.mark) ∧
      exportStatement? (s ++ c.tail) = some (st.extended (String.ofList t) st.declared) := by
  rw [exportDefault?_eq] at h
  obtain ⟨x, hx, h⟩ := Option.bind_eq_some_iff.mp h
  obtain ⟨y, hy, h⟩ := Option.bind_eq_some_iff.mp h
  obtain ⟨value, hv, rfl⟩ := Option.map_eq_some_iff.mp h
  have hxs := after?_eq_some_iff.mp hy
  obtain ⟨behind, hb, hblank⟩ := blanks?_append_tail_of_some c hx
  obtain rfl : behind = c.tail := hb.resolve_right fun hnil => by
    rw [hnil.1] at hxs
    cases hxs
  obtain ⟨t, ht, hvalue⟩ := blanks?_append_tail_of_some c hv
  have hother : exportAll? (s ++ c.tail) = none ∧ exportList? (s ++ c.tail) = none := by
    refine exportForms_none ?_
    rw [← eq_trimStart_of_blanks? hblank, hxs]
    exact ⟨'d', _, rfl, by decide, by decide⟩
  have hnames : functionName? (value ++ t) = functionName? value ∧
      className? (value ++ t) = className? value := by
    rcases ht with rfl | ⟨rfl, rfl⟩
    · exact ⟨functionName?_append_tail c value, className?_append_tail c value⟩
    · exact ⟨rfl, rfl⟩
  have hdefault : exportDefault? (s ++ c.tail) = some (defaultExport (value ++ t)) := by
    rw [exportDefault?_eq, hblank, Option.bind_some, after?_append_tail (by decide), hy,
      Option.map_some, Option.bind_some, hvalue, Option.map_some]
  rw [exportStatement?, hother.1, hother.2, hdefault, defaultExport_append hnames.1 hnames.2]
  exact ⟨t, ht.imp_right And.right, rfl⟩

theorem exists_word_of_declarators? (h : declarators? s = some rest) :
    ∃ word ∈ ["const", "let", "var"], ∃ r, s = word.toList ++ r ∧ blanks? r = some rest := by
  obtain ⟨word, hw, hb⟩ := List.exists_of_findSome?_eq_some h
  obtain ⟨r, hr, hb⟩ := Option.bind_eq_some_iff.mp hb
  exact ⟨word, hw, r, after?_eq_some_iff.mp hr, hb⟩

theorem declarators?_word {word : String} (hw : word ∈ ["const", "let", "var"]) (r : List Char) :
    declarators? (word.toList ++ r) = blanks? r := by
  have hown : after? word.toList (word.toList ++ r) = some r := after?_eq_some_iff.mpr rfl
  cases hd : declarators? (word.toList ++ r) with
  | none =>
    have hnone := List.findSome?_eq_none_iff.mp hd word hw
    rw [hown] at hnone
    exact hnone.symm
  | some rest =>
    obtain ⟨other, ho, r', hr', hrest⟩ := exists_word_of_declarators? hd
    by_cases hne : other = word
    · rw [hne] at hr'
      rw [List.append_cancel_left hr', hrest]
    · -- No two of the words begin alike.
      have hnone : after? other.toList (word.toList ++ r) = none := by
        simp only [List.mem_cons, List.not_mem_nil, or_false] at hw ho
        rcases hw with rfl | rfl | rfl <;> rcases ho with rfl | rfl | rfl <;>
          first | rfl | exact absurd rfl hne
      rw [after?_eq_some_iff.mpr hr'] at hnone
      cases hnone

theorem declarators?_append_tail (c : Comment) (h : declarators? s = some rest) :
    ∃ t, (t = c.tail ∨ rest = [] ∧ t = c.mark) ∧ declarators? (s ++ c.tail) = some (rest ++ t) := by
  obtain ⟨word, hw, r, rfl, hr⟩ := exists_word_of_declarators? h
  rw [List.append_assoc, declarators?_word hw]
  exact blanks?_append_tail_of_some c hr

/-- Whether the comment can stand behind declarators: it has no comma, and no colon behind a pattern
for properties without a value. -/
def Comment.Fits (c : Comment) (declarators : List Char) : Prop :=
  ',' ∉ c.text ∧ (':' ∈ c.text → LastInitialized declarators)

theorem declarationNames?_append_tail (c : Comment) {names : List (List Char)}
    (h : declarationNames? s = some names) : ∃ found, declarationNames? (s ++ c.tail) = some found ∧
      ((∀ declarators, declarators? s = some declarators → c.Fits declarators) → found = names) := by
  rw [declarationNames?] at h
  rw [declarationNames?, functionName?_append_tail, className?_append_tail]
  cases hf : functionName? s with
  | some name =>
    rw [hf] at h
    exact ⟨names, h, fun _ => rfl⟩
  | none =>
    rw [hf] at h
    cases hclass : className? s with
    | some name =>
      rw [hclass] at h
      exact ⟨names, h, fun _ => rfl⟩
    | none =>
      rw [hclass] at h
      obtain ⟨declarators, hd, hnames⟩ := Option.map_eq_some_iff.mp h
      obtain ⟨t, ht, happend⟩ := declarators?_append_tail c hd
      refine ⟨declaredNames (declarators ++ t), by rw [happend]; rfl, fun hfits => ?_⟩
      obtain ⟨hcomma, hcolon⟩ := hfits declarators hd
      rw [← hnames]
      rcases ht with rfl | ⟨rfl, rfl⟩
      · exact declaredNames_append_comment c.blank hcomma hcolon
      · have hempty := declaredNames_append_comment (s := []) AllBlank.nil hcomma hcolon
        rwa [List.nil_append] at hempty

theorem starts_of_declarationNames? {names : List (List Char)} (h : declarationNames? s = some names) :
    ∃ d r, s = d :: r ∧ d ∈ ['a', 'f', 'c', 'l', 'v'] := by
  rw [declarationNames?] at h
  cases hf : functionName? s with
  | some name =>
    rw [functionName?_eq] at hf
    cases ha : after? "async".toList s with
    | some r => exact ⟨'a', _, after?_eq_some_iff.mp ha, by decide⟩
    | none =>
      rw [ha] at hf
      obtain ⟨rest, hk, -⟩ := Option.bind_eq_some_iff.mp hf
      obtain ⟨r, hr, -⟩ := Option.bind_eq_some_iff.mp hk
      exact ⟨'f', _, after?_eq_some_iff.mp hr, by decide⟩
  | none =>
    rw [hf] at h
    cases hclass : className? s with
    | some name =>
      rw [className?_eq] at hclass
      obtain ⟨r, hr, -⟩ := Option.bind_eq_some_iff.mp hclass
      exact ⟨'c', _, after?_eq_some_iff.mp hr, by decide⟩
    | none =>
      rw [hclass] at h
      obtain ⟨declarators, hd, -⟩ := Option.map_eq_some_iff.mp h
      obtain ⟨word, hw, r, rfl, -⟩ := exists_word_of_declarators? hd
      simp only [List.mem_cons, List.not_mem_nil, or_false] at hw
      rcases hw with rfl | rfl | rfl <;> exact ⟨_, _, rfl, by decide⟩

theorem exportDeclaration?_append_tail (c : Comment) {st : Statement}
    (h : exportDeclaration? s = some st) :
    ∃ t names, (t = c.tail ∨ t = c.mark) ∧
      exportStatement? (s ++ c.tail) = some (st.extended (String.ofList t) names) ∧
      ((∀ declarators, (blanks? s).bind declarators? = some declarators → c.Fits declarators) →
        names = st.declared) := by
  obtain ⟨text, ht, h⟩ := Option.bind_eq_some_iff.mp h
  obtain ⟨names, hn, h⟩ := Option.bind_eq_some_iff.mp h
  obtain ⟨d, r, hd, hm⟩ := starts_of_declarationNames? hn
  obtain ⟨behind, hb, hblank⟩ := blanks?_append_tail_of_some c ht
  obtain rfl : behind = c.tail := hb.resolve_right fun hnil => by
    rw [hnil.1] at hd
    cases hd
  obtain ⟨found, hf, hnames⟩ := declarationNames?_append_tail c hn
  have hfirst : d ≠ '*' ∧ d ≠ '{' ∧ d ≠ 'd' := by
    refine ⟨?_, ?_, ?_⟩ <;> (rintro rfl; exact absurd hm (by decide))
  have hother : exportAll? (s ++ c.tail) = none ∧ exportList? (s ++ c.tail) = none := by
    refine exportForms_none ?_
    rw [← eq_trimStart_of_blanks? hblank, hd]
    exact ⟨d, _, rfl, hfirst.1, hfirst.2.1⟩
  have hdefault : exportDefault? (s ++ c.tail) = none := by
    rw [exportDefault?, hblank]
    show (after? ('d' :: "efault".toList) (text ++ c.tail)).bind _ = none
    rw [hd, List.cons_append, after?_cons, if_neg (Ne.symm hfirst.2.2)]
    rfl
  have hdeclaration : exportDeclaration? (s ++ c.tail) =
      some (.exportDeclaration (found.map String.ofList) (String.ofList (text ++ c.tail))) := by
    rw [exportDeclaration?, hblank]
    show (declarationNames? (text ++ c.tail)).bind _ = _
    rw [hf]
    rfl
  cases h
  refine ⟨c.tail, found.map String.ofList, .inl rfl, ?_, fun hfits => ?_⟩
  · rw [exportStatement?, hother.1, hother.2, hdefault, hdeclaration, String.ofList_append]
    rfl
  · rw [ht, Option.bind_some] at hfits
    rw [hnames hfits]
    rfl

theorem extended_importStatement? {st : Statement} (h : importStatement? s = some st) (t : String)
    (names : List String) : st.extended t names = st := by
  cases hs : finalSpecifier? s with
  | some specifier =>
    rw [importStatement?, hs] at h
    cases h
    rfl
  | none =>
    rw [importStatement?, hs] at h
    obtain ⟨r, -, h⟩ := Option.bind_eq_some_iff.mp h
    obtain ⟨found, -, h⟩ := Option.bind_eq_some_iff.mp h
    obtain ⟨clause, -, h⟩ := Option.bind_eq_some_iff.mp h
    cases h
    rfl

theorem extended_exportAll? {st : Statement} (h : exportAll? s = some st) (t : String)
    (names : List String) : st.extended t names = st := by
  obtain ⟨r, hr⟩ := exists_star_of_exportAll? h
  rw [exportAll?_star hr] at h
  obtain h | ⟨-, h⟩ := Option.or_eq_some_iff.mp h
  · obtain ⟨x, -, h⟩ := Option.bind_eq_some_iff.mp h
    obtain ⟨y, -, h⟩ := Option.bind_eq_some_iff.mp h
    obtain ⟨z, -, h⟩ := Option.bind_eq_some_iff.mp h
    obtain ⟨u, -, h⟩ := Option.bind_eq_some_iff.mp h
    obtain ⟨v, -, h⟩ := Option.bind_eq_some_iff.mp h
    cases h
    rfl
  · obtain ⟨specifier, -, rfl⟩ := Option.map_eq_some_iff.mp h
    rfl

theorem extended_exportList? {st : Statement} (h : exportList? s = some st) (t : String)
    (names : List String) : st.extended t names = st := by
  obtain ⟨list, rest, -, ⟨specifier, -, rfl⟩ | ⟨-, rfl⟩⟩ := exists_of_exportList? h
  · rfl
  · rfl

theorem exportAll?_of_exportList? {st : Statement} (h : exportList? s = some st) :
    exportAll? s = none := by
  obtain ⟨⟨list, rest⟩, hb, -⟩ := Option.bind_eq_some_iff.mp h
  rw [exportAll?, (braced?_eq_some_iff.mp hb).1]
  rfl

/-- The declarators of an exported declaration, if the line without indentation is one. -/
def exportedDeclarators? (line : List Char) : Option (List Char) :=
  ((after? "export".toList line).bind blanks?).bind declarators?

/-- A line with a comment behind its statement is recognized as the same statement, which keeps the
comment with the text that it keeps. The names of a declaration are the same if the comment fits. -/
theorem recognize?_append_tail (c : Comment) {st : Statement} (h : Statement.recognize? s = some st) :
    ∃ t names, (t = c.tail ∨ t = c.mark) ∧
      Statement.recognize? (s ++ c.tail) = some (st.extended (String.ofList t) names) ∧
      ((∀ declarators, exportedDeclarators? s = some declarators → c.Fits declarators) →
        names = st.declared) := by
  have himport : after? "import".toList (s ++ c.tail) = _ := after?_append_tail (by decide) s
  cases hs : after? "import".toList s with
  | some rest =>
    rw [Statement.recognize?, hs] at h
    rw [Statement.recognize?, himport, hs, Option.map_some]
    refine ⟨c.tail, st.declared, .inl rfl, ?_, fun _ => rfl⟩
    rw [extended_importStatement? h]
    exact importStatement?_append_tail c h
  | none =>
    rw [Statement.recognize?, hs] at h
    obtain ⟨rest, hr, h⟩ := Option.bind_eq_some_iff.mp h
    have hexport : after? "export".toList (s ++ c.tail) = _ := after?_append_tail (by decide) s
    rw [Statement.recognize?, himport, hs, Option.map_none, hexport, hr, Option.map_some,
      exportedDeclarators?, hr, Option.bind_some]
    show ∃ t names, _ ∧ exportStatement? (rest ++ c.tail) = _ ∧ _
    obtain hall | ⟨-, h⟩ := Option.or_eq_some_iff.mp h
    · refine ⟨c.tail, st.declared, .inl rfl, ?_, fun _ => rfl⟩
      rw [extended_exportAll? hall, exportStatement?, exportAll?_append_tail c hall]
      rfl
    obtain hlist | ⟨-, h⟩ := Option.or_eq_some_iff.mp h
    · have happend := exportList?_append_tail c hlist
      refine ⟨c.tail, st.declared, .inl rfl, ?_, fun _ => rfl⟩
      rw [extended_exportList? hlist, exportStatement?, exportAll?_of_exportList? happend, happend]
      rfl
    obtain hdefault | ⟨-, h⟩ := Option.or_eq_some_iff.mp h
    · obtain ⟨t, ht, happend⟩ := exportDefault?_append_tail c hdefault
      exact ⟨t, st.declared, ht, happend, fun _ => rfl⟩
    · exact exportDeclaration?_append_tail c h

end

end ModuleLoader.Transpile
