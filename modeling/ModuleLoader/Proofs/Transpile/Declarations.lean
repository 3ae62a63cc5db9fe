import ModuleLoader.Proofs.Transpile.ListStatements
import ModuleLoader.Transpile.Source

/-! The declarations that lists are rewritten to, as terms of the script. Their text is what a
statement with a list is emitted as, and each entry of the list is found in it with its name. -/

namespace ModuleLoader.Transpile

open Text

/-! ## Terms -/

inductive Operand where
  | name (n : String)
  | module (specifier : String)
  | member (o : Operand) (key : String)
  | index (o : Operand) (key : String)

/-- An operand, or a choice between two of them that depends on both of two others. -/
inductive Term where
  | operand (o : Operand)
  | choice (first second chosen otherwise : Operand)

inductive Declaration where
  | const (name : String) (value : Term)
  | pattern (entries : List ListEntry) (value : Operand)
  /-- An export, whose value is computed each time it is read. -/
  | getter (name : String) (value : Term)

def Operand.text : Operand → String
  | .name n => n
  | .module specifier => requireCall specifier
  | .member o key => o.text ++ "." ++ key
  | .index o key => o.text ++ "[" ++ quote key ++ "]"

def Term.text : Term → String
  | .operand o => o.text
  | .choice first second chosen otherwise =>
    first.text ++ " && " ++ second.text ++ " ? " ++ chosen.text ++ " : " ++ otherwise.text

def Declaration.text : Declaration → String
  | .const name value => constText name value.text
  | .pattern entries value => constText (listPattern entries) value.text
  | .getter name value => Getter.text ⟨name, value.text⟩

def declarationsText (declarations : List Declaration) : String :=
  " ".intercalate (declarations.map Declaration.text)

/-! ## The declarations of a statement -/

def defaultTerm (temp : String) : Term :=
  .choice (.name temp) (.member (.name temp) "__esModule") (.member (.name temp) "default")
    (.name temp)

/-- The declarations of an import, with a default name or a list or both. -/
def importDeclarations (temp specifier : String) (main : Option String)
    (named : Option (List ListEntry)) : List Declaration :=
  match main, named with
  | none, none => []
  | none, some entries => [.pattern entries (.module specifier)]
  | some x, named =>
    .const temp (.operand (.module specifier)) :: .const x (defaultTerm temp) ::
      named.elim [] fun entries => [.pattern entries (.name temp)]

def ListEntry.exported (temp : String) (e : ListEntry) : Term :=
  if e.source = "default" then defaultTerm temp
  else .operand (.index (.name temp) e.source)

def reexportDeclarations (temp specifier : String) (entries : List ListEntry) : List Declaration :=
  .const temp (.operand (.module specifier)) ::
    entries.map fun e => .getter e.asName (e.exported temp)

section

variable {temp specifier : String} {indent text : List Char} {st : Statement}

theorem text_defaultTerm (temp : String) : (defaultTerm temp).text = defaultOf temp := by
  simp only [defaultTerm, Term.text, Operand.text, defaultOf, String.append_assoc]
  rfl

theorem importText_eq (main : Option String) (named : Option (List ListEntry))
    (h : main ≠ none ∨ named ≠ none) :
    importText temp specifier (.bindings main none named) =
      declarationsText (importDeclarations temp specifier main named) := by
  cases main with
  | none =>
    cases named with
    | none => simp at h
    | some entries => rfl
  | some x =>
    have htext : (Declaration.const x (defaultTerm temp)).text =
        constText x (defaultOf temp) := by rw [Declaration.text, text_defaultTerm]
    cases named with
    | none =>
      rw [declarationsText, importDeclarations, List.map_cons, List.map_cons, htext]
      simp [importText, Declaration.text, Term.text, Operand.text, String.append_assoc]
    | some entries =>
      rw [declarationsText, importDeclarations, List.map_cons, List.map_cons, htext]
      simp [importText, Declaration.text, Term.text, Operand.text, String.append_assoc]

theorem text_exported (e : ListEntry) : (e.exported temp).text = e.expression temp := by
  by_cases h : e.source = "default"
  · rw [ListEntry.exported, if_pos h, ListEntry.expression, if_pos h, text_defaultTerm]
  · rw [ListEntry.exported, if_neg h, ListEntry.expression, if_neg h]
    rfl

theorem emit_exportListFrom (n : Nat) (entries : List ListEntry) :
    (Statement.exportListFrom entries specifier).emit n =
      ⟨declarationsText (reexportDeclarations (temporary n) specifier entries), [], true, 1⟩ := by
  have hgetters : (entries.map fun e =>
      Declaration.getter e.asName (e.exported (temporary n))).map Declaration.text =
        entries.map fun e => Getter.text ⟨e.asName, e.expression (temporary n)⟩ := by
    rw [List.map_map]
    refine List.map_congr_left fun e _ => ?_
    show Getter.text ⟨e.asName, (e.exported (temporary n)).text⟩ = _
    rw [text_exported]
  rw [declarationsText, reexportDeclarations, List.map_cons, hgetters]
  rfl

/-! ## Lines -/

theorem emitLine_statement (hi : AllBlank indent) (hs : ∃ c r, text = c :: r ∧ isBlank c = false)
    (h : Statement.recognize? text = some st) (p : Progress) :
    emitLine p (indent ++ text) =
      (if (st.emit p.temporaries).text = "" then []
        else indent ++ (st.emit p.temporaries).text.toList, p.add (st.emit p.temporaries)) := by
  obtain ⟨c, r, rfl, hc⟩ := hs
  have htrim : trimStart (indent ++ c :: r) = c :: r := by
    rw [trimStart_append_of_blank hi, trimStart_of_not_blank hc]
  have hindent : indentation (indent ++ c :: r) = indent := by
    rw [indentation, List.takeWhile_append_of_pos hi, List.takeWhile_cons_of_neg (by simp [hc]),
      List.append_nil]
  rw [emitLine, htrim, h, hindent]

theorem Declaration.text_ne_empty (d : Declaration) : d.text ≠ "" := by
  intro h
  cases d with
  | const name value => exact absurd (String.append_eq_empty_iff.mp h).2 (by decide)
  | pattern entries value => exact absurd (String.append_eq_empty_iff.mp h).2 (by decide)
  | getter name value => exact absurd (String.append_eq_empty_iff.mp h).2 (by decide)

theorem declarationsText_ne_empty {ds : List Declaration} (h : ds ≠ []) :
    declarationsText ds ≠ "" := by
  obtain ⟨d, rest, rfl⟩ := List.exists_cons_of_ne_nil h
  intro hempty
  have hlist := congrArg String.toList hempty
  rw [declarationsText, List.map_cons, toList_intercalate_cons] at hlist
  have hd : d.text.toList = [] := (List.append_eq_nil_iff.mp hlist).1
  exact d.text_ne_empty (String.toList_eq_nil_iff.mp hd)

theorem emitLine_list (form : ListForm) (pieces : List Piece) (semicolon : Bool) (p : Progress)
    (h : '\n' ∉ listText pieces) (hi : AllBlank indent) :
    let e := (form.statement (pieces.filterMap Piece.kept?)).emit p.temporaries
    emitLine p (indent ++ (ListStatement.mk form pieces semicolon).text) =
      (if e.text = "" then [] else indent ++ e.text.toList, p.add e) :=
  emitLine_statement hi (ListStatement.mk form pieces semicolon).starts
    (ListStatement.recognize?_text ⟨form, pieces, semicolon⟩ h) p

theorem emitLine_importList (pieces : List Piece) (main : Option Identifier) (m : ModuleName)
    (semicolon : Bool) (p : Progress) (h : '\n' ∉ listText pieces) (hi : AllBlank indent) :
    emitLine p (indent ++ (ListStatement.mk (.importList main m) pieces semicolon).text) =
      (indent ++ (declarationsText (importDeclarations (temporary p.temporaries) m.specifier
        (main.map fun n => String.ofList n.text) (some (pieces.filterMap Piece.kept?)))).toList,
        ⟨p.temporaries + if main.isSome then 1 else 0, p.getters, p.hasExports⟩) := by
  have hemit : ((ListForm.importList main m).statement (pieces.filterMap Piece.kept?)).emit
      p.temporaries = ⟨declarationsText (importDeclarations (temporary p.temporaries) m.specifier
        (main.map fun n => String.ofList n.text) (some (pieces.filterMap Piece.kept?))), [], false,
        if main.isSome then 1 else 0⟩ := by
    rw [← importText_eq _ _ (.inr (by simp))]
    cases main <;> rfl
  have hne : importDeclarations (temporary p.temporaries) m.specifier
      (main.map fun n => String.ofList n.text) (some (pieces.filterMap Piece.kept?)) ≠ [] := by
    cases main <;> simp [importDeclarations]
  rw [emitLine_list _ pieces semicolon p h hi, hemit, if_neg (declarationsText_ne_empty hne)]
  simp [Progress.add]

theorem emitLine_exportListFrom (pieces : List Piece) (m : ModuleName) (semicolon : Bool)
    (p : Progress) (h : '\n' ∉ listText pieces) (hi : AllBlank indent) :
    emitLine p (indent ++ (ListStatement.mk (.exportListFrom m) pieces semicolon).text) =
      (indent ++ (declarationsText (reexportDeclarations (temporary p.temporaries) m.specifier
        (pieces.filterMap Piece.kept?))).toList, ⟨p.temporaries + 1, p.getters, true⟩) := by
  have hne : reexportDeclarations (temporary p.temporaries) m.specifier
      (pieces.filterMap Piece.kept?) ≠ [] := by simp [reexportDeclarations]
  rw [emitLine_list _ pieces semicolon p h hi, ListForm.statement, emit_exportListFrom,
    if_neg (declarationsText_ne_empty hne)]
  simp [Progress.add]

/-- Each list that is written on one line is read back, and each of its entries is found with its
name where the statement goes: in the pattern of the import, in the recorded getters, or in the
getters of the re-export. What is left out are the entries of types, and a binding that renames
`type`. -/
theorem named_lists_read_back (pieces : List Piece) (main : Option Identifier) (m : ModuleName)
    (semicolon : Bool) (indent : List Char) (p : Progress) (h : '\n' ∉ listText pieces)
    (hi : AllBlank indent) :
    let entries := pieces.filterMap Piece.kept?
    let temp := temporary p.temporaries
    listEntries (listText pieces) = entries ∧
    (∀ margins b, Piece.item margins (.binding b) ∈ pieces → b.renamesType = false →
      b.entry ∈ entries) ∧
    emitLine p (indent ++ (ListStatement.mk (.importList main m) pieces semicolon).text) =
      (indent ++ (declarationsText (importDeclarations temp m.specifier
        (main.map fun n => String.ofList n.text) (some entries))).toList,
        ⟨p.temporaries + if main.isSome then 1 else 0, p.getters, p.hasExports⟩) ∧
    emitLine p (indent ++ (ListStatement.mk .exportList pieces semicolon).text) =
      ([], ⟨p.temporaries, p.getters ++ entries.map fun e => ⟨e.asName, e.source⟩, true⟩) ∧
    emitLine p (indent ++ (ListStatement.mk (.exportListFrom m) pieces semicolon).text) =
      (indent ++ (declarationsText (reexportDeclarations temp m.specifier entries)).toList,
        ⟨p.temporaries + 1, p.getters, true⟩) := by
  intro entries temp
  refine ⟨listEntries_listText pieces h, ?_, emitLine_importList pieces main m semicolon p h hi, ?_,
    emitLine_exportListFrom pieces m semicolon p h hi⟩
  · intro margins b hb hkept
    refine List.mem_filterMap.mpr ⟨_, hb, ?_⟩
    rw [Piece.kept?, Item.kept?, hkept]
    rfl
  · rw [emitLine_list _ pieces semicolon p h hi]
    simp [ListForm.statement, Statement.emit, exportText, Progress.add, entries]

theorem named_lists_read_back_contextual : ∃ pieces : List Piece,
    listText pieces = " default as d,type T, as ".toList ∧ '\n' ∉ listText pieces ∧ AllBlank [' '] ∧
    emitLine .start " export \x7b default as d,type T, as \x7d from 'm';".toList =
      (' ' :: (declarationsText (reexportDeclarations "__mod0" "m"
        [⟨"default", "d"⟩, ⟨"as", "as"⟩])).toList, ⟨1, [], true⟩) := by
  let space : Spacing := ⟨[' '], by decide, .space, by decide⟩
  let name (text : List Char) (hne : text ≠ []) (h) : Binding := .name ⟨text, hne, h⟩
  let pieces : List Piece :=
    [.item ⟨[' '], [], .space, .nil⟩ (.binding (.renamed
        ⟨"default".toList, by decide, by decide⟩ space space ⟨['d'], by decide, by decide⟩)),
      .item ⟨[], [], .nil, .nil⟩ (.typeOnly space (name ['T'] (by decide) (by decide))),
      .item ⟨[' '], [' '], .space, .space⟩ (.binding (name ['a', 's'] (by decide) (by decide)))]
  have hlist : listText pieces = " default as d,type T, as ".toList := rfl
  have hline : '\n' ∉ listText pieces := by
    rw [hlist]
    decide
  have hread := named_lists_read_back pieces none ⟨'\'', ['m'], by decide, by decide, by decide⟩ true
    [' '] .start hline .space
  have htext : [' '] ++ (ListStatement.mk (.exportListFrom ⟨'\'', ['m'], by decide, by decide,
      by decide⟩) pieces true).text =
        " export \x7b default as d,type T, as \x7d from 'm';".toList := rfl
  have hexport := hread.2.2.2.2
  rw [htext] at hexport
  exact ⟨pieces, hlist, hline, .space, hexport⟩

/-- A binding that renames `type` is taken for an entry of a type. -/
theorem renamed_type_left_out :
    listEntries " type as x ".toList ≠ [⟨"type", "x"⟩] ∧
    transpile "import \x7b type as x \x7d from \"m\";" = "const \x7b\x7d = require(\"m\");" := by
  constructor
  · decide
  · rfl

end

end ModuleLoader.Transpile
