import ModuleLoader.Host.Heap
import ModuleLoader.Proofs.Transpile.Declarations

/-! What the declarations for imports and re-exports bind when they are run. A default import and a
re-export of `default` give the module itself where it is no ES module, and a list that names
`default` reads that property of every module. -/

namespace ModuleLoader.Transpile

open Text

/-! ## Running declarations -/

/-- What scripts find out about values. What throws has no result. -/
structure Realm (V : Type) where
  require : String → Option V
  truthy : V → Bool
  nullish : V → Bool
  read : V → String → Option V

/-- The names that a module has declared, with their values, and the getters that it exports. -/
structure Scope (V : Type) where
  locals : String → Option V
  getters : String → Option Term

variable {V : Type}

namespace Scope

def set (s : Scope V) (name : String) (v : V) : Scope V :=
  { s with locals := fun n => if n = name then some v else s.locals n }

/-- A name is declared once. -/
def declare (s : Scope V) (name : String) (v : V) : Option (Scope V) :=
  if (s.locals name).isSome then none else some (s.set name v)

/-- A getter can not be replaced. -/
def addGetter (s : Scope V) (name : String) (t : Term) : Option (Scope V) :=
  if (s.getters name).isSome then none
  else some { s with getters := fun n => if n = name then some t else s.getters n }

end Scope

namespace Realm

def operand (r : Realm V) (s : Scope V) : Operand → Option V
  | .name n => s.locals n
  | .module specifier => r.require specifier
  | .member o key => (r.operand s o).bind (r.read · key)
  | .index o key => (r.operand s o).bind (r.read · key)

def term (r : Realm V) (s : Scope V) : Term → Option V
  | .operand o => r.operand s o
  | .choice first second chosen otherwise => do
    if r.truthy (← r.operand s first) then
      if r.truthy (← r.operand s second) then r.operand s chosen else r.operand s otherwise
    else r.operand s otherwise

def bindEntry (r : Realm V) (v : V) (s : Scope V) (e : ListEntry) : Option (Scope V) :=
  (r.read v e.source).bind (s.declare e.asName)

def declaration (r : Realm V) (s : Scope V) : Declaration → Option (Scope V)
  | .const name value => (r.term s value).bind (s.declare name)
  | .pattern entries value => do
    let v ← r.operand s value
    if r.nullish v then none else entries.foldlM (r.bindEntry v) s
  | .getter name value => s.addGetter name value

def run (r : Realm V) (ds : List Declaration) (s : Scope V) : Option (Scope V) :=
  ds.foldlM r.declaration s

/-- The value of an export, once the module has run. -/
def exported? (r : Realm V) (s : Scope V) (name : String) : Option V :=
  (s.getters name).bind (r.term s)

/-- The default export of a required value: its `default` where it is marked as an ES module, and the
value itself otherwise. -/
def defaultExport (r : Realm V) (v : V) : Option V := do
  if r.truthy v then
    if r.truthy (← r.read v "__esModule") then r.read v "default" else some v
  else some v

/-- Whether nothing throws when entries are read from a value. -/
def readable (r : Realm V) (v : V) (entries : List ListEntry) : Bool :=
  !r.nullish v && entries.all fun e => (r.read v e.source).isSome

end Realm

section

variable {r : Realm V} {s : Scope V} {v : V} {temp specifier x : String} {entries : List ListEntry}

@[simp] theorem Scope.locals_set_self (s : Scope V) (name : String) (v : V) :
    (s.set name v).locals name = some v := by simp [set]

theorem Scope.locals_set_of_ne {name : String} (h : x ≠ name) (s : Scope V) (v : V) :
    (s.set name v).locals x = s.locals x := by simp [set, h]

theorem Scope.declare_eq (h : s.locals x = none) (v : V) : s.declare x v = some (s.set x v) := by
  simp [declare, h]

theorem Scope.addGetter_eq (h : s.getters x = none) (t : Term) :
    s.addGetter x t = some { s with getters := fun n => if n = x then some t else s.getters n } := by
  simp [addGetter, h]

/-- Steps that each put one new name into a table put all of them into it, and keep what they keep
one by one. -/
theorem foldlM_of_step {σ α β γ : Type} {table : σ → String → Option α} {rest : σ → γ}
    {step : σ → β → Option σ} {name : β → String} {value : β → Option α}
    (hstep : ∀ s b a, table s (name b) = none → value b = some a → ∃ s', step s b = some s' ∧
      rest s' = rest s ∧ table s' = fun n => if n = name b then some a else table s n)
    {s : σ} {bs : List β} (hd : (bs.map name).Nodup) (hs : ∀ b ∈ bs, table s (name b) = none)
    (hv : ∀ b ∈ bs, (value b).isSome = true) :
    ∃ s', bs.foldlM step s = some s' ∧ rest s' = rest s ∧
      (∀ b ∈ bs, table s' (name b) = value b) ∧ ∀ n ∉ bs.map name, table s' n = table s n := by
  induction bs generalizing s with
  | nil => exact ⟨s, rfl, rfl, by simp, by simp⟩
  | cons b bs ih =>
    obtain ⟨hnew, hdrest⟩ := List.nodup_cons.mp hd
    obtain ⟨a, ha⟩ := Option.isSome_iff_exists.mp (hv b List.mem_cons_self)
    obtain ⟨s₁, hb, hrest, htable⟩ := hstep s b a (hs b List.mem_cons_self) ha
    have hfresh : ∀ b' ∈ bs, table s₁ (name b') = none := by
      intro b' hb'
      have hne : name b' ≠ name b := fun h => hnew (h ▸ List.mem_map_of_mem hb')
      simp [htable, hne, hs b' (List.mem_cons_of_mem _ hb')]
    obtain ⟨s', hrun, hrest', hbound, hkept⟩ := ih hdrest hfresh fun b' hb' =>
      hv b' (List.mem_cons_of_mem _ hb')
    refine ⟨s', ?_, hrest'.trans hrest, ?_, ?_⟩
    · rw [List.foldlM_cons, hb]
      exact hrun
    · intro b' hb'
      rcases List.mem_cons.mp hb' with rfl | hb'
      · rw [hkept _ hnew, htable, ha]
        simp
      · exact hbound b' hb'
    · intro n hn
      rw [List.map_cons, List.mem_cons, not_or] at hn
      rw [hkept n hn.2, htable]
      simp [hn.1]

namespace Realm

theorem term_defaultTerm (h : s.locals temp = some v) :
    r.term s (defaultTerm temp) = r.defaultExport v := by
  simp [defaultTerm, term, operand, h, defaultExport]

/-- A value that is marked as an ES module has its `default` for a default export. -/
theorem defaultExport_of_marked {mark : V} (hv : r.truthy v = true)
    (hr : r.read v "__esModule" = some mark) (hm : r.truthy mark = true) :
    r.defaultExport v = r.read v "default" := by
  simp [defaultExport, hv, hr, hm]

theorem foldlM_bindEntry_eq_none {e : ListEntry} (he : e ∈ entries)
    (hr : r.read v e.source = none) : entries.foldlM (r.bindEntry v) s = none := by
  induction entries generalizing s with
  | nil => simp at he
  | cons first rest ih =>
    rw [List.foldlM_cons]
    cases hstep : r.bindEntry v s first with
    | none => rfl
    | some s' =>
      rcases List.mem_cons.mp he with rfl | he
      · simp [bindEntry, hr] at hstep
      · exact ih he

/-- A pattern binds its entries to what is read for them, unless that throws. -/
theorem declaration_pattern {o : Operand} (ho : r.operand s o = some v)
    (hd : (entries.map ListEntry.asName).Nodup) (hs : ∀ e ∈ entries, s.locals e.asName = none) :
    if r.readable v entries then
      ∃ s', r.declaration s (.pattern entries o) = some s' ∧
        (∀ e ∈ entries, s'.locals e.asName = r.read v e.source) ∧
        ∀ n ∉ entries.map ListEntry.asName, s'.locals n = s.locals n
    else r.declaration s (.pattern entries o) = none := by
  have hrun : r.declaration s (.pattern entries o) =
      if r.nullish v then none else entries.foldlM (r.bindEntry v) s := by
    simp [declaration, ho]
  have hstep (s : Scope V) (e : ListEntry) (w : V) (hn : s.locals e.asName = none)
      (hw : r.read v e.source = some w) : ∃ s', r.bindEntry v s e = some s' ∧
        s'.getters = s.getters ∧
        s'.locals = fun n => if n = e.asName then some w else s.locals n := by
    rw [bindEntry, hw, Option.bind_some, Scope.declare_eq hn]
    exact ⟨_, rfl, rfl, rfl⟩
  rw [hrun]
  by_cases hv : r.nullish v = true
  · simp [readable, hv]
  · by_cases hall : ∀ e ∈ entries, (r.read v e.source).isSome = true
    · have hreadable : r.readable v entries = true := by simpa [readable, hv] using hall
      obtain ⟨s', hfold, -, hbound, hkept⟩ := foldlM_of_step hstep hd hs hall
      rw [if_pos hreadable, if_neg hv]
      exact ⟨s', hfold, hbound, hkept⟩
    · push Not at hall
      obtain ⟨e, he, hnone⟩ := hall
      have hreadable : r.readable v entries = false := by
        simp only [readable, Bool.and_eq_false_iff, List.all_eq_false]
        exact .inr ⟨e, he, hnone⟩
      rw [hreadable, if_neg Bool.false_ne_true, if_neg hv]
      exact foldlM_bindEntry_eq_none he (by simpa using hnone)

/-! ## Statements -/

theorem run_cons (d : Declaration) (ds : List Declaration) (s : Scope V) :
    r.run (d :: ds) s = (r.declaration s d).bind (r.run ds) := List.foldlM_cons

theorem run_singleton (d : Declaration) (s : Scope V) : r.run [d] s = r.declaration s d := by
  simp [run]

theorem declaration_temporary (hv : r.require specifier = some v) (ht : s.locals temp = none) :
    r.declaration s (.const temp (.operand (.module specifier))) = some (s.set temp v) := by
  rw [declaration, term, operand, hv, Option.bind_some, Scope.declare_eq ht]

/-- A default import binds the default export, if the list behind it does not throw. -/
theorem run_defaultImport (hv : r.require specifier = some v) {named : Option (List ListEntry)}
    (hn : (temp :: x :: (named.getD []).map ListEntry.asName).Nodup)
    (hs : ∀ n ∈ temp :: x :: (named.getD []).map ListEntry.asName, s.locals n = none) :
    (r.run (importDeclarations temp specifier (some x) named) s).bind (·.locals x) =
      if named.all (r.readable v) then r.defaultExport v else none := by
  obtain ⟨htemp, hn'⟩ := List.nodup_cons.mp hn
  obtain ⟨hx, hnames⟩ := List.nodup_cons.mp hn'
  have hne : x ≠ temp := fun h => htemp (by simp [h])
  have hmain : r.declaration (s.set temp v) (.const x (defaultTerm temp)) =
      (r.defaultExport v).bind ((s.set temp v).declare x) := by
    rw [declaration, term_defaultTerm (s.locals_set_self temp v)]
  rw [importDeclarations, run_cons, declaration_temporary hv (hs temp List.mem_cons_self),
    Option.bind_some, run_cons, hmain]
  cases hd : r.defaultExport v with
  | none => simp
  | some d =>
    have hfree : (s.set temp v).locals x = none := by
      rw [Scope.locals_set_of_ne hne, hs x (by simp)]
    rw [Option.bind_some, Scope.declare_eq hfree, Option.bind_some]
    cases named with
    | none => simp [run]
    | some entries =>
      rw [Option.getD_some] at hs htemp hnames hx
      have hkeep : ∀ e ∈ entries, ((s.set temp v).set x d).locals e.asName = none := by
        intro e he
        have hmem : e.asName ∈ entries.map ListEntry.asName := List.mem_map_of_mem he
        have hex : e.asName ≠ x := fun h => hx (h ▸ hmem)
        have het : e.asName ≠ temp := fun h => htemp (List.mem_cons_of_mem _ (h ▸ hmem))
        rw [Scope.locals_set_of_ne hex, Scope.locals_set_of_ne het]
        exact hs _ (List.mem_cons_of_mem _ (List.mem_cons_of_mem _ hmem))
      have htemp' : r.operand ((s.set temp v).set x d) (.name temp) = some v := by
        rw [operand, Scope.locals_set_of_ne hne.symm, Scope.locals_set_self]
      have hpattern := declaration_pattern htemp' hnames hkeep
      rw [Option.elim_some, run_singleton, Option.all_some]
      by_cases hr : r.readable v entries = true
      · rw [if_pos hr] at hpattern ⊢
        obtain ⟨s', hrun, -, hkept⟩ := hpattern
        rw [hrun, Option.bind_some, hkept x hx, Scope.locals_set_self]
      · rw [if_neg hr] at hpattern ⊢
        rw [hpattern, Option.bind_none]

/-- A list binds what is read for it, also for `default`. -/
theorem run_namedImport (hv : r.require specifier = some v) {e : ListEntry} (he : e ∈ entries)
    (hn : (entries.map ListEntry.asName).Nodup)
    (hs : ∀ n ∈ entries.map ListEntry.asName, s.locals n = none) :
    (r.run (importDeclarations temp specifier none (some entries)) s).bind (·.locals e.asName) =
      if r.readable v entries then r.read v e.source else none := by
  have hpattern := declaration_pattern (s := s) (o := .module specifier) hv hn fun e he =>
    hs _ (List.mem_map_of_mem he)
  rw [importDeclarations, run_singleton]
  by_cases hr : r.readable v entries = true
  · rw [if_pos hr] at hpattern ⊢
    obtain ⟨s', hrun, hbound, -⟩ := hpattern
    rw [hrun, Option.bind_some, hbound e he]
  · rw [if_neg hr] at hpattern ⊢
    rw [hpattern, Option.bind_none]

/-- A re-export of `default` gives the default export. -/
theorem run_reexport (hv : r.require specifier = some v) {e : ListEntry} (he : e ∈ entries)
    (hsource : e.source = "default") (hn : (entries.map ListEntry.asName).Nodup)
    (ht : s.locals temp = none) (hs : ∀ n ∈ entries.map ListEntry.asName, s.getters n = none) :
    (r.run (reexportDeclarations temp specifier entries) s).bind (r.exported? · e.asName) =
      r.defaultExport v := by
  have hstep (s : Scope V) (e : ListEntry) (t : Term) (hn : s.getters e.asName = none)
      (ht : some (e.exported temp) = some t) :
      ∃ s', r.declaration s (.getter e.asName (e.exported temp)) = some s' ∧ s'.locals = s.locals ∧
        s'.getters = fun n => if n = e.asName then some t else s.getters n := by
    rw [declaration, Scope.addGetter_eq hn, ← Option.some_inj.mp ht]
    exact ⟨_, rfl, rfl, rfl⟩
  have hfree : ∀ e ∈ entries, (s.set temp v).getters e.asName = none := fun e he =>
    hs _ (List.mem_map_of_mem he)
  obtain ⟨s', hrun, hlocals, hgetters, -⟩ := foldlM_of_step hstep hn hfree fun _ _ => rfl
  have htemp : s'.locals temp = some v := by rw [hlocals, Scope.locals_set_self]
  rw [reexportDeclarations, run_cons, declaration_temporary hv ht, Option.bind_some, run, List.foldlM_map, hrun,
    Option.bind_some, exported?, hgetters e he, ListEntry.exported, if_pos hsource]
  exact term_defaultTerm htemp

end Realm

/-! ## The spellings of a default import -/

/-- What a line with the statement turns into, at any indentation. -/
def Emits (p : Progress) (text : List Char) (ds : List Declaration) : Prop :=
  ∀ indent, AllBlank indent →
    (emitLine p (indent ++ text)).1 = indent ++ (declarationsText ds).toList

theorem emits_defaultImport (p : Progress) (x : Identifier) (m : ModuleName) (semicolon : Bool) :
    Emits p (defaultImportText x m semicolon)
      (importDeclarations (temporary p.temporaries) m.specifier (some x.toName.toString) none) := by
  intro indent hi
  have hs : ∃ c r, defaultImportText x m semicolon = c :: r ∧ isBlank c = false :=
    ⟨'i', _, rfl, by decide⟩
  have htext : ((Statement.importFrom (.bindings (some (String.ofList x.text)) none none)
      m.specifier).emit p.temporaries).text = declarationsText (importDeclarations
        (temporary p.temporaries) m.specifier (some x.toName.toString) none) :=
    importText_eq (some x.toName.toString) none (.inl (Option.some_ne_none _))
  have hne : declarationsText (importDeclarations (temporary p.temporaries) m.specifier
      (some x.toName.toString) none) ≠ "" := declarationsText_ne_empty (by simp [importDeclarations])
  rw [emitLine_statement hi hs (recognize?_defaultImport x m semicolon), htext, if_neg hne]

/-- The piece of a list that gives `default` a name. -/
def defaultPiece (margins : Margins) (before after : Spacing) (x : Identifier) : Piece :=
  .item margins (.binding (.renamed ⟨"default".toList, by decide, by decide⟩ before after x.toName))

theorem perm_entries (front back : List Piece) (margins : Margins) (before after : Spacing)
    (x : Identifier) :
    ((front ++ defaultPiece margins before after x :: back).filterMap Piece.kept?).Perm
      (⟨"default", x.toName.toString⟩ :: (front ++ back).filterMap Piece.kept?) :=
  List.perm_middle.filterMap Piece.kept?

/-- The spellings of a default import. A clause with a name binds the default export to it, with and
without a list beside it, and a list that a re-export names it in gives it under the name. A list that
is imported binds the property `default`, which is the same where the value is marked as an ES
module. -/
theorem default_spellings {m : ModuleName} (hv : r.require m.specifier = some v) (x : Identifier)
    (front back : List Piece) (margins : Margins) (before after : Spacing) (semicolon : Bool)
    (p : Progress) (s : Scope V)
    (hline : '\n' ∉ listText (front ++ defaultPiece margins before after x :: back)) :
    let temp := temporary p.temporaries
    let name := x.toName.toString
    let others := (front ++ back).filterMap Piece.kept?
    let names := others.map ListEntry.asName
    let withDefault := front ++ defaultPiece margins before after x :: back
    let entries := withDefault.filterMap Piece.kept?
    let plain := importDeclarations temp m.specifier (some name) none
    let listed := importDeclarations temp m.specifier (some name) (some others)
    let named := importDeclarations temp m.specifier none (some entries)
    let reexported := reexportDeclarations temp m.specifier entries
    (temp :: name :: names).Nodup → (∀ n ∈ temp :: name :: names, s.locals n = none) →
    (∀ n ∈ name :: names, s.getters n = none) →
    (Emits p (defaultImportText x m semicolon) plain ∧
      Emits p (ListStatement.mk (.importList (some x) m) (front ++ back) semicolon).text listed ∧
      Emits p (ListStatement.mk (.importList none m) withDefault semicolon).text named ∧
      Emits p (ListStatement.mk (.exportListFrom m) withDefault semicolon).text reexported) ∧
    (r.run plain s).bind (·.locals name) = r.defaultExport v ∧
    (r.run listed s).bind (·.locals name) =
      (if r.readable v others then r.defaultExport v else none) ∧
    (r.run named s).bind (·.locals name) =
      (if r.readable v others then r.read v "default" else none) ∧
    (r.run reexported s).bind (r.exported? · name) = r.defaultExport v ∧
    ∀ mark, r.truthy v = true → r.read v "__esModule" = some mark → r.truthy mark = true →
      r.read v "default" = r.defaultExport v := by
  intro temp name others names withDefault entries plain listed named reexported hn hlocals hgetters
  obtain ⟨htemp, hnames⟩ := List.nodup_cons.mp hn
  have hentry : (⟨"default", name⟩ : ListEntry) ∈ entries :=
    List.mem_filterMap.mpr ⟨_, List.mem_append_right _ List.mem_cons_self, rfl⟩
  have hperm : (entries.map ListEntry.asName).Perm (name :: names) :=
    (perm_entries front back margins before after x).map ListEntry.asName
  have hbound : (entries.map ListEntry.asName).Nodup := hperm.nodup_iff.mpr hnames
  have hothers : '\n' ∉ listText (front ++ back) := by
    have hall := notMem_listText_iff.mp hline
    have hsub : (front ++ back).Sublist (front ++ defaultPiece margins before after x :: back) :=
      (List.sublist_cons_self _ back).append_left front
    exact notMem_listText_iff.mpr fun piece hp => hall piece (hsub.subset hp)
  have hreadable : r.readable v entries = ((r.read v "default").isSome && r.readable v others) := by
    have hall := (perm_entries front back margins before after x).all_eq
      (f := fun e => (r.read v e.source).isSome)
    rw [Realm.readable, hall, List.all_cons, Realm.readable, Bool.and_left_comm]
  refine ⟨⟨emits_defaultImport p x m semicolon, ?_, ?_, ?_⟩, ?_, ?_, ?_, ?_, ?_⟩
  · intro indent hi
    rw [emitLine_importList (front ++ back) (some x) m semicolon p hothers hi]
    rfl
  · intro indent hi
    rw [emitLine_importList withDefault none m semicolon p hline hi]
    rfl
  · intro indent hi
    rw [emitLine_exportListFrom withDefault m semicolon p hline hi]
  · have hpair : [temp, name].Sublist (temp :: name :: names) :=
      ((List.nil_sublist names).cons_cons name).cons_cons temp
    have hplain : (temp :: name :: ((none : Option (List ListEntry)).getD []).map
      ListEntry.asName).Nodup := hn.sublist hpair
    exact r.run_defaultImport hv hplain fun n h => hlocals n (hpair.subset h)
  · have hlisted : (temp :: name :: ((some others).getD []).map ListEntry.asName).Nodup := hn
    exact r.run_defaultImport hv hlisted hlocals
  · rw [r.run_namedImport hv hentry hbound fun n h =>
      hlocals n (List.mem_cons_of_mem _ (hperm.subset h)), hreadable]
    cases r.read v "default" <;> simp
  · exact r.run_reexport hv hentry rfl hbound (hlocals temp List.mem_cons_self) fun n h =>
      hgetters n (hperm.subset h)
  · exact fun mark hv hr hm => (Realm.defaultExport_of_marked hv hr hm).symm

/-- The values on a heap, as scripts find them. -/
def heapRealm (heap : Heap) (require : String → Option Value) : Realm Value where
  require := require
  truthy
    | .undefined => false
    | .bool b => b
    | .number x => !x.isZero && x.magnitude ≤ Binary64.infinityBits
    | .string text => text != ""
    | .object _ => true
  nullish v := v == .undefined
  read v key := if v = .undefined then none else some (heap.get v key)

def Scope.empty : Scope Value := ⟨fun _ => none, fun _ => none⟩

/-- A module that is marked as an ES module. -/
def markedRealm : Realm Value :=
  let (v, heap) := Heap.initial.allocateWith .plain
    [("__esModule", .bool true), ("default", .string "d"), ("a", .string "a")]
  heapRealm heap fun specifier => if specifier = "m" then some v else none

theorem default_spellings_marked : ∃ entries : List ListEntry,
    entries = [⟨"a", "a"⟩, ⟨"default", "x"⟩] ∧
    (markedRealm.run (importDeclarations "__mod0" "m" (some "x") (some [⟨"a", "a"⟩])) .empty).bind
      (·.locals "x") = some (.string "d") ∧
    (markedRealm.run (importDeclarations "__mod0" "m" none (some entries)) .empty).bind
      (·.locals "x") = some (.string "d") ∧
    (markedRealm.run (reexportDeclarations "__mod0" "m" entries) .empty).bind
      (markedRealm.exported? · "x") = some (.string "d") := by
  let space : Spacing := ⟨[' '], by decide, .space, by decide⟩
  let x : Identifier := ⟨['x'], by decide⟩
  let a : Identifier := ⟨['a'], by decide⟩
  let first : Piece := .item ⟨[], [], .nil, .nil⟩ (.binding (.name a.toName))
  have h := default_spellings (r := markedRealm) (v := .object 1)
    (m := ⟨'"', ['m'], by decide, by decide, by decide⟩) rfl x [first] []
    ⟨[' '], [], .space, .nil⟩ space space true .start .empty (by decide) (by decide)
    (fun _ _ => rfl) fun _ _ => rfl
  exact ⟨_, rfl, h.2.2.1, h.2.2.2.1, h.2.2.2.2.1⟩

/-- What a default import takes for the default export of a plain object is the object, and a list
does not. -/
theorem named_default_reads_property :
    let r := heapRealm (Heap.initial.allocate .plain).2 fun _ => some (.object 1)
    let plain := importDeclarations "__mod0" "m" (some "x") none
    let named := importDeclarations "__mod0" "m" none (some [⟨"default", "x"⟩])
    transpile "import x from \"m\"" = declarationsText plain ∧
    transpile "import \x7b default as x \x7d from \"m\"" = declarationsText named ∧
    (r.run plain .empty).bind (·.locals "x") = some (.object 1) ∧
    (r.run named .empty).bind (·.locals "x") = some .undefined := by
  refine ⟨rfl, rfl, rfl, rfl⟩

end

end ModuleLoader.Transpile
