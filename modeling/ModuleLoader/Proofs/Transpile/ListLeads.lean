import ModuleLoader.Proofs.Transpile.CommentedStatements

/-! What stands in front of the brace that opens a list, and the statements that such a text can be
recognized as. They close the list, and they declare nothing. -/

namespace ModuleLoader.Transpile

open Text

/-! ## Lines that open lists -/

/-- A default name with its comma and the blanks around the comma, or nothing. -/
inductive MainLead : List Char → Prop
  | nil : MainLead []
  | named {d name before after} (hd : isNameStart d = true) (hn : ∀ e ∈ name, isNamePart e = true)
    (hb : AllBlank before) (ha : AllBlank after) :
    MainLead (d :: (name ++ (before ++ ',' :: after)))

/-- What stands in front of the brace that opens a list. -/
inductive ListLead : List Char → Prop
  | imported {d gap main} (hd : isBlank d = true) (hg : AllBlank gap) (hm : MainLead main) :
    ListLead ("import".toList ++ (d :: (gap ++ main)))
  | exported {gap} (hg : AllBlank gap) : ListLead ("export".toList ++ gap)

section

variable {s rest main lead : List Char} {specifier : String}

theorem exists_blanks? (h : blanks? s = some rest) :
    ∃ d gap, isBlank d = true ∧ AllBlank gap ∧ s = d :: (gap ++ rest) := by
  cases s with
  | nil => cases h
  | cons d s =>
    have hd : isBlank d = true := by
      by_contra hd
      rw [blanks?, if_neg hd] at h
      cases h
    obtain ⟨gap, hg, hs⟩ := exists_trimStart s
    rw [eq_trimStart_of_blanks? h, trimStart_of_blank hd]
    exact ⟨d, gap, hd, hg, congrArg (d :: ·) hs⟩

theorem exists_mainLead (h : (match takeName? s with
      | some (_, rest) => match trimStart rest with
        | ',' :: r => startsWith ['\x7b'] (trimStart r)
        | _ => false
      | none => false) = true) : ∃ main r, MainLead main ∧ s = main ++ '\x7b' :: r := by
  cases s with
  | nil => cases h
  | cons d t =>
    have hd : isNameStart d = true := by
      by_contra hd
      rw [takeName?, if_neg hd] at h
      cases h
    obtain ⟨name, tail, ht, hn, hname⟩ : ∃ name tail, t = name ++ tail ∧
        (∀ e ∈ name, isNamePart e = true) ∧ takeName? (d :: t) = some (d :: name, tail) :=
      ⟨t.takeWhile isNamePart, t.dropWhile isNamePart, List.takeWhile_append_dropWhile.symm,
        fun e he => List.mem_takeWhile_imp he, by rw [takeName?, if_pos hd]⟩
    rw [hname] at h
    dsimp only at h
    split at h
    · next r hr =>
      obtain ⟨more, hmore⟩ := startsWith_iff.mp h
      obtain ⟨before, hb, hbefore⟩ := exists_trimStart tail
      obtain ⟨after, ha, hafter⟩ := exists_trimStart r
      refine ⟨_, more, .named hd hn hb ha, ?_⟩
      rw [ht, hbefore, hr, hafter, ← hmore]
      simp
    · cases h

theorem exists_listLead (h : opensList s = true) :
    ∃ lead r, ListLead lead ∧ s = lead ++ '\x7b' :: r := by
  rw [opensList] at h
  cases himport : after? "import".toList s with
  | some rest =>
    rw [himport] at h
    dsimp only at h
    cases hb : blanks? rest with
    | none =>
      rw [hb] at h
      cases h
    | some clause =>
      rw [hb] at h
      obtain ⟨d, gap, hd, hg, hrest⟩ := exists_blanks? hb
      obtain ⟨main, r, hm, hclause⟩ : ∃ main r, MainLead main ∧ clause = main ++ '\x7b' :: r := by
        rcases Bool.or_eq_true_iff.mp h with h | h
        · obtain ⟨r, hr⟩ := startsWith_iff.mp h
          exact ⟨[], r, .nil, hr.symm⟩
        · exact exists_mainLead h
      refine ⟨_, r, .imported hd hg hm, ?_⟩
      rw [after?_eq_some_iff.mp himport, hrest, hclause, List.append_assoc "import".toList,
        List.cons_append, List.append_assoc]
  | none =>
    rw [himport] at h
    dsimp only at h
    cases hexport : after? "export".toList s with
    | none =>
      rw [hexport] at h
      cases h
    | some rest =>
      rw [hexport] at h
      obtain ⟨r, hr⟩ := startsWith_iff.mp h
      obtain ⟨gap, hg, hgap⟩ := exists_trimStart rest
      refine ⟨_, r, .exported hg, ?_⟩
      rw [after?_eq_some_iff.mp hexport, hgap, ← hr, List.append_assoc "export".toList]
      rfl

/-! ## Statements with lists -/

theorem eq_of_clauseBeforeFrom? {clause : List Char}
    (h : clauseBeforeFrom? s = some (clause, specifier)) :
    ∃ tail, s = clause ++ tail ∧ clause ≠ [] ∧ fromSpecifier? tail = some specifier := by
  induction s generalizing clause with
  | nil => cases h
  | cons d r ih =>
    rw [clauseBeforeFrom?] at h
    split at h
    · next found hf =>
      cases h
      exact ⟨r, rfl, List.cons_ne_nil _ _, hf⟩
    · obtain ⟨⟨later, found⟩, hl, he⟩ := Option.map_eq_some_iff.mp h
      cases he
      obtain ⟨tail, hr, -, hf⟩ := ih hl
      exact ⟨tail, by rw [hr, List.cons_append], List.cons_ne_nil _ _, hf⟩

/-- Neither a quote nor a brace. -/
def isOuter (d : Char) : Bool := !isQuoteMark d && d != '\x7b'

theorem isOuter_of_isBlank {d : Char} (h : isBlank d = true) : isOuter d = true := by
  have hbrace : d ≠ '\x7b' := by
    rintro rfl
    exact absurd h (by decide)
  simp [isOuter, isQuoteMark_of_isBlank h, hbrace]

theorem isOuter_of_isNamePart {d : Char} (h : isNamePart d = true) : isOuter d = true := by
  rw [isOuter, Bool.and_eq_true, Bool.not_eq_true', bne_iff_ne]
  constructor
  · rw [Bool.eq_false_iff]
    intro hq
    simp only [isQuoteMark, Bool.or_eq_true, beq_iff_eq] at hq
    rcases hq with rfl | rfl <;> exact absurd h (by decide)
  · rintro rfl
    exact absurd h (by decide)

theorem MainLead.outer (h : MainLead main) : ∀ d ∈ main, isOuter d = true := by
  cases h with
  | nil => simp
  | named hd hn hb ha =>
    have hstart := isOuter_of_isNamePart (isNamePart_of_isNameStart hd)
    refine List.forall_mem_cons.mpr ⟨hstart, List.forall_mem_append.mpr
      ⟨fun e he => isOuter_of_isNamePart (hn e he), List.forall_mem_append.mpr
        ⟨fun e he => isOuter_of_isBlank (hb e he), List.forall_mem_cons.mpr
          ⟨by decide, fun e he => isOuter_of_isBlank (ha e he)⟩⟩⟩⟩

/-- No brace stands between a clause and the quote of the specifier behind it. -/
theorem fromSpecifier?_brace (hm : ∀ d ∈ main, isOuter d = true) (r : List Char) :
    fromSpecifier? (main ++ '\x7b' :: r) = none := by
  by_contra hne
  obtain ⟨specifier, hs⟩ := Option.ne_none_iff_exists'.mp hne
  obtain ⟨front, gap, q, tail, htext, hf, hg, hq⟩ := eq_of_fromSpecifier? hs
  have hword : ∀ d ∈ "from".toList, isOuter d = true := by decide
  have hbrace : isOuter '\x7b' = false := by decide
  have hquote : isOuter q = false := by simp [isOuter, hq]
  have hdrop := congrArg (List.dropWhile isOuter) htext
  rw [List.dropWhile_append_of_pos hm, List.dropWhile_append_of_pos fun d hd =>
    isOuter_of_isBlank (hf d hd), List.dropWhile_append_of_pos hword, List.dropWhile_append_of_pos
    fun d hd => isOuter_of_isBlank (hg d hd), List.dropWhile_cons_of_neg (by simp [hbrace]),
    List.dropWhile_cons_of_neg (by simp [hquote])] at hdrop
  rw [← (List.cons.inj hdrop).1] at hq
  exact absurd hq (by decide)

theorem exists_clause_of_clauseBeforeFrom? {clause : List Char} (hm : MainLead main) {r : List Char}
    (h : clauseBeforeFrom? (main ++ '\x7b' :: r) = some (clause, specifier)) :
    ∃ x tail, clause = main ++ '\x7b' :: x ∧ r = x ++ tail ∧
      fromSpecifier? tail = some specifier := by
  obtain ⟨tail, ht, -, hf⟩ := eq_of_clauseBeforeFrom? h
  have hno (more : List Char) (hmore : ∀ d ∈ more, isOuter d = true) :
      tail ≠ more ++ '\x7b' :: r := by
    rintro rfl
    rw [fromSpecifier?_brace hmore] at hf
    cases hf
  obtain ⟨more, hc, hb⟩ | ⟨more, hc, hb⟩ := List.append_eq_append_iff.mp ht
  · cases more with
    | nil => exact absurd hb.symm (hno [] (by simp))
    | cons d x =>
      obtain ⟨rfl, rfl⟩ := List.cons.inj hb
      exact ⟨x, tail, hc, rfl, hf⟩
  · exact absurd hb (hno more fun d hd => hm.outer d (hc ▸ List.mem_append_right _ hd))

/-- The entries of the list that a clause ends in. -/
def ImportClause.listed : ImportClause → List ListEntry
  | .types => []
  | .bindings _ _ named => named.getD []

/-- The entries of the list of a statement. -/
def Statement.listed : Statement → List ListEntry
  | .importFrom clause _ => clause.listed
  | .exportListFrom entries _ => entries
  | .exportList entries => entries
  | _ => []

theorem exists_list_of_bindings? {main : Option String} {x : List Char} {clause : ImportClause}
    (h : bindings? main ('\x7b' :: x) = some clause) :
    ∃ list, x = list ++ ['\x7d'] ∧ clause.listed = listEntries list := by
  rw [bindings?] at h
  split at h
  · next hlast =>
    cases h
    obtain ⟨list, rfl⟩ := List.getLast?_eq_some_iff.mp hlast
    exact ⟨list, rfl, by rw [List.dropLast_concat]; rfl⟩
  · cases h

theorem eq_of_brace {a b x y : List Char} (ha : ∀ d ∈ a, isOuter d = true)
    (hb : ∀ d ∈ b, isOuter d = true) (h : a ++ '\x7b' :: x = b ++ '\x7b' :: y) : a = b := by
  have hbrace : ¬isOuter '\x7b' = true := by simp [isOuter]
  have htake := congrArg (List.takeWhile isOuter) h
  rwa [List.takeWhile_append_of_pos ha, List.takeWhile_append_of_pos hb,
    List.takeWhile_cons_of_neg hbrace, List.takeWhile_cons_of_neg hbrace, List.append_nil,
    List.append_nil] at htake

/-- A clause with a list is no clause of types: a default name has a comma behind it. -/
theorem MainLead.isTypeClause (h : MainLead main) (x : List Char) :
    isTypeClause (main ++ '\x7b' :: x) = false := by
  rw [Transpile.isTypeClause]
  cases ht : after? "type ".toList (main ++ '\x7b' :: x) with
  | none => rfl
  | some rest =>
    obtain ⟨front, hf, hrest⟩ := exists_trimStart rest
    have htext : main ++ '\x7b' :: x = ("type ".toList ++ front) ++ trimStart rest := by
      rw [after?_eq_some_iff.mp ht, List.append_assoc, ← hrest]
    show (startsWith ['\x7b'] (trimStart rest) || isAsciiName (trimStart rest)) = false
    rw [Bool.or_eq_false_iff, Bool.eq_false_iff, Bool.eq_false_iff]
    constructor
    · intro hs
      obtain ⟨r, hr⟩ := startsWith_iff.mp hs
      rw [← hr] at htext
      have hfront : ∀ d ∈ "type ".toList ++ front, isOuter d = true := List.forall_mem_append.mpr
        ⟨by decide, fun d hd => isOuter_of_isBlank (hf d hd)⟩
      have hmain := eq_of_brace h.outer hfront htext
      cases h with
      | nil => cases hmain
      | @named d name before after hd hn hb ha =>
        have hcomma : ',' ∈ "type ".toList ++ front := by
          rw [← hmain]
          simp
        rcases List.mem_append.mp hcomma with hm | hm
        · exact absurd hm (by decide)
        · exact absurd (hf _ hm) (by decide)
    · intro hs
      have hbrace : '\x7b' ∈ ("type ".toList ++ front) ++ trimStart rest := by
        rw [← htext]
        simp
      rcases List.mem_append.mp hbrace with hm | hm
      · rcases List.mem_append.mp hm with hm | hm
        · exact absurd hm (by decide)
        · exact absurd (hf _ hm) (by decide)
      · exact absurd (Identifier.forall_mem ⟨_, hs⟩ _ hm) (by decide)

theorem MainLead.starts (h : MainLead main) (x : List Char) : ∃ d r, main ++ '\x7b' :: x = d :: r ∧
    isBlank d = false ∧ isQuoteMark d = false := by
  cases h with
  | nil => exact ⟨'\x7b', x, rfl, by decide, by decide⟩
  | named hd hn hb ha =>
    have hpart := isNamePart_of_isNameStart hd
    refine ⟨_, _, rfl, ?_, ?_⟩
    · rw [Bool.eq_false_iff]
      intro hblank
      rw [isNamePart_of_isBlank hblank] at hpart
      cases hpart
    · simpa using (Bool.and_eq_true_iff.mp (isOuter_of_isNamePart hpart)).1

theorem MainLead.trim_append (h : MainLead main) (x : List Char) :
    trim (main ++ '\x7b' :: x) = main ++ '\x7b' :: trimEnd x := by
  obtain ⟨d, r, hd, hblank, -⟩ := h.starts x
  rw [trim, hd, trimStart_of_not_blank hblank, ← hd, trimEnd_append_cons (by decide)]

/-- What a default name leaves of a clause is its list, less some blanks at the end. -/
theorem MainLead.rest_of_defaultName? (hm : MainLead main) {x : List Char} {name : Option String}
    (h : defaultName? (main ++ '\x7b' :: x) = some (name, rest)) :
    ∃ y back, rest = '\x7b' :: y ∧ x = y ++ back ∧ AllBlank back := by
  cases hm with
  | nil =>
    cases h
    exact ⟨x, [], rfl, (List.append_nil x).symm, .nil⟩
  | @named d name before after hd hname hb ha =>
    have htext : d :: (name ++ (before ++ ',' :: after)) ++ '\x7b' :: x =
        (d :: (name ++ before)) ++ ',' :: (after ++ '\x7b' :: x) := by simp
    have hcomma : ',' ∉ d :: (name ++ before) := by
      simp only [List.mem_cons, List.mem_append, not_or]
      refine ⟨?_, fun h => absurd (hname _ h) (by decide), fun h => absurd (hb _ h) (by decide)⟩
      rintro rfl
      exact absurd hd (by decide)
    have hstart : d ≠ '\x7b' ∧ d ≠ '*' := by
      constructor <;> (rintro rfl; exact absurd hd (by decide))
    have htrim : trim (after ++ '\x7b' :: x) = '\x7b' :: trimEnd x := by
      rw [trim, trimStart_append_of_blank ha, trimStart_of_not_blank (by decide)]
      exact trimEnd_append_cons (by decide) [] x
    rw [htext, defaultName?, cutAt?_of_notMem hcomma, startsWith_singleton, startsWith_singleton,
      if_neg (by simp [hstart])] at h
    dsimp only at h
    rw [htrim] at h
    split at h
    · cases h
      obtain ⟨back, hback, hx⟩ := exists_trimEnd x
      exact ⟨trimEnd x, back, rfl, hx, hback⟩
    · cases h

theorem exists_list_of_importClause? {clause : ImportClause} (hm : MainLead main) {x : List Char}
    (h : importClause? (main ++ '\x7b' :: x) = some clause) :
    ∃ list back, x = list ++ '\x7d' :: back ∧ AllBlank back ∧
      clause.listed = listEntries list := by
  rw [importClause?, hm.trim_append] at h
  dsimp only at h
  rw [hm.isTypeClause] at h
  obtain ⟨⟨name, rest⟩, hn, h⟩ := Option.bind_eq_some_iff.mp h
  obtain ⟨y, more, rfl, hy, hmore⟩ := hm.rest_of_defaultName? hn
  obtain ⟨list, hl, hlisted⟩ := exists_list_of_bindings? h
  obtain ⟨back, hback, hx⟩ := exists_trimEnd x
  rw [hy, hl, List.append_assoc, List.append_assoc] at hx
  exact ⟨list, more ++ back, hx, hmore.append hback, hlisted⟩

/-- Whether what follows a list ends its statement: a specifier behind `from`, or nothing more. -/
def EndsList (rest : List Char) : Prop :=
  endsStatement rest = true ∨ ∃ specifier, fromSpecifier? rest = some specifier

theorem endsList_append {back : List Char} (hb : AllBlank back)
    (h : fromSpecifier? rest = some specifier) : EndsList (back ++ rest) :=
  .inr ⟨specifier, by rw [fromSpecifier?, trimStart_append_of_blank hb]; exact h⟩

theorem exists_list_of_exportList? {st : Statement} (h : exportList? s = some st) :
    ∃ list tail, trimStart s = '\x7b' :: (list ++ '\x7d' :: tail) ∧ EndsList tail ∧
      st.listed = listEntries list := by
  obtain ⟨list, tail, hb, ⟨specifier, hf, rfl⟩ | ⟨hends, rfl⟩⟩ := exists_of_exportList? h
  · exact ⟨list, tail, (braced?_eq_some_iff.mp hb).1, .inr ⟨specifier, hf⟩, rfl⟩
  · exact ⟨list, tail, (braced?_eq_some_iff.mp hb).1, .inl hends, rfl⟩

theorem importStatement?_listed {d : Char} {gap r : List Char} {st : Statement}
    (hd : isBlank d = true) (hg : AllBlank gap) (hm : MainLead main)
    (h : importStatement? (d :: (gap ++ (main ++ '\x7b' :: r))) = some st) :
    ∃ list rest, r = list ++ '\x7d' :: rest ∧ EndsList rest ∧ st.listed = listEntries list := by
  obtain ⟨e, t, he, hblank, hquote⟩ := hm.starts r
  have hstart : trimStart (d :: (gap ++ (main ++ '\x7b' :: r))) = e :: t := by
    rw [trimStart_of_blank hd, trimStart_append_of_blank hg, he, trimStart_of_not_blank hblank]
  have hnone : finalSpecifier? (d :: (gap ++ (main ++ '\x7b' :: r))) = none := by
    rw [finalSpecifier?, hstart, specifier?, if_neg (by simp [hquote])]
    rfl
  rw [importStatement?, hnone] at h
  obtain ⟨x, hx, h⟩ := Option.bind_eq_some_iff.mp h
  obtain ⟨⟨clause, specifier⟩, hc, h⟩ := Option.bind_eq_some_iff.mp h
  obtain ⟨k, hk, hst⟩ := Option.bind_eq_some_iff.mp h
  rw [eq_trimStart_of_blanks? hx, hstart, ← he] at hc
  obtain ⟨x, tail, rfl, hr, hf⟩ := exists_clause_of_clauseBeforeFrom? hm hc
  obtain ⟨list, back, hx, hb, hlisted⟩ := exists_list_of_importClause? hm hk
  cases hst
  rw [hx, List.append_assoc] at hr
  exact ⟨list, back ++ tail, hr, endsList_append hb hf, hlisted⟩

/-- Behind `export`, a brace can only open a list. -/
theorem exportForms_of_brace {r : List Char} (hs : trimStart s = '\x7b' :: r) :
    exportAll? s = none ∧ exportDefault? s = none ∧ exportDeclaration? s = none ∧
      (blanks? s).bind declarators? = none := by
  have hall : exportAll? s = none := by
    rw [exportAll?, hs]
    rfl
  cases hb : blanks? s with
  | none => exact ⟨hall, by rw [exportDefault?, hb]; rfl, by rw [exportDeclaration?, hb]; rfl, rfl⟩
  | some x =>
    obtain rfl : x = '\x7b' :: r := (eq_trimStart_of_blanks? hb).trans hs
    exact ⟨hall, by rw [exportDefault?, hb]; rfl, by rw [exportDeclaration?, hb]; rfl, rfl⟩

/-- A statement with a list closes it, keeps no text and declares nothing. -/
theorem ListLead.recognized (hl : ListLead lead) {r : List Char} {st : Statement}
    (h : Statement.recognize? (lead ++ '\x7b' :: r) = some st) :
    (∃ list rest, r = list ++ '\x7d' :: rest ∧ EndsList rest ∧ st.listed = listEntries list) ∧
      (∀ t names, st.extended t names = st) ∧
        exportedDeclarators? (lead ++ '\x7b' :: r) = none := by
  cases hl with
  | @imported d gap main hd hg hm =>
    have htext : "import".toList ++ (d :: (gap ++ main)) ++ '\x7b' :: r =
        "import".toList ++ (d :: (gap ++ (main ++ '\x7b' :: r))) := by
      rw [List.append_assoc "import".toList, List.cons_append, List.append_assoc]
    rw [htext] at h ⊢
    rw [Statement.recognize?, after?_eq_some_iff.mpr rfl] at h
    exact ⟨importStatement?_listed hd hg hm h, extended_importStatement? h, rfl⟩
  | @exported gap hg =>
    obtain ⟨rest, hrest⟩ : ∃ rest, rest = gap ++ '\x7b' :: r := ⟨_, rfl⟩
    have htext : "export".toList ++ gap ++ '\x7b' :: r = "export".toList ++ rest := by
      rw [hrest, List.append_assoc "export".toList]
    rw [htext] at h ⊢
    have himport : after? "import".toList ("export".toList ++ rest) = none := rfl
    have hexport : after? "export".toList ("export".toList ++ rest) = some rest :=
      after?_eq_some_iff.mpr rfl
    have hstart : trimStart rest = '\x7b' :: r := by
      rw [hrest, trimStart_append_of_blank hg, trimStart_of_not_blank (by decide)]
    obtain ⟨hall, hdefault, hdeclaration, hnone⟩ := exportForms_of_brace hstart
    rw [Statement.recognize?, himport, hexport] at h
    change exportStatement? rest = some st at h
    rw [exportStatement?, hall, hdefault, hdeclaration, Option.none_or, Option.none_or,
      Option.or_none] at h
    obtain ⟨list, tail, hr, hends, hlisted⟩ := exists_list_of_exportList? h
    rw [hstart] at hr
    refine ⟨⟨list, tail, (List.cons.inj hr).2, hends, hlisted⟩, extended_exportList? h, ?_⟩
    rw [exportedDeclarators?, hexport]
    exact hnone

/-- A line that opens a list holds no statement of its own. -/
theorem isOpenList_of_recognize? {line : List Char} {st : Statement}
    (h : Statement.recognize? (trimStart line) = some st) : isOpenList line = false := by
  rw [Bool.eq_false_iff]
  intro ho
  obtain ⟨hopens, hcloses⟩ := Bool.and_eq_true_iff.mp ho
  obtain ⟨lead, r, hl, hs⟩ := exists_listLead hopens
  have hmem : '\x7d' ∈ trimStart line := by
    rw [hs] at h ⊢
    obtain ⟨⟨list, rest, hr, -⟩, -⟩ := hl.recognized h
    simp [hr]
  simp [closesList, hmem] at hcloses


end

end ModuleLoader.Transpile
