import ModuleLoader.Proofs.Text.Slices
import ModuleLoader.Proofs.Text.Trim
import ModuleLoader.Proofs.Transpile.Lines

/-! The header of transpiled texts. It tells what the export statements recorded, in their order, and
it goes behind the directives that the text begins with. -/

namespace ModuleLoader.Transpile

open Text

/-! ## Lines in front of the header -/

/-- A line comment, indented or not. -/
inductive IsCommentLine : List Char → Prop
  | intro {indent rest} (hi : AllBlank indent) : IsCommentLine (indent ++ '/' :: '/' :: rest)

/-- A string literal without escapes that has a line to itself. A semicolon may end it. -/
inductive IsDirectiveLine : List Char → Prop
  | intro {indent body gap mark tail : List Char} {q : Char} (hi : AllBlank indent)
      (hq : q = '"' ∨ q = '\'') (hb : q ∉ body) (he : '\\' ∉ body) (hg : AllBlank gap)
      (hm : mark = [] ∨ mark = [';']) (ht : AllBlank tail) :
      IsDirectiveLine (indent ++ q :: (body ++ q :: (gap ++ (mark ++ tail))))

/-- What may stand in front of the first statement and the header. -/
def IsPrologueLine (line : List Char) : Prop :=
  AllBlank line ∨ IsCommentLine line ∨ IsDirectiveLine line

section

variable {line : List Char} {q : Char}

theorem trimStart_indented {indent r : List Char} {c : Char} (hi : AllBlank indent)
    (hc : isBlank c = false) : trimStart (indent ++ c :: r) = c :: r := by
  rw [trimStart_append_of_blank hi, trimStart_of_not_blank hc]

theorem isBlank_quote (hq : q = '"' ∨ q = '\'') : isBlank q = false := by
  rcases hq with rfl | rfl <;> decide

theorem isQuoteMark_iff : isQuoteMark q = true ↔ q = '"' ∨ q = '\'' := by
  simp [isQuoteMark]

theorem isDirective_iff : isDirective line = true ↔ IsDirectiveLine line := by
  constructor
  · intro h
    obtain ⟨indent, hi, hline⟩ := exists_trimStart line
    unfold isDirective at h
    cases hs : trimStart line with
    | nil => simp [hs] at h
    | cons q r =>
      rw [hs] at h hline
      simp only [Bool.and_eq_true] at h
      obtain ⟨⟨hq, hclose⟩, htail⟩ := h
      rw [isQuoteMark_iff] at hq
      have hbody : ∀ c ∈ r.takeWhile (fun c => c != q && c != '\\'), c ≠ q ∧ c ≠ '\\' :=
        fun c hc => by simpa using List.mem_takeWhile_imp hc
      obtain ⟨rest, hrest⟩ : ∃ rest, r.dropWhile (fun c => c != q && c != '\\') = q :: rest := by
        rw [startsWith_singleton, beq_iff_eq] at hclose
        exact List.head?_eq_some_iff.mp hclose
      obtain ⟨gap, hg, hgap⟩ := exists_trimStart rest
      rw [hrest, List.drop_one, List.tail_cons] at htail
      have hr : r = r.takeWhile (fun c => c != q && c != '\\') ++ q :: rest := by
        rw [← hrest, List.takeWhile_append_dropWhile]
      have hq' : q ∉ r.takeWhile (fun c => c != q && c != '\\') := fun hm => (hbody q hm).1 rfl
      have he' : '\\' ∉ r.takeWhile (fun c => c != q && c != '\\') := fun hm => (hbody _ hm).2 rfl
      rw [hline, hr, hgap]
      split at htail
      · next ht =>
        rw [ht]
        exact .intro hi hq hq' he' hg (.inl (by rfl : [] = [])) .nil
      · next tail ht =>
        have hblank : AllBlank tail := by
          rw [← trimStart_eq_nil_iff]
          simpa using htail
        rw [ht]
        exact .intro hi hq hq' he' hg (.inr rfl) hblank
      · cases htail
  · rintro ⟨hi, hq, hb, he, hg, hm, ht⟩
    rename_i indent body gap mark tail q
    have hplain : ∀ c ∈ body, (c != q && c != '\\') = true := fun c hc => by
      have hcq : c ≠ q := fun h => hb (h ▸ hc)
      have hce : c ≠ '\\' := fun h => he (h ▸ hc)
      simp [hcq, hce]
    have hdrop : (body ++ q :: (gap ++ (mark ++ tail))).dropWhile (fun c => c != q && c != '\\') =
        q :: (gap ++ (mark ++ tail)) := by
      rw [List.dropWhile_append_of_pos hplain]
      simp
    unfold isDirective
    rw [trimStart_indented hi (isBlank_quote hq)]
    dsimp only
    rw [hdrop, List.drop_one, List.tail_cons, isQuoteMark_iff.mpr hq, startsWith_singleton]
    rcases hm with rfl | rfl
    · have hs : trimStart (gap ++ ([] ++ tail)) = [] := trimStart_eq_nil_iff.mpr (hg.append ht)
      rw [hs]
      simp
    · have hs : trimStart (gap ++ ([';'] ++ tail)) = ';' :: tail := trimStart_indented hg (by decide)
      rw [hs]
      simp [trimStart_eq_nil_iff.mpr ht]

theorem isIdleLine_iff : isIdleLine line = true ↔ AllBlank line ∨ IsCommentLine line := by
  have hcomment : startsWith ['/', '/'] (trim line) = true ↔ IsCommentLine line := by
    obtain ⟨indent, hi, hline⟩ := exists_trimStart line
    obtain ⟨back, hb, hback⟩ := exists_trimEnd (trimStart line)
    constructor
    · intro h
      obtain ⟨rest, hrest⟩ := startsWith_iff.mp h
      rw [hline, hback, ← trim, ← hrest]
      have hc : IsCommentLine (indent ++ '/' :: '/' :: (rest ++ back)) := .intro hi
      simpa using hc
    · rintro ⟨hi⟩
      rename_i indent rest
      refine startsWith_iff.mpr ⟨trimEnd rest, ?_⟩
      have hslash : isBlank '/' = false := by decide
      rw [trim, trimStart_indented hi hslash]
      exact (trimEnd_append_cons hslash ['/'] rest).symm
  rw [isIdleLine, Bool.or_eq_true, hcomment, List.isEmpty_iff, trim_eq_nil_iff]

theorem isPrologueLine_iff :
    IsPrologueLine line ↔ isIdleLine line = true ∨ isDirective line = true := by
  rw [isIdleLine_iff, isDirective_iff, IsPrologueLine, or_assoc]

theorem IsDirectiveLine.exists_quote (h : IsDirectiveLine line) :
    ∃ q r, trimStart line = q :: r ∧ (q = '"' ∨ q = '\'') := by
  obtain ⟨hi, hq, -⟩ := h
  exact ⟨_, _, trimStart_indented hi (isBlank_quote hq), hq⟩

theorem IsDirectiveLine.not_isIdleLine (h : IsDirectiveLine line) : isIdleLine line = false := by
  obtain ⟨q, r, hs, hq⟩ := h.exists_quote
  rw [Bool.eq_false_iff, Ne, isIdleLine_iff]
  rintro (hb | hc)
  · rw [trimStart_eq_nil_iff.mpr hb] at hs
    cases hs
  · obtain ⟨hi⟩ := hc
    rw [trimStart_indented hi (by decide)] at hs
    obtain rfl := (List.cons.inj hs).1
    exact absurd hq (by decide)

/-- A line in front of the first statement begins none. -/
theorem IsPrologueLine.not_beginsStatement (h : IsPrologueLine line) : beginsStatement line = false := by
  have hfirst : ∀ c ∈ (trimStart line).head?, c ≠ 'i' ∧ c ≠ 'e' := by
    rcases h with hb | hc | hd
    · rw [trimStart_eq_nil_iff.mpr hb]
      simp
    · obtain ⟨hi⟩ := hc
      rw [trimStart_indented hi (by decide)]
      simp
    · obtain ⟨q, r, hs, hq⟩ := hd.exists_quote
      rw [hs]
      rcases hq with rfl | rfl <;> simp
  cases hs : trimStart line with
  | nil => rw [beginsStatement, hs]; rfl
  | cons c r =>
    obtain ⟨hi, he⟩ := hfirst c (by rw [hs]; rfl)
    simp [beginsStatement, hs, startsWith, List.isPrefixOf_cons_cons, hi.symm, he.symm]

/-- A directive stays one when the blanks behind it give way to its semicolon. -/
theorem IsDirectiveLine.ended (h : IsDirectiveLine line) :
    ∃ mark, (mark = [] ∨ mark = [';']) ∧
      (IsDirectiveLine (trimEnd line ++ mark) ∧ (trimEnd line ++ mark).getLast? = some ';') ∧
      (if (trimEnd line).getLast? = some ';' then trimEnd line else trimEnd line ++ [';']) =
        trimEnd line ++ mark := by
  obtain ⟨hi, hq, hb, he, hg, hm, ht⟩ := h
  rename_i indent body gap mark tail q
  have hsemi : isBlank ';' = false := by decide
  rcases hm with rfl | rfl
  · have hend : trimEnd (indent ++ q :: (body ++ q :: (gap ++ ([] ++ tail)))) =
        indent ++ q :: (body ++ [q]) := by
      have hgap : trimEnd (gap ++ ([] ++ tail)) = [] := trimEnd_eq_nil_iff.mpr (hg.append ht)
      have hassoc (r : List Char) : indent ++ q :: (body ++ q :: r) = (indent ++ q :: body) ++ q :: r := by
        simp
      rw [hassoc, trimEnd_append_cons (isBlank_quote hq), hgap, ← hassoc]
    rw [hend]
    have hlast : (indent ++ q :: (body ++ [q])).getLast? ≠ some ';' := by
      have hne : q ≠ ';' := by rcases hq with rfl | rfl <;> decide
      simpa [List.getLast?_append, List.getLast?_cons] using hne
    refine ⟨[';'], .inr rfl, ⟨?_, List.getLast?_concat⟩, if_neg hlast⟩
    simpa using IsDirectiveLine.intro hi hq hb he .nil (.inr rfl) .nil
  · have hend : trimEnd (indent ++ q :: (body ++ q :: (gap ++ ([';'] ++ tail)))) =
        indent ++ q :: (body ++ q :: (gap ++ [';'])) := by
      have hassoc (r : List Char) : indent ++ q :: (body ++ q :: (gap ++ ';' :: r)) =
          (indent ++ q :: (body ++ q :: gap)) ++ ';' :: r := by simp
      rw [List.singleton_append, hassoc, trimEnd_append_cons hsemi, trimEnd_eq_nil_iff.mpr ht, ← hassoc]
    rw [hend]
    have hlast : (indent ++ q :: (body ++ q :: (gap ++ [';']))).getLast? = some ';' := by
      simp [List.getLast?_append, List.getLast?_cons]
    rw [if_pos hlast]
    refine ⟨[], .inl rfl, ?_, (List.append_nil _).symm⟩
    rw [List.append_nil]
    exact ⟨.intro hi hq hb he hg (.inr rfl) .nil, hlast⟩

end

/-! ## The place of the header -/

/-- Whether line `i` is a directive that has only directives, blank lines and comments before it. -/
def Leads (ls : List (List Char)) (i : Nat) : Prop :=
  (∃ d, ls[i]? = some d ∧ IsDirectiveLine d) ∧ ∀ j l, j < i → ls[j]? = some l → IsPrologueLine l

section

variable {ls : List (List Char)} {first line : List Char} {i : Nat}

theorem Leads.of_succ (h : Leads (first :: ls) (i + 1)) : IsPrologueLine first ∧ Leads ls i :=
  ⟨h.2 0 first (Nat.succ_pos i) rfl, h.1, fun j l hj hl => h.2 (j + 1) l (Nat.succ_lt_succ hj) hl⟩

theorem Leads.lt_length (h : Leads ls i) : i < ls.length := by
  obtain ⟨⟨d, hd, -⟩, -⟩ := h
  exact (List.getElem?_eq_some_iff.mp hd).1

/-- Whether directives lead some lines depends on no line behind them. -/
theorem Leads.of_getElem?_eq {ls' : List (List Char)} (h : Leads ls i)
    (he : ∀ j ≤ i, ls'[j]? = ls[j]?) : Leads ls' i := by
  obtain ⟨⟨d, hd, hdirective⟩, hbefore⟩ := h
  exact ⟨⟨d, (he i le_rfl).trans hd, hdirective⟩,
    fun j l hj hl => hbefore j l hj ((he j hj.le).symm.trans hl)⟩

theorem Leads.of_append_empty (h : Leads (ls ++ [[]]) i) : Leads ls i := by
  have hlt : i < ls.length := by
    by_contra hge
    obtain ⟨⟨d, hd, hdirective⟩, -⟩ := h
    obtain ⟨q, r, hs, -⟩ := hdirective.exists_quote
    rw [List.getElem?_append_right (Nat.le_of_not_lt hge)] at hd
    obtain rfl := List.mem_singleton.mp (List.mem_of_getElem? hd)
    cases hs
  exact h.of_getElem?_eq fun j hj => (List.getElem?_append_left (Nat.lt_of_le_of_lt hj hlt)).symm

/-- The lines up to the last leading directive are counted. -/
theorem Leads.exists_directivesEnd? (h : Leads ls i) : ∃ n, directivesEnd? ls = some n ∧ i < n := by
  induction ls generalizing i with
  | nil => exact absurd h.lt_length (Nat.not_lt_zero i)
  | cons first rest ih =>
    rw [directivesEnd?]
    cases i with
    | zero =>
      obtain ⟨⟨d, hd, hdirective⟩, -⟩ := h
      obtain rfl : first = d := Option.some.inj hd
      rw [if_neg (by simp [hdirective.not_isIdleLine]), if_pos (isDirective_iff.mpr hdirective)]
      refine ⟨_, rfl, ?_⟩
      cases directivesEnd? rest <;> simp
    | succ i =>
      obtain ⟨hfirst, hrest⟩ := h.of_succ
      obtain ⟨n, hn, hlt⟩ := ih hrest
      rw [hn]
      refine ⟨n + 1, ?_, Nat.succ_lt_succ hlt⟩
      by_cases hidle : isIdleLine first = true
      · rw [if_pos hidle]
        rfl
      · rw [if_neg hidle, if_pos ((isPrologueLine_iff.mp hfirst).resolve_left hidle)]
        rfl

/-- The header in its place: in front of the first line where no directive leads, and else behind the
last one that does, which a semicolon ends then. -/
inductive Placed (header : List Char) : List (List Char) → List (List Char) → Prop
  | first {line back} (hn : ∀ i, ¬Leads (line :: back) i) :
    Placed header (line :: back) ((if line = [] then header else header ++ ' ' :: line) :: back)
  | behind {front line back mark} (hf : ∀ l ∈ front, IsPrologueLine l)
    (hm : mark = [] ∨ mark = [';']) (hd : IsDirectiveLine line)
    (he : IsDirectiveLine (trimEnd line ++ mark) ∧ (trimEnd line ++ mark).getLast? = some ';')
    (hlast : ∀ i, Leads (front ++ line :: back) i → i ≤ front.length) :
    Placed header (front ++ line :: back)
      (front ++ (trimEnd line ++ mark ++ ' ' :: header) :: back)

theorem placed_insertHeader (header : List Char) (h : ls ≠ []) :
    Placed header ls (insertHeader header ls) := by
  cases hd : directivesEnd? ls with
  | none =>
    obtain ⟨first, rest, rfl⟩ := List.exists_cons_of_ne_nil h
    have hn (i : Nat) : ¬Leads (first :: rest) i := fun hi => by
      obtain ⟨n, hn, -⟩ := hi.exists_directivesEnd?
      rw [hd] at hn
      cases hn
    have hi : insertHeader header (first :: rest) =
        (if first = [] then header else header ++ ' ' :: first) :: rest := by
      simp [insertHeader, hd, beforeLine]
    rw [hi]
    exact .first hn
  | some n =>
    obtain ⟨front, line, back, rfl, rfl, hline, hfront⟩ := exists_front_of_directivesEnd? hd
    obtain ⟨mark, hm, hended, hif⟩ := (isDirective_iff.mp hline).ended
    have hi : insertHeader header (front ++ line :: back) =
        front ++ (trimEnd line ++ mark ++ ' ' :: header) :: back := by
      simp [insertHeader, hd, afterDirective, hif, List.modify_eq_take_cons_drop]
    rw [hi]
    have hprologue : ∀ l ∈ front, IsPrologueLine l := fun l hl => isPrologueLine_iff.mpr (hfront l hl)
    refine .behind hprologue hm (isDirective_iff.mp hline) hended (fun i hi => ?_)
    obtain ⟨n, hn, hlt⟩ := hi.exists_directivesEnd?
    rw [hd] at hn
    obtain rfl := Option.some.inj hn
    exact Nat.le_of_lt_succ hlt

/-- The empty piece behind the last line changes nothing. -/
theorem Placed.append {header : List Char} {out rest : List (List Char)} (h : Placed header ls out)
    (hr : rest = [] ∨ rest = [[]]) : Placed header (ls ++ rest) (out ++ rest) := by
  have hleads {ls : List (List Char)} {i : Nat} (hi : Leads (ls ++ rest) i) : Leads ls i := by
    rcases hr with rfl | rfl
    · rwa [List.append_nil] at hi
    · exact hi.of_append_empty
  cases h with
  | first hn => exact .first fun i hi => hn i (hleads hi)
  | @behind front line back mark hf hm hd he hlast =>
    rw [List.append_assoc, List.append_assoc]
    refine .behind hf hm hd he fun i hi => hlast i (hleads (by rwa [List.append_assoc]))

end

/-! ## The whole text -/

/-- What a statement has recorded for the header: the names of a list, the name of a default class,
the names that a declaration binds. -/
def Statement.recorded : Statement → List Getter
  | .exportList entries => entries.map fun e => ⟨e.asName, e.source⟩
  | .exportDefaultClass name _ => [⟨"default", name⟩]
  | .exportDeclaration names _ => names.map fun name => ⟨name, name⟩
  | _ => []

def Statement.isExport : Statement → Bool
  | .importOnly _ => false
  | .importFrom _ _ => false
  | _ => true

/-- The statements that are found in some lines. -/
def statements (ls : List (List Char)) : List Statement :=
  (joinLists ls).filterMap fun line => Statement.recognize? (trimStart line)

/-- The header for some statements. -/
def headerFor (found : List Statement) : List Char :=
  "exports.__esModule = true;".toList ++
    (found.flatMap Statement.recorded).flatMap fun g => ' ' :: g.text.toList

theorem Statement.emit_recorded (n : Nat) (st : Statement) :
    (st.emit n).getters = st.recorded ∧ (st.emit n).isExport = st.isExport := by
  cases st <;> exact ⟨rfl, rfl⟩

section

variable {ls : List (List Char)}

theorem emitLines_recorded (p : Progress) (ls : List (List Char)) :
    let found := ls.filterMap fun line => Statement.recognize? (trimStart line)
    (emitLines p ls).2.getters = p.getters ++ found.flatMap Statement.recorded ∧
      (emitLines p ls).2.hasExports = (p.hasExports || found.any Statement.isExport) := by
  induction ls generalizing p with
  | nil => simp [emitLines]
  | cons line rest ih =>
    rw [(emitLines_cons p line rest).2]
    obtain ⟨hgetters, hexports⟩ := ih (emitLine p line).2
    dsimp only at hgetters hexports ⊢
    rw [hgetters, hexports, emitLine]
    cases hr : Statement.recognize? (trimStart line) with
    | none => simp [hr]
    | some st =>
      obtain ⟨hg, he⟩ := st.emit_recorded p.temporaries
      simp [hr, Progress.add, hg, he, Bool.or_assoc]

theorem progressOf_recorded (ls : List (List Char)) :
    (progressOf ls).getters = (statements ls).flatMap Statement.recorded ∧
      (progressOf ls).hasExports = (statements ls).any Statement.isExport :=
  emitLines_recorded .start (joinLists ls)

theorem toList_intercalate_cons (sep first : String) (texts : List String) :
    (sep.intercalate (first :: texts)).toList =
      first.toList ++ texts.flatMap fun t => sep.toList ++ t.toList := by
  induction texts generalizing first with
  | nil => simp
  | cons next rest ih => simp [String.intercalate_cons_cons, ih next]

/-- The header is the mark of an ES module, and a getter for each name recorded. -/
theorem toList_headerText (ls : List (List Char)) :
    (headerText (progressOf ls).getters).toList = headerFor (statements ls) := by
  rw [(progressOf_recorded ls).1, headerText, toList_intercalate_cons, List.flatMap_map]
  rfl

theorem beginsStatement_eq_false_of_scriptLine {line : List Char} {i : Nat}
    (h : IsPrologueLine (scriptLine i line)) : beginsStatement line = false := by
  unfold scriptLine at h
  split at h
  · next hi =>
    obtain ⟨rest, rfl⟩ := startsWith_iff.mp hi.2
    have hs : trimStart (['#', '!'] ++ rest) = '#' :: '!' :: rest :=
      trimStart_of_not_blank (by decide) _
    rw [beginsStatement, hs]
    rfl
  · exact h.not_beginsStatement

/-- In front of the first statement, lines stay as they are. -/
theorem emittedLines_of_prologue {i : Nat}
    (h : ∀ j l, j < i → (dropInterpreter ls)[j]? = some l → IsPrologueLine l) :
    ∀ j < i, (emittedLines ls)[j]? = (dropInterpreter ls)[j]? := by
  intro j hj
  have hbegins : ∀ k line, k < i → ls[k]? = some line → beginsStatement line = false := by
    intro k line hk hl
    refine beginsStatement_eq_false_of_scriptLine (h k (scriptLine k line) hk ?_)
    rw [getElem?_dropInterpreter, hl]
    rfl
  have hlist : ¬ContinuesList ls j := by
    rw [ContinuesList]
    rintro ⟨k, hk, -, ⟨line, hl, hopen⟩, -⟩
    have hno := hbegins k line (hk.trans hj) hl
    rw [beginsStatement_of_isOpenList hopen] at hno
    cases hno
  rw [getElem?_dropInterpreter]
  cases hl : ls[j]? with
  | none =>
    rw [List.getElem?_eq_none_iff] at hl
    exact List.getElem?_eq_none (by rwa [length_emittedLines])
  | some line =>
    obtain ⟨text, ht, -, hsame⟩ := getElem?_emittedLines hl
    rw [ht, hsame hlist (hbegins j line hj hl)]
    rfl

theorem Leads.emittedLines {i : Nat} (h : Leads (dropInterpreter ls) i) :
    ∀ j ≤ i, (emittedLines ls)[j]? = (dropInterpreter ls)[j]? := by
  have hall : ∀ j l, j < i + 1 → (dropInterpreter ls)[j]? = some l → IsPrologueLine l := by
    intro j l hj hl
    obtain rfl | hlt := Nat.eq_or_lt_of_le (Nat.le_of_lt_succ hj)
    · obtain ⟨d, hd, hdirective⟩ := h.1
      obtain rfl := Option.some.inj (hd.symm.trans hl)
      exact .inr (.inr hdirective)
    · exact h.2 j l hlt hl
  exact fun j hj => emittedLines_of_prologue hall j (Nat.lt_succ_of_le hj)

end

/-- The text of a module with its statements emitted, but without a header. -/
def scriptText (source : String) : List Char :=
  textLike source.toList (emittedLines (lines source.toList))

/-- Where a statement exports something, the header stands once in the text of the statements. Only
blank lines, comments and directives come before it, and all directives that the text begins with:
those of the source stay in their lines. Its getters are those of the statements, in their order.
Where no statement exports anything, there is no header. -/
theorem header_placed (source : String) :
    if (statements (lines source.toList)).any Statement.isExport then
      Placed (headerFor (statements (lines source.toList))) ((scriptText source).splitOn '\n')
          ((transpile source).toList.splitOn '\n') ∧
        ∀ i, Leads (dropInterpreter (lines source.toList)) i →
          Leads ((scriptText source).splitOn '\n') i ∧
          ∀ j ≤ i, ((scriptText source).splitOn '\n')[j]? =
            (dropInterpreter (lines source.toList))[j]?
    else (transpile source).toList = scriptText source := by
  have hls : ∀ line ∈ lines source.toList, '\n' ∉ line := fun line hm => notMem_of_mem_lines hm
  rw [toList_transpile, transpileLines_eq, ← (progressOf_recorded _).2]
  split
  · next he =>
    obtain ⟨rest, hrest, hsplit⟩ := exists_splitOn_textLike source.toList
    obtain ⟨hplain, -⟩ := hsplit _ (length_emittedLines _) (emittedLines_plain hls).1
    obtain ⟨hlen, hout⟩ := transpileLines_plain hls
    rw [transpileLines_eq, if_pos he] at hlen hout
    obtain ⟨hcut, -⟩ := hsplit _ hlen hout
    rw [hcut, scriptText, hplain, toList_headerText]
    refine ⟨(placed_insertHeader _ (emittedLines_ne_nil he)).append hrest, fun i hi => ?_⟩
    have hsame : ∀ j ≤ i, (emittedLines (lines source.toList) ++ rest)[j]? =
        (dropInterpreter (lines source.toList))[j]? := by
      intro j hj
      have hlt : j < (emittedLines (lines source.toList)).length := by
        rw [length_emittedLines, ← length_dropInterpreter]
        exact Nat.lt_of_le_of_lt hj hi.lt_length
      rw [List.getElem?_append_left hlt, hi.emittedLines j hj]
    exact ⟨hi.of_getElem?_eq hsame, hsame⟩
  · rfl

example : transpile "// cli\n'use strict'\nexport default 1;" =
    "// cli\n'use strict'; exports.__esModule = true;\nexports.default = 1;" := by decide +kernel

end ModuleLoader.Transpile
