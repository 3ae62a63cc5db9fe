import ModuleLoader.Proofs.Transpile.Joined
import ModuleLoader.Proofs.Transpile.ListLeads

/-! The lines of a source with a comment behind one of its statements. What is emitted stays the same
but for the comment itself, unless the comment is read as part of a declaration or of a list. -/

namespace ModuleLoader.Transpile

open Text

section

variable {s lead : List Char}

/-! ## Emission -/

theorem emit_extended (st : Statement) (t : String) (n : Nat) :
    ((st.extended t st.declared).emit n).getters = (st.emit n).getters ∧
      ((st.extended t st.declared).emit n).isExport = (st.emit n).isExport ∧
      ((st.extended t st.declared).emit n).temporaries = (st.emit n).temporaries ∧
      ((∀ names, st.extended t names = st) ∨
        ((st.extended t st.declared).emit n).text = (st.emit n).text ++ t) := by
  cases st with
  | exportDefaultFunction name text =>
    exact ⟨rfl, rfl, rfl, .inr String.append_assoc.symm⟩
  | exportDefault expression =>
    exact ⟨rfl, rfl, rfl, .inr String.append_assoc.symm⟩
  | exportDefaultClass name text => exact ⟨rfl, rfl, rfl, .inr rfl⟩
  | exportDeclaration names text => exact ⟨rfl, rfl, rfl, .inr rfl⟩
  | importOnly specifier => exact ⟨rfl, rfl, rfl, .inl fun _ => rfl⟩
  | importFrom clause specifier => exact ⟨rfl, rfl, rfl, .inl fun _ => rfl⟩
  | exportAllAs name specifier => exact ⟨rfl, rfl, rfl, .inl fun _ => rfl⟩
  | exportAll specifier => exact ⟨rfl, rfl, rfl, .inl fun _ => rfl⟩
  | exportListFrom entries specifier => exact ⟨rfl, rfl, rfl, .inl fun _ => rfl⟩
  | exportList entries => exact ⟨rfl, rfl, rfl, .inl fun _ => rfl⟩

theorem append_ne_empty {a : String} (ha : a ≠ "") (b : String) : a ++ b ≠ "" := fun h =>
  ha (String.append_eq_empty_iff.mp h).1

theorem text_ne_empty_defaultExport (value : List Char) (n : Nat) :
    ((defaultExport value).emit n).text ≠ "" := by
  have hword : "exports.default = " ≠ "" := by decide
  rw [defaultExport]
  cases functionName? value with
  | some name => exact append_ne_empty (append_ne_empty (append_ne_empty hword _) _) _
  | none =>
    cases hc : defaultClassName? value with
    | some name =>
      have hvalue : value ≠ [] := by
        rintro rfl
        cases hc
      show String.ofList value ≠ ""
      simpa using hvalue
    | none => exact append_ne_empty hword _

theorem text_ne_empty_of_exportDeclaration? {st : Statement} (h : exportDeclaration? s = some st)
    (n : Nat) : (st.emit n).text ≠ "" := by
  obtain ⟨text, -, h⟩ := Option.bind_eq_some_iff.mp h
  obtain ⟨names, hn, h⟩ := Option.bind_eq_some_iff.mp h
  obtain ⟨d, r, rfl, -⟩ := starts_of_declarationNames? hn
  cases h
  show String.ofList (d :: r) ≠ ""
  simp

/-- Only a statement that keeps no text can be emitted as nothing. -/
theorem text_ne_empty_of_recognize? {st : Statement} (h : Statement.recognize? s = some st)
    (n : Nat) : (∀ t names, st.extended t names = st) ∨ (st.emit n).text ≠ "" := by
  rw [Statement.recognize?] at h
  split at h
  · exact .inl (extended_importStatement? h)
  · obtain ⟨rest, -, h⟩ := Option.bind_eq_some_iff.mp h
    obtain hall | ⟨-, h⟩ := Option.or_eq_some_iff.mp h
    · exact .inl (extended_exportAll? hall)
    obtain hlist | ⟨-, h⟩ := Option.or_eq_some_iff.mp h
    · exact .inl (extended_exportList? hlist)
    obtain hdefault | ⟨-, h⟩ := Option.or_eq_some_iff.mp h
    · rw [exportDefault?_eq] at hdefault
      obtain ⟨x, -, hdefault⟩ := Option.bind_eq_some_iff.mp hdefault
      obtain ⟨y, -, hdefault⟩ := Option.bind_eq_some_iff.mp hdefault
      obtain ⟨value, -, rfl⟩ := Option.map_eq_some_iff.mp hdefault
      exact .inr (text_ne_empty_defaultExport value n)
    · exact .inr (text_ne_empty_of_exportDeclaration? h n)

/-! ## Lines -/

/-- Whether the comment fits behind the declarators of the line, if it exports some. -/
def Comment.FitsLine (c : Comment) (line : List Char) : Prop :=
  ∀ declarators, exportedDeclarators? (trimStart line) = some declarators → c.Fits declarators

theorem trimStart_ne_nil_of_recognize? {line : List Char} {st : Statement}
    (h : Statement.recognize? (trimStart line) = some st) : trimStart line ≠ [] := by
  intro hnil
  rw [hnil] at h
  cases h

theorem indentation_append {line : List Char} (h : trimStart line ≠ []) (t : List Char) :
    indentation (line ++ t) = indentation line := by
  obtain ⟨d, r, hd, hblank⟩ := starts_trimStart h
  obtain ⟨front, hf, hline⟩ := exists_trimStart line
  have htake (r : List Char) : (front ++ d :: r).takeWhile isBlank = front := by
    rw [List.takeWhile_append_of_pos hf, List.takeWhile_cons_of_neg (by simp [hblank]),
      List.append_nil]
  rw [hd] at hline
  rw [indentation, indentation, hline, htake, List.append_assoc, List.cons_append, htake]

/-- The statement of a line with a comment behind it. -/
theorem emitLine_append_tail (c : Comment) {line : List Char} {st : Statement}
    (h : Statement.recognize? (trimStart line) = some st) (hf : c.FitsLine line) : ∃ t,
    (t = c.tail ∨ t = c.mark) ∧ ∀ p, emitLine p (line ++ c.tail) =
      let e := (st.extended (String.ofList t) st.declared).emit p.temporaries
      (if e.text = "" then [] else indentation line ++ e.text.toList, (emitLine p line).2) := by
  have hne := trimStart_ne_nil_of_recognize? h
  obtain ⟨t, names, ht, happend, hnames⟩ := recognize?_append_tail c h
  obtain rfl := hnames hf
  refine ⟨t, ht, fun p => ?_⟩
  obtain ⟨hgetters, hexport, htemporaries, -⟩ := emit_extended st (String.ofList t) p.temporaries
  have hadd : p.add ((st.extended (String.ofList t) st.declared).emit p.temporaries) =
      p.add (st.emit p.temporaries) := by
    rw [Progress.add, hgetters, hexport, htemporaries, Progress.add]
  rw [← trimStart_append_of_ne_nil hne] at happend
  rw [emitLine, happend, emitLine, h]
  dsimp only
  rw [hadd, indentation_append hne]

theorem exists_emitLine_append_tail (c : Comment) {line : List Char} {st : Statement}
    (h : Statement.recognize? (trimStart line) = some st) (hf : c.FitsLine line) (p : Progress) :
    ∃ t, (t = [] ∨ t = c.tail ∨ t = c.mark) ∧
      emitLine p (line ++ c.tail) = ((emitLine p line).1 ++ t, (emitLine p line).2) := by
  obtain ⟨t, ht, hemit⟩ := emitLine_append_tail c h hf
  obtain ⟨-, -, -, htext⟩ := emit_extended st (String.ofList t) p.temporaries
  have hplain : (emitLine p line).1 = if (st.emit p.temporaries).text = "" then [] else
      indentation line ++ (st.emit p.temporaries).text.toList := by rw [emitLine, h]
  rw [hemit, hplain]
  by_cases hsame : ∀ names, st.extended (String.ofList t) names = st
  · exact ⟨[], .inl rfl, by rw [hsame, List.append_nil]⟩
  · have hfull := (text_ne_empty_of_recognize? h p.temporaries).resolve_left fun hall =>
      hsame (hall (String.ofList t))
    refine ⟨t, .inr ht, ?_⟩
    dsimp only
    rw [htext.resolve_left hsame, if_neg (append_ne_empty hfull _), if_neg hfull,
      String.toList_append, String.toList_ofList, List.append_assoc]

theorem emitLine_append_tail_of_extended (c : Comment) {line : List Char} {st : Statement}
    (h : Statement.recognize? (trimStart line) = some st) (hf : c.FitsLine line)
    (hall : ∀ t names, st.extended t names = st) (p : Progress) :
    emitLine p (line ++ c.tail) = emitLine p line := by
  obtain ⟨t, -, hemit⟩ := emitLine_append_tail c h hf
  rw [hemit, hall, emitLine, h]

theorem emitLines_append {p : Progress} {line text t : List Char} {front : List (List Char)}
    (h : emitLine (emitLines p front).2 text =
      ((emitLine (emitLines p front).2 line).1 ++ t, (emitLine (emitLines p front).2 line).2))
    (back : List (List Char)) : emitLines p (front ++ text :: back) =
      ((emitLines p (front ++ line :: back)).1.modify front.length (· ++ t),
        (emitLines p (front ++ line :: back)).2) := by
  induction front generalizing p with
  | nil =>
    rw [emitLines] at h
    rw [List.nil_append, emitLines, h, List.nil_append, emitLines]
    rfl
  | cons first rest ih =>
    rw [(emitLines_cons p first rest).2] at h
    rw [List.cons_append, emitLines, List.cons_append, emitLines]
    dsimp only
    rw [ih h]
    rfl

theorem length_joinLists (ls : List (List Char)) : (joinLists ls).length = ls.length :=
  (kept_joinLists ls).length_eq

theorem trimEnd_slash_cons (s : List Char) : trimEnd ('/' :: s) = '/' :: trimEnd s :=
  trimEnd_append_cons (by decide) [] s

theorem trimEnd_append_tail (c : Comment) (s : List Char) :
    trimEnd (s ++ c.tail) = (s ++ c.gap) ++ '/' :: '/' :: trimEnd c.text := by
  rw [Comment.tail, Comment.mark, ← List.append_assoc, trimEnd_append_cons (by decide),
    trimEnd_slash_cons]

theorem trim_append_tail (c : Comment) (s : List Char) :
    trim (s ++ c.tail) = trimStart (s ++ c.gap) ++ '/' :: '/' :: trimEnd c.text := by
  rw [Comment.tail, Comment.mark, ← List.append_assoc, trim_append_cons (by decide),
    trimEnd_slash_cons]

theorem joinLines_append (first : List Char) (ls more : List (List Char)) :
    joinLines first (ls ++ more) = joinLines first ls ++ more.flatMap fun line => ' ' :: trim line := by
  rw [joinLines, List.flatMap_append, ← List.append_assoc, joinLines]

/-- A comment behind the line that closes a list is behind the statement that the lines are joined
to. -/
theorem joinLines_append_tail (c : Comment) (first last : List Char) (ls : List (List Char))
    (hl : trimStart last ≠ []) : ∃ d : Comment,
      joinLines first (ls ++ [last ++ c.tail]) = joinLines first (ls ++ [last]) ++ d.tail := by
  obtain ⟨back, hb, hlast⟩ := exists_trimEnd (trimStart last)
  refine ⟨⟨back ++ c.gap, trimEnd c.text, hb.append c.blank, by simp [c.apart]⟩, ?_⟩
  have hstart : trimStart (last ++ c.gap) = trim last ++ (back ++ c.gap) := by
    rw [trimStart_append_of_ne_nil hl, ← List.append_assoc, trim, ← hlast]
  rw [joinLines_append, joinLines_append, List.flatMap_singleton, List.flatMap_singleton,
    trim_append_tail, hstart]
  simp [Comment.tail, Comment.mark]

/-! ## Sources -/

variable {front : List (List Char)}

/-- Where no list is open, a line that holds a statement is a line of its own. -/
theorem joinLists_statement (hc : ClosedLists front) {line : List Char}
    (h : isOpenList line = false) (back : List (List Char)) :
    joinLists (front ++ line :: back) = joinLists front ++ line :: joinLists back := by
  rw [joinLists, joinListsFrom_append hc (Nat.zero_le _), joinListsFrom_of_not_open h]
  rfl

theorem joinLists_list (hc : ClosedLists front) {first last : List Char} {ls : List (List Char)}
    (ho : isOpenList first = true) (hls : ∀ l ∈ ls, closesList l = false)
    (hlast : closesList last = true) (back : List (List Char)) :
    joinLists (front ++ (first :: (ls ++ [last]) ++ back)) = joinLists front ++
      joinLines first (ls ++ [last]) ::
        (List.replicate (ls ++ [last]).length [] ++ joinLists back) := by
  rw [joinLists, joinListsFrom_append hc (Nat.zero_le _), joinListsFrom_open ho hls hlast]
  rfl

/-! ## Lists left open -/

/-- Whether a text opens a list that is not closed in it. -/
def LeavesOpen (s : List Char) : Prop :=
  ∃ indent lead inside, AllBlank indent ∧ ListLead lead ∧ '\x7d' ∉ inside ∧
    s = indent ++ (lead ++ '\x7b' :: inside)

theorem leavesOpen_of_isOpenList (h : isOpenList s = true) : LeavesOpen s := by
  obtain ⟨hopens, hcloses⟩ := Bool.and_eq_true_iff.mp h
  obtain ⟨lead, inside, hl, hs⟩ := exists_listLead hopens
  obtain ⟨indent, hi, hindent⟩ := exists_trimStart s
  refine ⟨indent, lead, inside, hi, hl, fun hm => ?_, hs ▸ hindent⟩
  have hmem : '\x7d' ∈ trimStart s := by
    rw [hs]
    exact List.mem_append_right _ (List.mem_cons_of_mem _ hm)
  simp [closesList, hmem] at hcloses

theorem ListLead.trimStart_append (hl : ListLead lead) {indent : List Char} (hi : AllBlank indent)
    (t : List Char) : trimStart (indent ++ (lead ++ t)) = lead ++ t := by
  obtain ⟨d, r, hd, hblank⟩ : ∃ d r, lead = d :: r ∧ isBlank d = false := by
    cases hl with
    | imported hd hg hm => exact ⟨'i', _, rfl, by decide⟩
    | exported hg => exact ⟨'e', _, rfl, by decide⟩
  rw [trimStart_append_of_blank hi, hd]
  exact trimStart_of_not_blank hblank (r ++ t)

/-- The list that a text opens goes on with what is put behind the text. -/
theorem LeavesOpen.exists_lead (h : LeavesOpen s) : ∃ lead inside, ListLead lead ∧ '\x7d' ∉ inside ∧
    ∀ t, trimStart (s ++ t) = lead ++ '\x7b' :: (inside ++ t) := by
  obtain ⟨indent, lead, inside, hi, hl, hno, rfl⟩ := h
  refine ⟨lead, inside, hl, hno, fun t => ?_⟩
  rw [List.append_assoc, List.append_assoc, hl.trimStart_append hi, List.cons_append]

theorem LeavesOpen.append (h : LeavesOpen s) {t : List Char} (ht : '\x7d' ∉ t) :
    LeavesOpen (s ++ t) := by
  obtain ⟨indent, lead, inside, hi, hl, hno, rfl⟩ := h
  exact ⟨indent, lead, inside ++ t, hi, hl, by simp [hno, ht], by simp⟩

theorem LeavesOpen.trimEnd (h : LeavesOpen s) : LeavesOpen (trimEnd s) := by
  obtain ⟨indent, lead, inside, hi, hl, hno, rfl⟩ := h
  refine ⟨indent, lead, Text.trimEnd inside, hi, hl, fun hm => hno (trimEnd_subset inside hm), ?_⟩
  rw [← List.append_assoc, trimEnd_append_cons (by decide), List.append_assoc]

theorem notMem_brace_of_closesList {line : List Char} (h : closesList line = false) :
    '\x7d' ∉ line := by
  simpa [closesList] using h

theorem LeavesOpen.joinLines (h : LeavesOpen s) {ls : List (List Char)}
    (hls : ∀ l ∈ ls, closesList l = false) : LeavesOpen (joinLines s ls) := by
  refine h.trimEnd.append fun hm => ?_
  obtain ⟨l, hl, hm⟩ := List.mem_flatMap.mp hm
  rcases List.mem_cons.mp hm with hm | hm
  · exact absurd hm (by decide)
  · exact notMem_brace_of_closesList (hls l hl) (trim_subset l hm)

/-- The statement that the lines of a list are joined to keeps no text and declares nothing. -/
theorem joinLines_recognized {first : List Char} (ho : isOpenList first = true)
    {ls : List (List Char)} {st : Statement}
    (h : Statement.recognize? (trimStart (joinLines first ls)) = some st) :
    (∀ t names, st.extended t names = st) ∧
      exportedDeclarators? (trimStart (joinLines first ls)) = none := by
  obtain ⟨lead, inside, hl, -, htrim⟩ := (leavesOpen_of_isOpenList ho).trimEnd.exists_lead
  rw [joinLines, htrim] at h ⊢
  exact (hl.recognized h).2

/-! ## Comments inside of a list -/

/-- Whether a piece of a list is left out as the entry of a type, or else listed with a slash in one
of its names. -/
def ReadsSlash (entries : List ListEntry) (piece : List Char) : Prop :=
  startsWith "type ".toList (trim piece) = true ∨
    ∃ e ∈ entries, read? piece = some e ∧ ('/' ∈ e.source.toList ∨ '/' ∈ e.asName.toList)

/-- Whether the mark of a comment is read as part of a statement's list. The first text is what stands
in front of the mark, the second the whole statement: both open the same list, and the last piece of it
in the first goes on with the mark in the second. -/
inductive Statement.ReadsMark (st : Statement) : List Char → List Char → Prop
  | intro {lead inside list rest last back : List Char} {front others : List (List Char)}
    (hl : ListLead lead) (hends : EndsList rest) (hlisted : st.listed = listEntries list)
    (hinside : inside.splitOn ',' = front ++ [last])
    (hlist : list.splitOn ',' = front ++ (last ++ '/' :: '/' :: back) :: others)
    (hpiece : ReadsSlash st.listed (last ++ '/' :: '/' :: back)) :
    st.ReadsMark (lead ++ '\x7b' :: inside) (lead ++ '\x7b' :: (list ++ '\x7d' :: rest))

theorem slash_mem_listEntry {entry : List Char} (h : '/' ∈ entry) :
    '/' ∈ (listEntry entry).source.toList ∨ '/' ∈ (listEntry entry).asName.toList := by
  rw [listEntry]
  cases hc : cutAt? " as ".toList entry with
  | none => exact .inl (by simpa using h)
  | some found =>
    obtain ⟨source, asName⟩ := found
    have hword : '/' ∉ " as ".toList := by decide
    rw [eq_of_cutAt?_eq_some hc] at h
    rcases List.mem_append.mp h with h | h
    · have hs := (List.mem_append.mp h).resolve_right hword
      exact .inl (by simpa using mem_trim hs (by decide))
    · exact .inr (by simpa using mem_trim h (by decide))

theorem readsSlash_of_mem {list piece : List Char} (hp : piece ∈ list.splitOn ',') (h : '/' ∈ piece) :
    ReadsSlash (listEntries list) piece := by
  by_cases htype : startsWith "type ".toList (trim piece) = true
  · exact .inl htype
  · have htrim := mem_trim h (by decide)
    have hread : read? piece = some (listEntry (trim piece)) := by
      have hempty : (trim piece).isEmpty = false := by
        obtain ⟨d, r, hd⟩ := List.exists_cons_of_ne_nil (List.ne_nil_of_mem htrim)
        rw [hd]
        rfl
      rw [read?, hempty, Bool.false_or, if_neg htype]
    refine .inr ⟨_, ?_, hread, slash_mem_listEntry htrim⟩
    rw [listEntries_eq]
    exact List.mem_filterMap.mpr ⟨piece, hp, hread⟩

theorem isPrefix_of_append_eq {d : Char} {front tail list rest : List Char} (hf : d ∉ front)
    (h : front ++ tail = list ++ d :: rest) : front <+: list := by
  obtain ⟨more, hm, -⟩ | ⟨more, hm, ht⟩ := List.append_eq_append_iff.mp h
  · exact ⟨more, hm.symm⟩
  · cases more with
    | nil =>
      rw [hm, List.append_nil]
    | cons e more =>
      obtain rfl := (List.cons.inj ht).1
      exact absurd (hm ▸ List.mem_append_right _ List.mem_cons_self) hf

/-- The mark of a comment in an open list is read as part of the list. -/
theorem LeavesOpen.readsMark {before tail : List Char} (hb : LeavesOpen before) {st : Statement}
    (h : Statement.recognize? (trimStart (before ++ '/' :: '/' :: tail)) = some st) :
    st.ReadsMark (trimStart before) (trimStart (before ++ '/' :: '/' :: tail)) := by
  obtain ⟨lead, inside, hl, hno, htrim⟩ := hb.exists_lead
  have hbefore : trimStart before = lead ++ '\x7b' :: inside := by simpa using htrim []
  rw [htrim] at h ⊢
  obtain ⟨⟨list, rest, hr, hends, hlisted⟩, -⟩ := hl.recognized h
  -- No brace stands in front of the mark or in it, so that the list does not end before it.
  have hmark : inside ++ ['/', '/'] <+: list :=
    isPrefix_of_append_eq (by simp [hno]) ((List.append_assoc _ _ tail).trans hr)
  obtain ⟨more, rfl⟩ := hmark
  obtain ⟨front, last, hinside⟩ := exists_splitOn_eq_concat ',' inside
  obtain ⟨back, others, hmore⟩ := exists_splitOn_eq_cons ',' more
  have hlist : (inside ++ ['/', '/'] ++ more).splitOn ',' =
      front ++ (last ++ '/' :: '/' :: back) :: others := by
    rw [List.append_assoc]
    exact splitOn_append hinside
      (splitOn_cons_of_ne (by decide) (splitOn_cons_of_ne (by decide) hmore))
  have hpiece : ReadsSlash st.listed (last ++ '/' :: '/' :: back) := by
    rw [hlisted]
    exact readsSlash_of_mem (by rw [hlist]; simp) (by simp)
  rw [hbefore, hr]
  exact .intro hl hends hlisted hinside hlist hpiece

theorem brace_notMem_gap (c : Comment) : '\x7d' ∉ c.gap := fun h => absurd (c.blank _ h) (by decide)

theorem readsMark_first (c : Comment) {first : List Char} (ho : isOpenList first = true)
    {ls : List (List Char)} {st : Statement}
    (h : Statement.recognize? (trimStart (joinLines (first ++ c.tail) ls)) = some st) :
    st.ReadsMark (trimStart (first ++ c.gap)) (trimStart (joinLines (first ++ c.tail) ls)) := by
  have hopen := (leavesOpen_of_isOpenList ho).append (brace_notMem_gap c)
  rw [joinLines, trimEnd_append_tail, List.append_assoc, List.cons_append, List.cons_append] at h ⊢
  exact hopen.readsMark h

theorem readsMark_inside (c : Comment) {first line : List Char} (ho : isOpenList first = true)
    {ls more : List (List Char)} (hls : ∀ l ∈ ls, closesList l = false)
    (hline : closesList line = false) {st : Statement}
    (h : Statement.recognize? (trimStart
      (joinLines first (ls ++ (line ++ c.tail) :: more))) = some st) :
    st.ReadsMark (trimStart (joinLines first ls ++ ' ' :: trimStart (line ++ c.gap)))
      (trimStart (joinLines first (ls ++ (line ++ c.tail) :: more))) := by
  have hno : '\x7d' ∉ ' ' :: trimStart (line ++ c.gap) := by
    have hgap : '\x7d' ∉ line ++ c.gap := by
      simp [notMem_brace_of_closesList hline, brace_notMem_gap c]
    simpa using fun hm => hgap (trimStart_subset _ hm)
  have hopen := ((leavesOpen_of_isOpenList ho).joinLines hls).append hno
  have htext : joinLines first (ls ++ (line ++ c.tail) :: more) =
      (joinLines first ls ++ ' ' :: trimStart (line ++ c.gap)) ++
        '/' :: '/' :: (Text.trimEnd c.text ++ more.flatMap fun line => ' ' :: trim line) := by
    rw [joinLines_append, List.flatMap_cons, trim_append_tail]
    simp
  rw [htext] at h ⊢
  exact hopen.readsMark h

/-- A comment behind a statement leaves it what it is. The line is recognized as before, and if the
comment fits behind the declarators of an exported declaration, the line that is emitted only goes on
with it, and all other lines, the getters and the temporaries are the same. Behind the line that closes
a list it changes nothing at all. But behind any other line of a list the entry in front of it goes on
with it, so that its mark is read as part of the list. -/
theorem comment_leaves_statement (c : Comment) (hc : ClosedLists front) (back : List (List Char)) :
    (∀ line st, Statement.recognize? (trimStart line) = some st →
      (∃ t names, Statement.recognize? (trimStart (line ++ c.tail)) =
        some (st.extended t names)) ∧
      (c.FitsLine line → ∃ t, (t = [] ∨ t = c.tail ∨ t = c.mark) ∧
        emitLines .start (joinLists (front ++ (line ++ c.tail) :: back)) =
          ((emitLines .start (joinLists (front ++ line :: back))).1.modify front.length (· ++ t),
            progressOf (front ++ line :: back)))) ∧
    ∀ first ls, isOpenList first = true → (∀ l ∈ ls, closesList l = false) →
      (∀ last st, closesList last = true →
        Statement.recognize? (trimStart (joinLines first (ls ++ [last]))) = some st →
        transpileLines (front ++ (first :: (ls ++ [last ++ c.tail]) ++ back)) =
          transpileLines (front ++ (first :: (ls ++ [last]) ++ back))) ∧
      (∀ more st, Statement.recognize? (trimStart (joinLines (first ++ c.tail) more)) = some st →
        st.ReadsMark (trimStart (first ++ c.gap))
          (trimStart (joinLines (first ++ c.tail) more))) ∧
      ∀ line more st, closesList line = false →
        Statement.recognize? (trimStart (joinLines first (ls ++ (line ++ c.tail) :: more))) =
          some st →
        st.ReadsMark (trimStart (joinLines first ls ++ ' ' :: trimStart (line ++ c.gap)))
          (trimStart (joinLines first (ls ++ (line ++ c.tail) :: more))) := by
  refine ⟨?_, fun first ls ho hls => ⟨?_, fun more st h => readsMark_first c ho h,
    fun line more st hline h => readsMark_inside c ho hls hline h⟩⟩
  · intro line st h
    have hne := trimStart_ne_nil_of_recognize? h
    obtain ⟨t, names, -, happend, -⟩ := recognize?_append_tail c h
    rw [← trimStart_append_of_ne_nil hne] at happend
    refine ⟨⟨_, names, happend⟩, fun hf => ?_⟩
    obtain ⟨t, ht, hemit⟩ := exists_emitLine_append_tail c h hf
      (emitLines .start (joinLists front)).2
    refine ⟨t, ht, ?_⟩
    rw [joinLists_statement hc (isOpenList_of_recognize? happend), progressOf,
      joinLists_statement hc (isOpenList_of_recognize? h), emitLines_append hemit,
      length_joinLists]
  · intro last st hlast h
    have hbrace : '\x7d' ∈ last := by simpa [closesList] using hlast
    have hcloses : closesList (last ++ c.tail) = true := by simp [closesList, hbrace]
    have hne : trimStart last ≠ [] := fun hnil =>
      absurd (trimStart_eq_nil_iff.mp hnil _ hbrace) (by decide)
    obtain ⟨d, hd⟩ := joinLines_append_tail c first last ls hne
    obtain ⟨hall, hnone⟩ := joinLines_recognized ho h
    have hfits : d.FitsLine (joinLines first (ls ++ [last])) := by
      intro declarators hsome
      rw [hnone] at hsome
      cases hsome
    have hemit := emitLines_replace (emitLine_append_tail_of_extended d h hfits hall) .start
      (joinLists front) (List.replicate (ls ++ [last]).length [] ++ joinLists back)
    have hlength : (ls ++ [last ++ c.tail]).length = (ls ++ [last]).length := by simp
    rw [transpileLines, transpileLines, joinLists_list hc ho hls hcloses,
      joinLists_list hc ho hls hlast, hd, hlength, hemit]

theorem comment_leaves_statement_pattern :
    (∃ t, emitLines .start ["'use strict'".toList, "export const \x7ba\x7d = f; // b: c".toList] =
        ((emitLines .start ["'use strict'".toList, "export const \x7ba\x7d = f;".toList]).1.modify 1
          (· ++ t), progressOf ["'use strict'".toList, "export const \x7ba\x7d = f;".toList])) ∧
    transpileLines ["'use strict'".toList, "import \x7b".toList, "a".toList,
        "\x7d from 'm' // b: c".toList] =
      transpileLines ["'use strict'".toList, "import \x7b".toList, "a".toList,
        "\x7d from 'm'".toList] ∧
    (Statement.exportList [⟨"// b: c a", "// b: c a"⟩]).ReadsMark "export \x7b ".toList
      "export \x7b // b: c a \x7d".toList ∧
    (Statement.exportList [⟨"a // b: c", "a // b: c"⟩]).ReadsMark "export \x7b a ".toList
      "export \x7b a // b: c \x7d".toList := by
  let c : Comment := ⟨[' '], " b: c".toList, by simp [AllBlank, isBlank], by simp⟩
  have hc : ClosedLists ["'use strict'".toList] := .of_not_open (by decide)
  obtain ⟨hline, hlist⟩ := comment_leaves_statement c hc []
  obtain ⟨-, hfits⟩ := hline "export const \x7ba\x7d = f;".toList _ rfl
  obtain ⟨t, -, ht⟩ := hfits (by
    rintro declarators ⟨⟩
    refine ⟨by decide, fun _ => ?_⟩
    rintro last ⟨⟩ -
    rfl)
  refine ⟨⟨t, ht⟩, ?_, ?_, ?_⟩
  · exact (hlist "import \x7b".toList ["a".toList] rfl (by decide)).1 "\x7d from 'm'".toList _ rfl rfl
  · exact (hlist "export \x7b".toList [] rfl (by decide)).2.1 ["a".toList, "\x7d".toList] _ rfl
  · exact (hlist "export \x7b".toList [] rfl (by decide)).2.2 "a".toList ["\x7d".toList] _ rfl rfl

/-- A comma in a comment makes a name of what follows it, and so does a colon behind a pattern without
a value. Inside of a list a comment takes the next line into its entry. -/
theorem comment_read_as_name :
    ((progressOf ["export const a = 1;".toList]).getters.map Getter.name = ["a"] ∧
      (progressOf ["export const a = 1; // b, c".toList]).getters.map Getter.name = ["a", "c"]) ∧
    ((progressOf ["export const \x7ba\x7d".toList]).getters.map Getter.name = ["a"] ∧
      (progressOf ["export const \x7ba\x7d // b: c".toList]).getters.map Getter.name = ["c"]) ∧
    (transpile "import \x7b\n a,\n b\n\x7d from \"m\";" =
        "const \x7b a, b \x7d = require(\"m\");\n\n\n" ∧
      transpile "import \x7b\n a, // c\n b\n\x7d from \"m\";" =
        "const \x7b a, // c b \x7d = require(\"m\");\n\n\n") :=
  ⟨⟨rfl, rfl⟩, ⟨rfl, rfl⟩, rfl, rfl⟩

end

end ModuleLoader.Transpile
