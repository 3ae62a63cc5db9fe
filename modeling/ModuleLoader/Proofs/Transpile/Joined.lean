import ModuleLoader.Proofs.Transpile.JoinedText
import ModuleLoader.Proofs.Transpile.Lines

/-! Lists over several lines. The first line of a list takes up the others, which are left empty, and
the lines in front of it and behind it are what they are without it, so that a source is emitted as the
one in which the statement stands on one line. -/

namespace ModuleLoader.Transpile

open Text

/-! ## The lines around a list -/

/-- Whether every list that these lines open is closed in them. -/
def ClosedLists (ls : List (List Char)) : Prop :=
  ∀ a line b, ls = a ++ line :: b → isOpenList line = true → ∃ l ∈ b, closesList l = true

variable {indent first line : List Char} {ls front back : List (List Char)}

theorem ClosedLists.tail (h : ClosedLists (line :: ls)) : ClosedLists ls :=
  fun a l b hl => h (line :: a) l b (by rw [hl, List.cons_append])

theorem ClosedLists.of_not_open (h : ∀ line ∈ ls, isOpenList line = false) : ClosedLists ls := by
  intro a line b hl ho
  rw [h line (by rw [hl]; simp)] at ho
  cases ho

theorem joinListsFrom_length (ls back : List (List Char)) :
    joinListsFrom ls.length (ls ++ back) =
      List.replicate ls.length [] ++ joinListsFrom 0 back := by
  induction ls with
  | nil => rfl
  | cons line ls ih =>
    rw [List.length_cons, List.cons_append, joinListsFrom, ih, List.replicate_succ, List.cons_append]

/-- Where all lists in front are closed, the lines behind are joined on their own. -/
theorem joinListsFrom_append (hc : ClosedLists front) {skip : Nat} (hs : skip ≤ front.length) :
    joinListsFrom skip (front ++ back) = joinListsFrom skip front ++ joinListsFrom 0 back := by
  induction front generalizing skip with
  | nil =>
    obtain rfl : skip = 0 := Nat.le_zero.mp hs
    rfl
  | cons line rest ih =>
    cases skip with
    | succ skip =>
      rw [List.cons_append, joinListsFrom, ih hc.tail (Nat.le_of_succ_le_succ hs), joinListsFrom,
        List.cons_append]
    | zero =>
      rw [List.cons_append, joinListsFrom, joinListsFrom]
      by_cases ho : isOpenList line = true
      · obtain ⟨i, hi⟩ : ∃ i, rest.findIdx? closesList = some i := by
          obtain ⟨l, hl, hclose⟩ := hc [] line rest rfl ho
          cases hfind : rest.findIdx? closesList with
          | some i => exact ⟨i, rfl⟩
          | none =>
            rw [List.findIdx?_eq_none_iff.mp hfind l hl] at hclose
            cases hclose
        have hlt : i < rest.length := (List.findIdx?_eq_some_iff_findIdx_eq.mp hi).1
        have hall : (rest ++ back).findIdx? closesList = some i := by
          rw [List.findIdx?_append, hi, Option.some_or]
        rw [if_pos ho, if_pos ho, hi, hall]
        dsimp only
        rw [ih hc.tail hlt, List.take_append_of_le_length hlt, List.cons_append]
      · rw [if_neg ho, if_neg ho]
        dsimp only
        rw [ih hc.tail (Nat.zero_le _), List.cons_append]

/-- The lines of an open list, up to the one that closes it. -/
theorem joinListsFrom_open {last : List Char} (ho : isOpenList first = true)
    (hls : ∀ l ∈ ls, closesList l = false) (hlast : closesList last = true) :
    joinListsFrom 0 (first :: (ls ++ [last]) ++ back) = joinLines first (ls ++ [last]) ::
      (List.replicate (ls ++ [last]).length [] ++ joinListsFrom 0 back) := by
  have hfind : (ls ++ [last] ++ back).findIdx? closesList = some ls.length := by
    have hnone : ls.findIdx? closesList = none := List.findIdx?_eq_none_iff.mpr hls
    rw [List.append_assoc, List.findIdx?_append, hnone, Option.none_or, List.singleton_append,
      List.findIdx?_cons, hlast]
    simp
  have htake : (ls ++ [last] ++ back).take (ls.length + 1) = ls ++ [last] :=
    List.take_left' (by simp)
  have hlen : ls.length + 1 = (ls ++ [last]).length := by simp
  rw [List.cons_append, joinListsFrom, if_pos ho, hfind]
  dsimp only
  rw [htake, hlen, joinListsFrom_length]

theorem joinListsFrom_of_not_open (h : isOpenList line = false) :
    joinListsFrom 0 (line :: ls) = line :: joinListsFrom 0 ls := by
  rw [joinListsFrom, if_neg (by simp [h])]

theorem joinListsFrom_replicate (n : Nat) :
    joinListsFrom 0 (List.replicate n [] ++ back) =
      List.replicate n [] ++ joinListsFrom 0 back := by
  induction n with
  | zero => rfl
  | succ n ih =>
    rw [List.replicate_succ, List.cons_append, joinListsFrom_of_not_open rfl, ih, List.cons_append]

theorem emitLines_replace {text : List Char} (h : ∀ p, emitLine p line = emitLine p text)
    (p : Progress) (front back : List (List Char)) :
    emitLines p (front ++ line :: back) = emitLines p (front ++ text :: back) := by
  induction front generalizing p with
  | nil => rw [List.nil_append, List.nil_append, emitLines, emitLines, h]
  | cons first rest ih =>
    rw [List.cons_append, List.cons_append, emitLines, emitLines]
    dsimp only
    rw [ih]

theorem takeName?_identifier (n : Identifier) {c : Char} (hc : isNamePart c = false)
    (rest : List Char) : takeName? (n.text ++ c :: rest) = some (n.text, c :: rest) := by
  obtain ⟨text, valid⟩ := n
  cases text with
  | nil => cases valid
  | cons d r =>
    obtain ⟨hd, hr⟩ := Bool.and_eq_true_iff.mp valid
    have hpart : ∀ e ∈ r, isNamePart e = true := fun e he =>
      isNamePart_of_isAsciiNamePart (List.all_eq_true.mp hr e he)
    rw [List.cons_append, takeName?, if_pos hd, List.takeWhile_append_of_pos hpart,
      List.dropWhile_append_of_pos hpart, List.takeWhile_cons_of_neg (by simp [hc]),
      List.dropWhile_cons_of_neg (by simp [hc]), List.append_nil]

theorem ListForm.opensList_opening (form : ListForm) (rest : List Char) :
    opensList (form.opening ++ rest) = true := by
  cases form with
  | importList main m =>
    cases main with
    | none => rfl
    | some n =>
      have htext (lead : List Char) : (lead ++ ((n.text ++ [',', ' ']) ++ ['\x7b'])) ++ rest =
          lead ++ (n.text ++ (',' :: ' ' :: '\x7b' :: rest)) := by simp
      have himport : after? "import".toList ((ListForm.importList (some n) m).opening ++ rest) =
          some (' ' :: (n.text ++ (',' :: ' ' :: '\x7b' :: rest))) :=
        after?_eq_some_iff.mpr (htext "import ".toList)
      rw [opensList, himport]
      dsimp only
      rw [blanks?_space n.solid]
      dsimp only
      rw [takeName?_identifier n (by decide)]
      exact Bool.or_true _
  | exportList => rfl
  | exportListFrom m => rfl

namespace ListStatement

/-- A statement stands on one line, or else its first line opens its list and only its last line
closes it. -/
theorem lines_cases (st : ListStatement) (hi : AllBlank indent) (hn : '\n' ∉ indent) :
    ('\n' ∉ st.text ∧ isOpenList (indent ++ st.text) = false) ∨
      ∃ first ls last, (indent ++ st.text).splitOn '\n' = first :: (ls ++ [last]) ∧
        isOpenList first = true ∧ (∀ l ∈ ls, closesList l = false) ∧ closesList last = true ∧
        (ls ++ [last]).length = st.text.count '\n' := by
  obtain ⟨form, pieces, semicolon⟩ := st
  obtain ⟨list, hlist⟩ : ∃ list, list = listText pieces := ⟨_, rfl⟩
  have htext : indent ++ (ListStatement.mk form pieces semicolon).text =
      ((indent ++ form.opening) ++ list) ++ form.closing semicolon := by
    simp [ListStatement.text, hlist]
  have hopening : '\n' ∉ indent ++ form.opening := fun h =>
    (List.mem_append.mp h).elim hn (form.notMem_opening (.inl rfl))
  have hstart (t : List Char) :
      trimStart ((indent ++ form.opening) ++ t) = form.opening ++ t := by
    obtain ⟨c, r, hc, hblank⟩ := form.opening_solid.starts_append t
    rw [List.append_assoc, trimStart_append_of_blank hi, hc, trimStart_of_not_blank hblank]
  have hcloses (t : List Char) : closesList (t ++ form.closing semicolon) = true := by
    have hm : '\x7d' ∈ form.closing semicolon := by cases form <;> exact List.mem_cons_self
    simp [closesList, hm]
  obtain ⟨ls, last, hsplit⟩ := exists_splitOn_eq_concat '\n' ((indent ++ form.opening) ++ list)
  have hlines := splitOn_append hsplit (List.splitOn_eq_singleton (form.notMem_closing semicolon))
  have hcount : (ls ++ [last]).length = (ListStatement.mk form pieces semicolon).text.count '\n' + 1 := by
    rw [← hsplit, length_splitOn]
    simp [ListStatement.text, hlist, List.count_eq_zero_of_not_mem hn,
      List.count_eq_zero_of_not_mem (form.notMem_closing semicolon)]
  -- Before its end, no brace closes the list.
  have hopen : ∀ l ∈ ls ++ [last], closesList l = false := fun l hl => by
    have hno : '\x7d' ∉ list := fun h => absurd (listText_plain pieces _ (hlist ▸ h)).1 (by decide)
    have hblank : '\x7d' ∉ indent := fun h => absurd (hi _ h) (by decide)
    have hbrace : '\x7d' ∉ (indent ++ form.opening) ++ list := by
      simpa [hno, hblank] using form.notMem_opening (.inr rfl)
    have hsub := (infix_of_mem_splitOn (hsplit ▸ hl)).subset
    simpa [closesList] using fun hm => hbrace (hsub hm)
  rw [htext]
  cases ls with
  | nil =>
    refine .inl ⟨List.count_eq_zero.mp (Nat.succ.inj hcount).symm, ?_⟩
    rw [List.append_assoc, isOpenList, hstart, ← List.append_assoc, hcloses]
    exact Bool.and_false _
  | cons first ls =>
    have hfirst : isOpenList first = true := by
      obtain ⟨f, r, hfr⟩ := exists_splitOn_eq_cons '\n' list
      rw [splitOn_append_of_notMem hopening hfr, List.cons_append] at hsplit
      obtain rfl := (List.cons.inj hsplit).1
      have hclose : closesList (form.opening ++ f) = false := by
        have hno := hopen _ List.mem_cons_self
        simp only [closesList, List.append_assoc, List.contains_append, Bool.or_eq_false_iff] at hno ⊢
        exact hno.2
      rw [isOpenList, hstart, form.opensList_opening, hclose]
      rfl
    exact .inr ⟨first, ls, last ++ form.closing semicolon, hlines, hfirst,
      fun l hl => hopen l (by simp [hl]), hcloses last, by simpa using hcount⟩

/-- The lines of a statement are joined, and the ones that follow it are joined on their own. -/
theorem joinListsFrom_splitOn (st : ListStatement) (hi : AllBlank indent) (hn : '\n' ∉ indent)
    (back : List (List Char)) :
    joinListsFrom 0 ((indent ++ st.text).splitOn '\n' ++ back) =
      joinedText (indent ++ st.text) ::
        (List.replicate (st.text.count '\n') [] ++ joinListsFrom 0 back) := by
  rw [joinedText]
  obtain ⟨hone, hnot⟩ | ⟨first, ls, last, hsplit, hfirst, hls, hlast, hlen⟩ := st.lines_cases hi hn
  · have hline : '\n' ∉ indent ++ st.text := fun h => (List.mem_append.mp h).elim hn hone
    have hjoin : joinLines (indent ++ st.text) [] = indent ++ st.text := by
      rw [joinLines, List.flatMap_nil, List.append_nil]
      exact trimEnd_eq_self (st.text_ends indent)
    rw [List.splitOn_eq_singleton hline, List.singleton_append, joinListsFrom_of_not_open hnot,
      List.count_eq_zero_of_not_mem hone]
    exact congrArg (· :: joinListsFrom 0 back) hjoin.symm
  · rw [hsplit, joinListsFrom_open hfirst hls hlast, hlen]

end ListStatement

theorem ClosedLists.not_continuesList (h : ClosedLists front) :
    ¬ContinuesList (front ++ back) front.length := by
  rw [ContinuesList]
  rintro ⟨i, hi, -, ⟨line, hl, ho⟩, hbetween, -⟩
  rw [List.getElem?_append_left hi] at hl
  obtain ⟨hi', hline⟩ := List.getElem?_eq_some_iff.mp hl
  obtain ⟨l, hm, hclose⟩ := h (front.take i) line (front.drop (i + 1))
    (by rw [← hline, List.cons_getElem_drop_succ, List.take_append_drop]) ho
  obtain ⟨k, hk⟩ := List.mem_iff_getElem?.mp hm
  rw [List.getElem?_drop] at hk
  have hlt := (List.getElem?_eq_some_iff.mp hk).1
  have hopen := hbetween (i + 1 + k) l (by omega) hlt (by rw [List.getElem?_append_left hlt, hk])
  rw [hclose] at hopen
  cases hopen

theorem ListStatement.continuesList (st : ListStatement) (hi : AllBlank indent) (hn : '\n' ∉ indent)
    (hc : ClosedLists front) (back : List (List Char)) {i : Nat} (h : i < st.text.count '\n') :
    ContinuesList (front ++ ((indent ++ st.text).splitOn '\n' ++ back)) (front.length + 1 + i) := by
  obtain ⟨hone, -⟩ | ⟨first, ls, last, hsplit, hfirst, hls, hlast, hlen⟩ := st.lines_cases hi hn
  · rw [List.count_eq_zero_of_not_mem hone] at h
    exact absurd h (Nat.not_lt_zero i)
  · have hget (k : Nat) : (front ++ ((indent ++ st.text).splitOn '\n' ++ back))[front.length + 1 + k]? =
        (ls ++ [last] ++ back)[k]? := by
      rw [hsplit, List.getElem?_append_right (by omega)]
      have hsub : front.length + 1 + k - front.length = k + 1 := by omega
      rw [hsub, List.cons_append, List.getElem?_cons_succ]
    rw [List.length_append, List.length_singleton] at hlen
    rw [ContinuesList]
    refine ⟨front.length, by omega, hc.not_continuesList, ⟨first, ?_, hfirst⟩, ?_,
      front.length + 1 + ls.length, last, by omega, ?_, hlast⟩
    · rw [hsplit, List.getElem?_append_right (Nat.le_refl _), Nat.sub_self]
      rfl
    · intro k line hk hki hl
      obtain ⟨d, rfl⟩ := Nat.exists_eq_add_of_le (Nat.succ_le_of_lt hk)
      have hd : d < ls.length := by omega
      rw [hget, List.append_assoc, List.getElem?_append_left hd] at hl
      exact hls line (List.mem_of_getElem? hl)
    · rw [hget]
      simp

/-! ## The source around a list -/

/-- What is emitted for a list over several lines. -/
theorem emitLines_joinLists (st : ListStatement) (hi : AllBlank indent) (hn : '\n' ∉ indent)
    (hc : ClosedLists front) (back : List (List Char)) :
    emitLines .start (joinLists (front ++ ((indent ++ st.text).splitOn '\n' ++ back))) =
      emitLines .start (joinLists (front ++ ((indent ++ st.tidy.text) ::
        (List.replicate (st.text.count '\n') [] ++ back)))) := by
  have hline : '\n' ∉ indent ++ st.tidy.text := by
    have hlist := notMem_tidyPieces st.pieces
    have hopening := st.form.notMem_opening (.inl rfl)
    have hclosing := st.form.notMem_closing st.semicolon
    simp [ListStatement.text, ListStatement.tidy, hn, hlist, hopening, hclosing]
  have hcount : st.tidy.text.count '\n' = 0 :=
    List.count_eq_zero_of_not_mem fun h => hline (List.mem_append_right _ h)
  have htidy := st.tidy.joinListsFrom_splitOn hi hn (List.replicate (st.text.count '\n') [] ++ back)
  rw [List.splitOn_eq_singleton hline, List.singleton_append, hcount, joinListsFrom_replicate] at htidy
  rw [joinLists, joinLists, joinListsFrom_append hc (Nat.zero_le _),
    joinListsFrom_append hc (Nat.zero_le _), st.joinListsFrom_splitOn hi hn back, htidy]
  rw [joinedText_of_notMem hline (st.tidy.text_ends indent)]
  exact emitLines_replace (st.emitLine_joinedText hi hn) _ _ _

/-- A list over several lines, behind lines whose lists are closed, means what it means on one line
with single spaces: the lines are those of a source that has the statement on its first line and an
empty line for each further one. The text is the same too, but for the line feed at its end where only
the empty lines give the one source such an end. -/
theorem list_over_lines (st : ListStatement) (hi : AllBlank indent) (hn : '\n' ∉ indent)
    (hc : ClosedLists front) {spread single : String}
    (hspread : lines spread.toList = front ++ ((indent ++ st.text).splitOn '\n' ++ back))
    (hsingle : lines single.toList = front ++ ((indent ++ st.tidy.text) ::
      (List.replicate (st.text.count '\n') [] ++ back))) :
    ((spread.toList.getLast? = some '\n' ↔ single.toList.getLast? = some '\n') →
      transpile spread = transpile single) ∧
    (spread.toList.getLast? ≠ some '\n' → single.toList.getLast? = some '\n' →
      transpile spread ++ "\n" = transpile single) ∧
    emittedLines (lines spread.toList) = emittedLines (lines single.toList) ∧
    progressOf (lines spread.toList) = progressOf (lines single.toList) ∧
    ∀ i < st.text.count '\n',
      (transpileLines (lines spread.toList))[front.length + 1 + i]? = some [] := by
  have hemit := emitLines_joinLists st hi hn hc back
  rw [← hspread, ← hsingle] at hemit
  have hlines : transpileLines (lines spread.toList) = transpileLines (lines single.toList) := by
    rw [transpileLines, transpileLines, hemit]
  refine ⟨fun hend => ?_, fun hno hfeed => ?_, ?_, ?_, ?_⟩
  · rw [← String.toList_inj, toList_transpile, toList_transpile, hlines]
    simp only [textLike, hend]
  · rw [← String.toList_inj, String.toList_append, toList_transpile, toList_transpile, hlines,
      textLike, textLike, if_neg hno, if_pos hfeed]
    rfl
  · rw [emittedLines, emittedLines, hemit]
  · rw [progressOf, progressOf, hemit]
  · intro i hlt
    have hlen : front.length + 1 + i < (lines spread.toList).length := by
      have hzero : indent.count '\n' = 0 := List.count_eq_zero_of_not_mem hn
      rw [hspread, List.length_append, List.length_append, length_splitOn, List.count_append, hzero]
      omega
    obtain ⟨receiver, -, -, hall⟩ := exists_header_receiver (lines spread.toList)
    obtain ⟨text, ht, hempty, -⟩ := hall _ _ (List.getElem?_eq_getElem hlen)
    rw [ht, hempty (hspread ▸ st.continuesList hi hn hc back hlt)]

theorem list_over_lines_renamed :
    let spread := "'use strict'\nimport d, \x7b\n  a,type T,\n  b as\n    c\n\x7d from 'm';\nexport \x7b a \x7d;"
    let single := "'use strict'\nimport d, \x7b a, type T, b as c \x7d from 'm';\n\n\n\n\nexport \x7b a \x7d;"
    transpile spread = transpile single ∧
    ∀ i < 4, (transpileLines (lines spread.toList))[2 + i]? = some [] := by
  intro spread single
  let name (c : Char) (hc : isAsciiName [c] = true) : Name := Identifier.toName ⟨[c], hc⟩
  let feed : Spacing := ⟨['\n', ' ', ' ', ' ', ' '], by decide, by simp [AllBlank, isBlank], by decide⟩
  let st : ListStatement := ⟨.importList (some ⟨['d'], by decide⟩)
    ⟨'\'', ['m'], by decide, by decide, by decide⟩,
    [.item ⟨['\n', ' ', ' '], [], by simp [AllBlank, isBlank], .nil⟩
        (.binding (.name (name 'a' (by decide)))),
      .item ⟨[], [], .nil, .nil⟩ (.typeOnly .single (.name (name 'T' (by decide)))),
      .item ⟨['\n', ' ', ' '], ['\n'], by simp [AllBlank, isBlank], by simp [AllBlank, isBlank]⟩
        (.binding (.renamed (name 'b' (by decide)) .single feed (name 'c' (by decide))))], true⟩
  have hc : ClosedLists ["'use strict'".toList] := .of_not_open (by decide)
  have htidy : st.tidy.text = "import d, \x7b a, type T, b as c \x7d from 'm';".toList := rfl
  have hcount : st.text.count '\n' = 4 := rfl
  have htext : st.text = "import d, \x7b\n  a,type T,\n  b as\n    c\n\x7d from 'm';".toList := rfl
  have hspread : lines spread.toList = ["'use strict'".toList] ++ (([] ++ st.text).splitOn '\n' ++
      ["export \x7b a \x7d;".toList]) := by
    rw [htext]
    decide
  have hsingle : lines single.toList = ["'use strict'".toList] ++ (([] ++ st.tidy.text) ::
      (List.replicate (st.text.count '\n') [] ++ ["export \x7b a \x7d;".toList])) := by
    rw [htidy, hcount]
    decide
  obtain ⟨htext, -, -, -, hempty⟩ := list_over_lines st .nil List.not_mem_nil hc hspread hsingle
  exact ⟨htext (by decide), hempty⟩

/-- A default name that is not in ASCII, a literal for a name and a quote in a specifier keep a
statement from being recognized, and then its lines are not those of the same statement on one
line. -/
theorem list_over_lines_unrecognized :
    (transpile "import é, \x7b\n  a\n\x7d from \"m\"" = "import é, \x7b\n  a\n\x7d from \"m\"" ∧
      transpile "import é, \x7b a \x7d from \"m\"\n\n" = "import é, \x7b a \x7d from \"m\"\n\n") ∧
    (transpile "export \x7b\n  a as \"\x7d\"\n\x7d" = "export \x7b a as \"\x7d\"\n\n\x7d" ∧
      transpile "export \x7b a as \"\x7d\" \x7d\n\n" = "export \x7b a as \"\x7d\" \x7d\n\n") ∧
    (transpile "export \x7b\n  a ,\n\x7d from \"it's\"" = "export \x7b a , \x7d from \"it's\"\n\n" ∧
      transpile "export \x7b a, \x7d from \"it's\"\n\n" = "export \x7b a, \x7d from \"it's\"\n\n") :=
  ⟨⟨rfl, rfl⟩, ⟨rfl, rfl⟩, rfl, rfl⟩

end ModuleLoader.Transpile
