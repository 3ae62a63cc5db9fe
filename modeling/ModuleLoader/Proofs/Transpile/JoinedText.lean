import ModuleLoader.Proofs.Text.Lines
import ModuleLoader.Proofs.Transpile.Declarations

/-! Texts of lists over several lines. Joining their lines keeps the words and makes spaces of the line
ends between them, so that a statement is emitted as the one on one line with single spaces. -/

namespace ModuleLoader.Transpile

open Text

/-! ## Joining the lines of a text -/

/-- The text as one line, joined as the lines of a list are. -/
def joinedText (s : List Char) : List Char :=
  match s.splitOn '\n' with
  | [] => []
  | first :: rest => joinLines first rest

/-- What becomes of the blanks between two words: each line end among them is a space, and the other
blanks are gone if there is one. -/
def joinedGap (gap : List Char) : List Char :=
  if '\n' ∈ gap then List.replicate (gap.count '\n') ' ' else gap

section

variable {s t gap word : List Char}

theorem ne_feed_of_not_blank {c : Char} (hc : isBlank c = false) : c ≠ '\n' := by
  rintro rfl
  exact absurd hc (by decide)

/-- The lines that follow a line end, where the text goes on with a word behind some blanks. -/
theorem flatMap_trim_gap (hg : AllBlank gap) (ht : ∃ c r, t = c :: r ∧ isBlank c = false) :
    (((gap ++ t).splitOn '\n').flatMap fun line => ' ' :: trim line) =
      List.replicate (gap.count '\n') ' ' ++ ' ' :: joinedText t := by
  induction gap with
  | nil =>
    obtain ⟨c, r, rfl, hc⟩ := ht
    obtain ⟨first, rest, hr⟩ := exists_splitOn_eq_cons '\n' r
    have hsplit : (c :: r).splitOn '\n' = (c :: first) :: rest :=
      splitOn_cons_of_ne (ne_feed_of_not_blank hc) hr
    have htrim : trim (c :: first) = trimEnd (c :: first) := by
      rw [trim, trimStart_of_not_blank hc]
    rw [List.nil_append, joinedText, hsplit, List.flatMap_cons, htrim]
    rfl
  | cons d gap ih =>
    obtain ⟨hd, hgap⟩ := List.forall_mem_cons.mp hg
    have hrest := ih hgap
    by_cases hfeed : d = '\n'
    · rw [hfeed, List.cons_append, splitOn_cons_self, List.flatMap_cons, hrest,
        List.count_cons_self, List.replicate_succ]
      rfl
    · obtain ⟨first, rest, hr⟩ := exists_splitOn_eq_cons '\n' (gap ++ t)
      have hsplit : (d :: (gap ++ t)).splitOn '\n' = (d :: first) :: rest :=
        splitOn_cons_of_ne hfeed hr
      have htrim : trim (d :: first) = trim first := by rw [trim, trimStart_of_blank hd, trim]
      rw [hr] at hrest
      rw [List.cons_append, hsplit, List.flatMap_cons, htrim, List.count_cons_of_ne hfeed, ← hrest,
        List.flatMap_cons]

/-- A word and the blanks behind it, in front of the next word. -/
theorem joinedText_word (hw : '\n' ∉ word) (hend : ∃ front c, word = front ++ [c] ∧ isBlank c = false)
    (hg : AllBlank gap) (ht : ∃ c r, t = c :: r ∧ isBlank c = false) :
    joinedText (word ++ (gap ++ t)) = word ++ (joinedGap gap ++ joinedText t) := by
  obtain ⟨front, c, rfl, hc⟩ := hend
  by_cases hfeed : '\n' ∈ gap
  · obtain ⟨before, after, rfl, hno⟩ := List.eq_append_cons_of_mem hfeed
    have hbefore : AllBlank before := fun d hd => hg d (List.mem_append_left _ hd)
    have hafter : AllBlank after := fun d hd =>
      hg d (List.mem_append_right _ (List.mem_cons_of_mem _ hd))
    have hfirst : '\n' ∉ (front ++ [c]) ++ before := by simpa [hno] using hw
    have htext : (front ++ [c]) ++ ((before ++ '\n' :: after) ++ t) =
        ((front ++ [c]) ++ before) ++ '\n' :: (after ++ t) := by simp
    have hend : trimEnd ((front ++ [c]) ++ before) = front ++ [c] := by
      rw [List.append_assoc, List.singleton_append, trimEnd_append_cons hc,
        trimEnd_eq_nil_iff.mpr hbefore]
    have hspaces : joinedGap (before ++ '\n' :: after) =
        List.replicate (after.count '\n') ' ' ++ [' '] := by
      rw [joinedGap, if_pos hfeed, List.count_append, List.count_eq_zero_of_not_mem hno,
        List.count_cons_self, Nat.zero_add, List.replicate_succ']
    rw [htext, joinedText, List.splitOn_append_cons_self_of_not_mem hfirst, hspaces]
    show joinLines _ _ = _
    rw [joinLines, hend, flatMap_trim_gap hafter ht]
    simp
  · obtain ⟨d, r, rfl, hd⟩ := ht
    obtain ⟨piece, pieces, hp⟩ := exists_splitOn_eq_cons '\n' r
    have hr := splitOn_cons_of_ne (ne_feed_of_not_blank hd) hp
    have hfront : '\n' ∉ (front ++ [c]) ++ gap := by simpa [hfeed] using hw
    rw [joinedGap, if_neg hfeed, ← List.append_assoc, joinedText,
      splitOn_append_of_notMem hfront hr, joinedText, hr]
    show joinLines _ _ = _ ++ (_ ++ joinLines _ _)
    have hword : trimEnd (d :: piece) = d :: trimEnd piece := trimEnd_append_cons hd [] piece
    rw [joinLines, joinLines, trimEnd_append_cons hd, hword]
    simp

end

/-! ## Joining the lines of a list -/

theorem notMem_joinedGap (gap : List Char) : '\n' ∉ joinedGap gap := by
  by_cases h : '\n' ∈ gap
  · simp [joinedGap, h]
  · rw [joinedGap, if_neg h]
    exact h

theorem allBlank_joinedGap {gap : List Char} (h : AllBlank gap) : AllBlank (joinedGap gap) := by
  by_cases hm : '\n' ∈ gap
  · rw [joinedGap, if_pos hm]
    intro c hc
    rw [List.eq_of_mem_replicate hc]
    decide
  · rw [joinedGap, if_neg hm]
    exact h

def Spacing.joined (gap : Spacing) : Spacing where
  text := joinedGap gap.text
  ne_nil := by
    by_cases h : '\n' ∈ gap.text
    · rw [joinedGap, if_pos h]
      simpa using (List.count_pos_iff.mpr h).ne'
    · rw [joinedGap, if_neg h]
      exact gap.ne_nil
  blank := allBlank_joinedGap gap.blank
  spaces := by
    by_cases h : '\n' ∈ gap.text
    · simp [joinedGap, h]
    · rw [joinedGap, if_neg h]
      exact gap.spaces

def Spacing.single : Spacing := ⟨[' '], List.cons_ne_nil _ _, .space, .inr (by simp)⟩

/-- The same entry with other blanks between its words. -/
def Binding.respace (f : Spacing → Spacing) : Binding → Binding
  | .name n => .name n
  | .renamed source before after asName => .renamed source (f before) (f after) asName

def Item.respace (f : Spacing → Spacing) : Item → Item
  | .binding b => .binding (b.respace f)
  | .typeOnly gap b => .typeOnly (f gap) (b.respace f)

def Piece.joined : Piece → Piece
  | .item m i => .item ⟨joinedGap m.before, joinedGap m.after, allBlank_joinedGap m.blankBefore,
      allBlank_joinedGap m.blankAfter⟩ (i.respace Spacing.joined)
  | .empty gap h => .empty (joinedGap gap) (allBlank_joinedGap h)

/-- The piece with single spaces, and with these blanks behind it. -/
def Piece.tidy (after : List Char) (h : AllBlank after) : Piece → Piece
  | .item _ i => .item ⟨[' '], after, .space, h⟩ (i.respace fun _ => .single)
  | .empty _ _ => .empty [' '] .space

/-- The list with single spaces behind commas and inside of the braces. -/
def tidyPieces : List Piece → List Piece
  | [] => []
  | [piece] => [piece.tidy [' '] .space]
  | piece :: rest => piece.tidy [] .nil :: tidyPieces rest

namespace ListStatement

def joined (st : ListStatement) : ListStatement := { st with pieces := st.pieces.map Piece.joined }

/-- The statement on one line with single spaces. -/
def tidy (st : ListStatement) : ListStatement := { st with pieces := tidyPieces st.pieces }

end ListStatement

section

variable {f : Spacing → Spacing} {t gap word indent : List Char}

theorem Item.kept?_respace (i : Item) : (i.respace f).kept? = i.kept? := by
  cases i with
  | binding b => cases b <;> rfl
  | typeOnly gap b => rfl

theorem Piece.kept?_joined (p : Piece) : p.joined.kept? = p.kept? := by
  cases p with
  | item m i => exact i.kept?_respace
  | empty gap h => rfl

theorem Piece.kept?_tidy (p : Piece) {after : List Char} (h : AllBlank after) :
    (p.tidy after h).kept? = p.kept? := by
  cases p with
  | item m i => exact i.kept?_respace
  | empty gap h => rfl

theorem entries_joined (pieces : List Piece) :
    (pieces.map Piece.joined).filterMap Piece.kept? = pieces.filterMap Piece.kept? := by
  rw [List.filterMap_map]
  exact List.filterMap_congr fun p _ => p.kept?_joined

theorem entries_tidyPieces (pieces : List Piece) :
    (tidyPieces pieces).filterMap Piece.kept? = pieces.filterMap Piece.kept? := by
  fun_induction tidyPieces pieces with
  | case1 => rfl
  | case2 piece => rw [List.filterMap_cons, Piece.kept?_tidy, List.filterMap_cons]
  | case3 piece rest _ ih => rw [List.filterMap_cons, Piece.kept?_tidy, List.filterMap_cons, ih]

theorem Item.notMem_respace (hf : ∀ gap, '\n' ∉ (f gap).text) (i : Item) :
    '\n' ∉ (i.respace f).text := by
  have hname (n : Name) : '\n' ∉ n.text := n.forall_ne (by decide)
  have hbinding (b : Binding) : '\n' ∉ (b.respace f).text := by
    cases b <;> simp [Binding.respace, Binding.text, hname, hf]
  cases i with
  | binding b => exact hbinding b
  | typeOnly gap b =>
    have htype : '\n' ∉ "type".toList := by decide
    simp only [Item.respace, Item.text, List.mem_append, not_or]
    exact ⟨htype, hf gap, hbinding b⟩

theorem notMem_joined (pieces : List Piece) : '\n' ∉ listText (pieces.map Piece.joined) := by
  refine notMem_listText_iff.mpr (List.forall_mem_map.mpr fun p _ => ?_)
  cases p with
  | item m i =>
    have hi := i.notMem_respace (f := Spacing.joined) fun gap => notMem_joinedGap gap.text
    simp [Piece.joined, Piece.text, Margins.around, notMem_joinedGap, hi]
  | empty gap h => exact notMem_joinedGap gap

theorem notMem_tidyPieces (pieces : List Piece) : '\n' ∉ listText (tidyPieces pieces) := by
  have hpiece (p : Piece) {after : List Char} (h : AllBlank after) (hn : '\n' ∉ after) :
      '\n' ∉ (p.tidy after h).text := by
    cases p with
    | item m i =>
      have hi := i.notMem_respace (f := fun _ => .single) fun gap => by simp [Spacing.single]
      simp [Piece.tidy, Piece.text, Margins.around, hi, hn]
    | empty gap h => simp [Piece.tidy, Piece.text]
  refine notMem_listText_iff.mpr ?_
  fun_induction tidyPieces pieces with
  | case1 => simp
  | case2 piece => simpa using hpiece piece .space (by simp)
  | case3 piece rest _ ih => exact List.forall_mem_cons.mpr ⟨hpiece piece .nil (by simp), ih⟩

theorem Item.joinedText_text (i : Item) (hg : AllBlank gap)
    (ht : ∃ c r, t = c :: r ∧ isBlank c = false) :
    joinedText (i.text ++ (gap ++ t)) =
      (i.respace Spacing.joined).text ++ (joinedGap gap ++ joinedText t) := by
  have hname (n : Name) {gap t : List Char} (hg : AllBlank gap)
      (ht : ∃ c r, t = c :: r ∧ isBlank c = false) :
      joinedText (n.text ++ (gap ++ t)) = n.text ++ (joinedGap gap ++ joinedText t) :=
    joinedText_word (n.forall_ne (by decide)) n.solid.ends hg ht
  have hbinding (b : Binding) : joinedText (b.text ++ (gap ++ t)) =
      (b.respace Spacing.joined).text ++ (joinedGap gap ++ joinedText t) := by
    cases b with
    | name n => exact hname n hg ht
    | renamed source before after asName =>
      have has : joinedText (['a', 's'] ++ (after.text ++ (asName.text ++ (gap ++ t)))) =
          ['a', 's'] ++ (joinedGap after.text ++ joinedText (asName.text ++ (gap ++ t))) :=
        joinedText_word (by decide) ⟨['a'], 's', rfl, by decide⟩ after.blank
          (asName.solid.starts_append _)
      have hsource := hname source before.blank
        (t := ['a', 's'] ++ (after.text ++ (asName.text ++ (gap ++ t)))) ⟨'a', _, rfl, by decide⟩
      rw [has, hname asName hg ht] at hsource
      simpa [Binding.text, Binding.respace, Spacing.joined] using hsource
  cases i with
  | binding b => exact hbinding b
  | typeOnly before b =>
    have htype : joinedText ("type".toList ++ (before.text ++ (b.text ++ (gap ++ t)))) =
        "type".toList ++ (joinedGap before.text ++ joinedText (b.text ++ (gap ++ t))) :=
      joinedText_word (by decide) ⟨['t', 'y', 'p'], 'e', rfl, by decide⟩ before.blank
        (b.solid.starts_append _)
    rw [hbinding b] at htype
    rw [Item.text, Item.respace, Item.text, List.append_assoc, List.append_assoc, htype,
      List.append_assoc, List.append_assoc]
    rfl

theorem Piece.joinedText_text (p : Piece) (hw : '\n' ∉ word)
    (hend : ∃ front c, word = front ++ [c] ∧ isBlank c = false)
    (ht : ∃ c r, t = c :: r ∧ isBlank c = false) :
    joinedText (word ++ (p.text ++ t)) = word ++ (p.joined.text ++ joinedText t) := by
  cases p with
  | item m i =>
    have hword := joinedText_word hw hend m.blankBefore (i.solid.starts_append (m.after ++ t))
    rw [i.joinedText_text m.blankAfter ht] at hword
    simpa [Piece.text, Piece.joined, Margins.around] using hword
  | empty gap h => exact joinedText_word hw hend h ht

theorem joinedText_list (pieces : List Piece) (hw : '\n' ∉ word)
    (hend : ∃ front c, word = front ++ [c] ∧ isBlank c = false)
    (ht : ∃ c r, t = c :: r ∧ isBlank c = false) :
    joinedText (word ++ (listText pieces ++ t)) =
      word ++ (listText (pieces.map Piece.joined) ++ joinedText t) := by
  induction pieces generalizing word with
  | nil => exact joinedText_word hw hend .nil ht
  | cons p rest ih =>
    rw [List.map_cons]
    by_cases hr : rest = []
    · rw [hr, List.map_nil, listText_singleton, listText_singleton]
      exact p.joinedText_text hw hend ht
    · have hcomma : joinedText ([','] ++ (listText rest ++ t)) =
          [','] ++ (listText (rest.map Piece.joined) ++ joinedText t) :=
        ih (by decide) ⟨[], ',', rfl, by decide⟩
      have hpiece := p.joinedText_text hw hend
        (t := [','] ++ (listText rest ++ t)) ⟨',', _, rfl, by decide⟩
      rw [hcomma] at hpiece
      rw [listText_cons hr, listText_cons (by simpa using hr)]
      simpa using hpiece

theorem joinedText_of_notMem {s : List Char} (hn : '\n' ∉ s)
    (hend : ∃ front c, s = front ++ [c] ∧ isBlank c = false) : joinedText s = s := by
  rw [joinedText, List.splitOn_eq_singleton hn]
  show joinLines s [] = s
  rw [joinLines, trimEnd_eq_self hend, List.flatMap_nil, List.append_nil]

/-! ## The words around a list -/

namespace ListForm

theorem notMem_opening (form : ListForm) {c : Char} (hc : c = '\n' ∨ c = '\x7d') :
    c ∉ form.opening := by
  have hexport : ∀ c, c = '\n' ∨ c = '\x7d' → c ∉ "export ".toList ++ ['\x7b'] := by
    rintro c (rfl | rfl) <;> decide
  cases form with
  | importList main m =>
    have himport : ∀ c, c = '\n' ∨ c = '\x7d' →
        c ∉ "import ".toList ∧ c ∉ [',', ' '] ∧ c ∉ ['\x7b'] ∧ isAsciiNamePart c = false := by
      rintro c (rfl | rfl) <;> decide
    obtain ⟨hword, hcomma, hbrace, hpart⟩ := himport c hc
    have hmain : c ∉ mainText main := by
      cases main with
      | none => exact List.not_mem_nil
      | some n => exact fun hm => (List.mem_append.mp hm).elim (n.forall_ne hpart) hcomma
    exact fun hm => (List.mem_append.mp hm).elim hword fun hm =>
      (List.mem_append.mp hm).elim hmain hbrace
  | exportList => exact hexport c hc
  | exportListFrom m => exact hexport c hc

theorem closing_solid (form : ListForm) (semicolon : Bool) : Solid (form.closing semicolon) := by
  have hfrom (m : ModuleName) : ∃ front c, fromText m semicolon = front ++ [c] ∧ isBlank c = false := by
    cases semicolon with
    | true =>
      have htext := List.append_assoc " from ".toList m.literal [';']
      exact ⟨_, ';', htext.symm, by decide⟩
    | false =>
      have htext := List.append_assoc " from ".toList (m.mark :: m.text) [m.mark]
      have hliteral : m.literal ++ ending false = (m.mark :: m.text) ++ [m.mark] := List.append_nil _
      exact ⟨_, m.mark, (congrArg (" from ".toList ++ ·) hliteral).trans htext.symm,
        isBlank_of_isQuoteMark m.isQuoteMark⟩
  cases form with
  | importList main m =>
    obtain ⟨front, c, h, hc⟩ := hfrom m
    exact ⟨⟨'\x7d', _, rfl, by decide⟩, '\x7d' :: front, c, congrArg _ h, hc⟩
  | exportList =>
    refine ⟨⟨'\x7d', _, rfl, by decide⟩, ?_⟩
    cases semicolon with
    | true => exact ⟨['\x7d'], ';', rfl, by decide⟩
    | false => exact ⟨[], '\x7d', rfl, by decide⟩
  | exportListFrom m =>
    obtain ⟨front, c, h, hc⟩ := hfrom m
    exact ⟨⟨'\x7d', _, rfl, by decide⟩, '\x7d' :: front, c, congrArg _ h, hc⟩

theorem notMem_closing (form : ListForm) (semicolon : Bool) : '\n' ∉ form.closing semicolon := by
  have hending : '\n' ∉ ending semicolon := by cases semicolon <;> decide
  have hfrom (m : ModuleName) : '\n' ∉ fromText m semicolon := by
    have hmark : '\n' ≠ m.mark := fun h => by
      have hq := m.isQuoteMark
      rw [← h] at hq
      exact absurd hq (by decide)
    have htext : '\n' ∉ m.text := fun h => (m.plain _ h).2 rfl
    have hword : '\n' ∉ " from ".toList := by decide
    have hliteral : '\n' ∉ m.literal := by simp [ModuleName.literal, hmark, htext]
    exact fun h => (List.mem_append.mp h).elim hword fun h =>
      (List.mem_append.mp h).elim hliteral hending
  cases form <;> simp [closing, hending, hfrom]

end ListForm

namespace ListStatement

theorem text_ends (st : ListStatement) (indent : List Char) :
    ∃ front c, indent ++ st.text = front ++ [c] ∧ isBlank c = false := by
  have hends := (st.form.closing_solid st.semicolon).append_ends
    (indent ++ (st.form.opening ++ listText st.pieces))
  rwa [List.append_assoc, List.append_assoc] at hends

/-- A statement over several lines is joined to one on one line. -/
theorem joinedText_text (st : ListStatement) (hi : '\n' ∉ indent) :
    joinedText (indent ++ st.text) = indent ++ st.joined.text := by
  have hopening : '\n' ∉ indent ++ st.form.opening := fun h =>
    (List.mem_append.mp h).elim hi (st.form.notMem_opening (.inl rfl))
  have hends := st.form.opening_solid.append_ends indent
  have hclosing := st.form.closing_solid st.semicolon
  have hjoined := joinedText_list st.pieces hopening hends hclosing.starts
  rw [joinedText_of_notMem (st.form.notMem_closing _) hclosing.ends, List.append_assoc,
    List.append_assoc] at hjoined
  exact hjoined

/-- The statement is emitted as the one with single spaces. -/
theorem emitLine_joinedText (st : ListStatement) (hi : AllBlank indent) (hn : '\n' ∉ indent)
    (p : Progress) :
    emitLine p (joinedText (indent ++ st.text)) = emitLine p (indent ++ st.tidy.text) := by
  have hjoined := st.joined.recognize?_text (notMem_joined st.pieces)
  have htidy := st.tidy.recognize?_text (notMem_tidyPieces st.pieces)
  rw [joined, entries_joined] at hjoined
  rw [tidy, entries_tidyPieces] at htidy
  rw [st.joinedText_text hn, emitLine_statement hi st.joined.starts hjoined,
    emitLine_statement hi st.tidy.starts htidy]

end ListStatement

end

end ModuleLoader.Transpile
