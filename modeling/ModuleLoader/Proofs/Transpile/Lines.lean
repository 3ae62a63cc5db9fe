import ModuleLoader.Proofs.Text.Lines
import ModuleLoader.Proofs.Transpile.OneLine
import ModuleLoader.Transpile.Source

/-! The lines of transpiled texts. Every line stays at its index: a list is moved onto its first
line, a statement changes in place, and one line takes the header in. -/

namespace ModuleLoader.Transpile

open Text

/-- Whether a line begins as statements do. -/
def beginsStatement (line : List Char) : Bool :=
  startsWith "import".toList (trimStart line) || startsWith "export".toList (trimStart line)

/-- Whether line `j` goes on with a list. An earlier line opens the list that itself goes on with
none, no line between them closes it, and a line from `j` on does. -/
def ContinuesList (all : List (List Char)) (j : Nat) : Prop :=
  ∃ i, ∃ _ : i < j, ¬ContinuesList all i ∧ (∃ line, all[i]? = some line ∧ isOpenList line = true) ∧
    (∀ k line, i < k → k < j → all[k]? = some line → closesList line = false) ∧
    ∃ k line, j ≤ k ∧ all[k]? = some line ∧ closesList line = true
termination_by j

section

variable {all : List (List Char)} {line : List Char} {i j : Nat}

theorem not_continuesList_zero : ¬ContinuesList all 0 := by
  rw [ContinuesList]
  rintro ⟨i, hi, -⟩
  exact absurd hi (Nat.not_lt_zero i)

/-- Behind a line that closes the list of its own, no list goes on. -/
theorem ContinuesList.not_succ (hj : ContinuesList all j) (hl : all[j]? = some line)
    (hc : closesList line = true) : ¬ContinuesList all (j + 1) := by
  rw [ContinuesList]
  rintro ⟨i, hi, hstart, -, hbetween, -⟩
  obtain rfl | hlt := Nat.eq_or_lt_of_le (Nat.le_of_lt_succ hi)
  · exact hstart hj
  · have hopen := hbetween j line hlt (Nat.lt_succ_self j) hl
    rw [hc] at hopen
    cases hopen

/-- A list goes on only behind a line that goes on with it or opens it. -/
theorem not_continuesList_succ (hj : ¬ContinuesList all j)
    (ho : ∀ line, all[j]? = some line → isOpenList line = true →
      ∀ k line, j < k → all[k]? = some line → closesList line = false) :
    ¬ContinuesList all (j + 1) := by
  intro hs
  rw [ContinuesList] at hs
  obtain ⟨i, hi, hstart, ⟨line, hl, hopen⟩, hbetween, k, last, hk, hlast, hclose⟩ := hs
  obtain rfl | hlt := Nat.eq_or_lt_of_le (Nat.le_of_lt_succ hi)
  · have hnone := ho line hl hopen k last hk hlast
    rw [hclose] at hnone
    cases hnone
  · refine hj ?_
    rw [ContinuesList]
    exact ⟨i, hlt, hstart, ⟨line, hl, hopen⟩,
      fun k line hik hkj => hbetween k line hik (Nat.lt_succ_of_lt hkj),
      k, last, Nat.le_of_succ_le hk, hlast, hclose⟩

end

/-- What may become of line `j`. One that goes on with a list becomes empty, and one that begins no
statement stays as it is. -/
structure Stays (all : List (List Char)) (j : Nat) (line text : List Char) : Prop where
  empty : ContinuesList all j → text = []
  same : ¬ContinuesList all j → beginsStatement line = false → text = line

/-- Whether all lines from index `j` on become what they may. -/
inductive Kept (all : List (List Char)) : Nat → List (List Char) → List (List Char) → Prop
  | nil {j} : Kept all j [] []
  | cons {j line text rest out} (h : Stays all j line text) (hr : Kept all (j + 1) rest out) :
    Kept all j (line :: rest) (text :: out)

section

variable {all part out : List (List Char)} {line text : List Char} {j : Nat}

theorem Kept.length_eq (h : Kept all j part out) : out.length = part.length := by
  induction h with
  | nil => rfl
  | cons _ _ ih => rw [List.length_cons, List.length_cons, ih]

theorem Kept.getElem? (h : Kept all j part out) {i : Nat} (hi : part[i]? = some line) :
    ∃ text, out[i]? = some text ∧ Stays all (j + i) line text := by
  induction h generalizing i with
  | nil => cases hi
  | @cons j first text rest out hs _ ih =>
    cases i with
    | zero =>
      obtain rfl : first = line := Option.some.inj hi
      exact ⟨text, rfl, hs⟩
    | succ i =>
      obtain ⟨t, ht, hst⟩ := ih hi
      rw [Nat.add_right_comm] at hst
      exact ⟨t, ht, hst⟩

/-! ## Lists -/

theorem startsWith_eq_true_of_after? {lead s rest : List Char} (h : after? lead s = some rest) :
    startsWith lead s = true := by
  rw [← isSome_after?, h]
  rfl

theorem beginsStatement_of_isOpenList (h : isOpenList line = true) : beginsStatement line = true := by
  have ho : opensList (trimStart line) = true := (Bool.and_eq_true_iff.mp h).1
  unfold opensList at ho
  refine Bool.or_eq_true_iff.mpr ?_
  split at ho
  · next ha => exact .inl (startsWith_eq_true_of_after? ha)
  · split at ho
    · next ha => exact .inr (startsWith_eq_true_of_after? ha)
    · cases ho

/-- By induction on the lines: the first `skip` of them are those that go on with a list. -/
theorem kept_joinListsFrom {rest : List (List Char)} {skip : Nat}
    (hall : ∀ i, all[j + i]? = rest[i]?)
    (hskip : ∀ i < skip, ContinuesList all (j + i)) (hnext : ¬ContinuesList all (j + skip)) :
    Kept all j rest (joinListsFrom skip rest) := by
  induction rest generalizing j skip with
  | nil =>
    cases skip <;> exact .nil
  | cons line rest ih =>
    have hline : all[j]? = some line := hall 0
    have hrest : ∀ i, all[j + 1 + i]? = rest[i]? := by
      intro i
      rw [Nat.add_right_comm]
      exact hall (i + 1)
    cases skip with
    | succ skip =>
      refine .cons ⟨fun _ => rfl, fun hn => absurd (hskip 0 (Nat.succ_pos skip)) hn⟩ ?_
      refine ih hrest (fun i hi => ?_) ?_
      · rw [Nat.add_right_comm]
        exact hskip (i + 1) (Nat.succ_lt_succ hi)
      · rw [Nat.add_right_comm]
        exact hnext
    | zero =>
      have hj : ¬ContinuesList all j := hnext
      rw [joinListsFrom]
      have hbehind : ∀ {k last}, j < k → all[k]? = some last → rest[k - (j + 1)]? = some last := by
        intro k last hk hlast
        rw [← hrest, Nat.add_sub_cancel' hk]
        exact hlast
      split
      · next i hfound =>
        obtain ⟨hopen, hi⟩ := Option.ite_none_right_eq_some.mp hfound
        obtain ⟨hlt, hclose, hfirst⟩ := List.findIdx?_eq_some_iff_getElem.mp hi
        have hlast : all[j + 1 + i]? = some rest[i] := by rw [hrest, List.getElem?_eq_getElem hlt]
        have hlist : ∀ m < i + 1, ContinuesList all (j + 1 + m) := by
          intro m hm
          rw [ContinuesList]
          refine ⟨j, by omega, hj, ⟨line, hline, hopen⟩, fun k l hjk hkm hl => ?_,
            j + 1 + i, _, by omega, hlast, hclose⟩
          obtain ⟨hk, rfl⟩ := List.getElem?_eq_some_iff.mp (hbehind hjk hl)
          simpa using hfirst (k - (j + 1)) (by omega)
        refine .cons ⟨fun hc => absurd hc hj, fun _ hb => ?_⟩ (ih hrest hlist ?_)
        · rw [beginsStatement_of_isOpenList hopen] at hb
          cases hb
        · exact (hlist i (Nat.lt_succ_self i)).not_succ hlast hclose
      · next hnone =>
        refine .cons ⟨fun hc => absurd hc hj, fun _ _ => rfl⟩
          (ih hrest (fun i hi => absurd hi (Nat.not_lt_zero i)) ?_)
        refine not_continuesList_succ hj fun l hl hopen k last hk hlast => ?_
        obtain rfl : line = l := Option.some.inj (hline.symm.trans hl)
        rw [if_pos hopen] at hnone
        exact List.findIdx?_eq_none_iff.mp hnone last (List.mem_of_getElem? (hbehind hk hlast))

theorem kept_joinLists (all : List (List Char)) : Kept all 0 all (joinLists all) :=
  kept_joinListsFrom (fun i => by rw [Nat.zero_add]) (fun i hi => absurd hi (Nat.not_lt_zero i))
    not_continuesList_zero

/-! ## Statements -/

theorem recognize?_eq_none (h : beginsStatement line = false) :
    Statement.recognize? (trimStart line) = none := by
  obtain ⟨hi, he⟩ := Bool.or_eq_false_iff.mp h
  have hi : after? "import".toList (trimStart line) = none := by simpa [← isSome_after?] using hi
  have he : after? "export".toList (trimStart line) = none := by simpa [← isSome_after?] using he
  rw [Statement.recognize?, hi, he]
  rfl

theorem emitLine_of_not_beginsStatement (p : Progress) (h : beginsStatement line = false) :
    emitLine p line = (line, p) := by
  rw [emitLine, recognize?_eq_none h]

theorem Stays.emit (h : Stays all j line text) (p : Progress) :
    Stays all j line (emitLine p text).1 where
  empty hc := by
    rw [h.empty hc, emitLine_of_not_beginsStatement p (by decide)]
  same hn hb := by
    rw [h.same hn hb, emitLine_of_not_beginsStatement p hb]

theorem emitLines_cons (p : Progress) (line : List Char) (rest : List (List Char)) :
    (emitLines p (line :: rest)).1 =
      (emitLine p line).1 :: (emitLines (emitLine p line).2 rest).1 ∧
    (emitLines p (line :: rest)).2 = (emitLines (emitLine p line).2 rest).2 := ⟨rfl, rfl⟩

theorem Kept.emit (h : Kept all j part out) (p : Progress) :
    Kept all j part (emitLines p out).1 := by
  induction h generalizing p with
  | nil => exact .nil
  | cons hs _ ih =>
    rw [(emitLines_cons p _ _).1]
    exact .cons (hs.emit p) (ih _)

end

/-! ## Line feeds -/

theorem notMem_joinListsFrom {skip : Nat} {ls : List (List Char)} (h : ∀ line ∈ ls, '\n' ∉ line) :
    ∀ line ∈ joinListsFrom skip ls, '\n' ∉ line := by
  induction ls generalizing skip with
  | nil => cases skip <;> exact fun line hm => absurd hm List.not_mem_nil
  | cons first rest ih =>
    obtain ⟨hfirst, hrest⟩ := List.forall_mem_cons.mp h
    cases skip with
    | succ skip => exact List.forall_mem_cons.mpr ⟨List.not_mem_nil, ih hrest⟩
    | zero =>
      rw [joinListsFrom]
      split
      · refine List.forall_mem_cons.mpr ⟨fun hn => ?_, ih hrest⟩
        rcases List.mem_append.mp hn with hn | hn
        · exact hfirst (trimEnd_subset first hn)
        · obtain ⟨line, hl, hn⟩ := List.mem_flatMap.mp hn
          have hline := hrest line (List.mem_of_mem_take hl)
          rcases List.mem_cons.mp hn with hn | hn
          · exact absurd hn (by decide)
          · exact hline (trim_subset line hn)
      · exact List.forall_mem_cons.mpr ⟨hfirst, ih hrest⟩

/-- Whether the getters so far fit on one line. -/
def Progress.Plain (p : Progress) : Prop := ∀ g ∈ p.getters, OneLine g.expression

theorem emitLine_plain {p : Progress} {line : List Char} (hp : p.Plain) (hl : '\n' ∉ line) :
    '\n' ∉ (emitLine p line).1 ∧ (emitLine p line).2.Plain := by
  rw [emitLine]
  cases hr : Statement.recognize? (trimStart line) with
  | none => exact ⟨hl, hp⟩
  | some st =>
    have htexts : ∀ t ∈ st.texts, OneLine t := fun t ht hn =>
      hl (trimStart_subset line (recognize?_texts_subset hr t ht hn))
    obtain ⟨htext, hgetters⟩ := oneLine_emit p.temporaries htexts
    refine ⟨?_, fun g hg => ?_⟩
    · dsimp only
      split
      · exact List.not_mem_nil
      · exact List.not_mem_append (fun hn => hl ((List.takeWhile_sublist _).subset hn)) htext
    · rcases List.mem_append.mp hg with hg | hg
      · exact hp g hg
      · exact hgetters g hg

theorem emitLines_plain {p : Progress} {ls : List (List Char)} (hp : p.Plain)
    (hl : ∀ line ∈ ls, '\n' ∉ line) :
    (∀ line ∈ (emitLines p ls).1, '\n' ∉ line) ∧ (emitLines p ls).2.Plain := by
  induction ls generalizing p with
  | nil => exact ⟨fun line hm => absurd hm List.not_mem_nil, hp⟩
  | cons line rest ih =>
    obtain ⟨hline, hrest⟩ := List.forall_mem_cons.mp hl
    obtain ⟨htext, hp'⟩ := emitLine_plain hp hline
    obtain ⟨hout, hend⟩ := ih hp' hrest
    exact ⟨List.forall_mem_cons.mpr ⟨htext, hout⟩, hend⟩

/-! ## The header -/

/-- The ways in which a line takes the header in: it stands alone in an empty line, in front of
another one, or behind a directive that is ended first. -/
inductive Receives (header : List Char) : List Char → List Char → Prop
  | alone : Receives header [] header
  | front {line} : Receives header line (header ++ ' ' :: line)
  | behind {line mark} (hd : isDirective line = true) (hm : mark = [] ∨ mark = [';']) :
    Receives header line (trimEnd line ++ mark ++ ' ' :: header)

/-- The lines that are counted end in a directive, and only directives, blank lines and comments stand
before it. -/
theorem exists_front_of_directivesEnd? {ls : List (List Char)} {n : Nat}
    (h : directivesEnd? ls = some n) : ∃ front line back, ls = front ++ line :: back ∧
      n = front.length + 1 ∧ isDirective line = true ∧
        ∀ l ∈ front, isIdleLine l = true ∨ isDirective l = true := by
  induction ls generalizing n with
  | nil => cases h
  | cons first rest ih =>
    have hbehind {m : Nat} (hp : isIdleLine first = true ∨ isDirective first = true)
        (hr : directivesEnd? rest = some m) :
        ∃ front line back, first :: rest = front ++ line :: back ∧ m + 1 = front.length + 1 ∧
          isDirective line = true ∧ ∀ l ∈ front, isIdleLine l = true ∨ isDirective l = true := by
      obtain ⟨front, line, back, rfl, rfl, hline, hfront⟩ := ih hr
      exact ⟨first :: front, line, back, rfl, rfl, hline, List.forall_mem_cons.mpr ⟨hp, hfront⟩⟩
    rw [directivesEnd?] at h
    split at h
    · next hidle =>
      obtain ⟨m, hm, rfl⟩ := Option.map_eq_some_iff.mp h
      exact hbehind (.inl hidle) hm
    · split at h
      · next hdirective =>
        cases hr : directivesEnd? rest with
        | none =>
          rw [hr] at h
          cases h
          exact ⟨[], first, rest, rfl, rfl, hdirective, by simp⟩
        | some m =>
          rw [hr] at h
          cases h
          exact hbehind (.inr hdirective) hr
      · cases h

theorem receives_beforeLine (header line : List Char) : Receives header line (beforeLine header line) := by
  cases line with
  | nil => exact .alone
  | cons c r => exact .front

theorem receives_afterDirective (header : List Char) {line : List Char} (h : isDirective line = true) :
    Receives header line (afterDirective header line) := by
  unfold afterDirective
  dsimp only
  split
  · have hr : Receives header line (trimEnd line ++ [] ++ ' ' :: header) := .behind h (.inl rfl)
    rwa [List.append_nil] at hr
  · exact .behind h (.inr rfl)

/-- The header goes into one line, which is the first one or a directive. -/
theorem exists_receiver (header : List Char) {ls : List (List Char)} (h : ls ≠ []) :
    ∃ k first, ls[k]? = some first ∧ (k = 0 ∨ isDirective first = true) ∧
      (insertHeader header ls).length = ls.length ∧
      ∀ i line, ls[i]? = some line → ∃ text, (insertHeader header ls)[i]? = some text ∧
        if i = k then Receives header line text else text = line := by
  cases hd : directivesEnd? ls with
  | some n =>
    obtain ⟨front, directive, back, hls, rfl, hdirective, -⟩ := exists_front_of_directivesEnd? hd
    generalize hlen : front.length = k at hd
    have hk : ls[k]? = some directive := by simp [hls, ← hlen]
    have hi : insertHeader header ls = ls.modify k (afterDirective header) := by
      simp only [insertHeader, hd, Nat.add_sub_cancel]
    refine ⟨k, directive, hk, .inr hdirective, by rw [hi, List.length_modify], fun i line hl => ?_⟩
    rw [hi, List.getElem?_modify, hl]
    by_cases hik : i = k
    · obtain rfl : directive = line := Option.some.inj (hk.symm.trans (hik ▸ hl))
      refine ⟨afterDirective header directive, by simp [hik], ?_⟩
      rw [if_pos hik]
      exact receives_afterDirective header hdirective
    · exact ⟨line, by simp [Ne.symm hik], by simp [hik]⟩
  | none =>
    obtain ⟨first, rest, rfl⟩ := List.exists_cons_of_ne_nil h
    have hi : insertHeader header (first :: rest) = beforeLine header first :: rest := by
      simp only [insertHeader, hd]
    rw [hi]
    refine ⟨0, first, rfl, .inl rfl, rfl, fun i line hl => ?_⟩
    cases i with
    | zero =>
      obtain rfl : first = line := Option.some.inj hl
      exact ⟨_, rfl, receives_beforeLine header first⟩
    | succ i => exact ⟨line, hl, by simp⟩

theorem Receives.notMem {header line text : List Char} (h : Receives header line text)
    (hh : '\n' ∉ header) (hl : '\n' ∉ line) : '\n' ∉ text := by
  cases h with
  | alone => exact hh
  | front => simp [hh, hl]
  | behind _ hm =>
    have ht : '\n' ∉ trimEnd line := fun hn => hl (trimEnd_subset line hn)
    rcases hm with rfl | rfl <;> simp [hh, ht]

/-! ## The whole text -/

/-- The line at an index, but for a first line that names an interpreter. -/
def scriptLine (i : Nat) (line : List Char) : List Char :=
  if i = 0 ∧ startsWith ['#', '!'] line then [] else line

theorem getElem?_dropInterpreter (ls : List (List Char)) (i : Nat) :
    (dropInterpreter ls)[i]? = ls[i]?.map (scriptLine i) := by
  cases ls with
  | nil => rfl
  | cons first rest =>
    cases i with
    | zero => simp [dropInterpreter, scriptLine]
    | succ i =>
      have hs : scriptLine (i + 1) = id := by
        funext line
        simp [scriptLine]
      simp [dropInterpreter, hs]

theorem notMem_dropInterpreter {ls : List (List Char)} (h : ∀ line ∈ ls, '\n' ∉ line) :
    ∀ line ∈ dropInterpreter ls, '\n' ∉ line := by
  intro line hm
  obtain ⟨i, hi⟩ := List.mem_iff_getElem?.mp hm
  rw [getElem?_dropInterpreter] at hi
  obtain ⟨first, hf, rfl⟩ := Option.map_eq_some_iff.mp hi
  unfold scriptLine
  split
  · exact List.not_mem_nil
  · exact h first (List.mem_of_getElem? hf)

theorem length_dropInterpreter (ls : List (List Char)) : (dropInterpreter ls).length = ls.length := by
  cases ls <;> rfl

section

variable {ls : List (List Char)}

/-- What the statements of some lines have left at their end. -/
def progressOf (ls : List (List Char)) : Progress := (emitLines .start (joinLists ls)).2

/-- The lines before the header goes in. -/
def emittedLines (ls : List (List Char)) : List (List Char) :=
  dropInterpreter (emitLines .start (joinLists ls)).1

theorem transpileLines_eq (ls : List (List Char)) : transpileLines ls =
    if (progressOf ls).hasExports then
      insertHeader (headerText (progressOf ls).getters).toList (emittedLines ls)
    else emittedLines ls := rfl

theorem length_emittedLines (ls : List (List Char)) : (emittedLines ls).length = ls.length := by
  rw [emittedLines, length_dropInterpreter, ((kept_joinLists ls).emit .start).length_eq]

theorem emittedLines_plain (h : ∀ line ∈ ls, '\n' ∉ line) :
    (∀ line ∈ emittedLines ls, '\n' ∉ line) ∧ (progressOf ls).Plain := by
  have hstart : Progress.start.Plain := fun g hg => absurd hg List.not_mem_nil
  have hjoined : ∀ line ∈ joinLists ls, '\n' ∉ line := notMem_joinListsFrom h
  obtain ⟨hlines, hplain⟩ := emitLines_plain hstart hjoined
  exact ⟨notMem_dropInterpreter hlines, hplain⟩

theorem getElem?_emittedLines {i : Nat} {line : List Char} (hl : ls[i]? = some line) :
    ∃ text, (emittedLines ls)[i]? = some text ∧ (ContinuesList ls i → text = []) ∧
      (¬ContinuesList ls i → beginsStatement line = false → text = scriptLine i line) := by
  obtain ⟨text, ht, hs⟩ := ((kept_joinLists ls).emit .start).getElem? hl
  rw [Nat.zero_add] at hs
  refine ⟨scriptLine i text, ?_, fun hc => ?_, fun hn hb => ?_⟩
  · rw [emittedLines, getElem?_dropInterpreter, ht]
    rfl
  · rw [hs.empty hc]
    exact ite_self []
  · rw [hs.same hn hb]

theorem emittedLines_ne_nil (h : (progressOf ls).hasExports = true) : emittedLines ls ≠ [] := by
  intro he
  have hlen := length_emittedLines ls
  rw [he] at hlen
  obtain rfl : ls = [] := List.eq_nil_of_length_eq_zero hlen.symm
  cases h

theorem transpileLines_plain (h : ∀ line ∈ ls, '\n' ∉ line) :
    (transpileLines ls).length = ls.length ∧ ∀ line ∈ transpileLines ls, '\n' ∉ line := by
  obtain ⟨hlines, hplain⟩ := emittedLines_plain h
  rw [transpileLines_eq]
  split
  · next he =>
    obtain ⟨k, -, -, -, hlen, hall⟩ :=
      exists_receiver (headerText (progressOf ls).getters).toList (emittedLines_ne_nil he)
    refine ⟨hlen.trans (length_emittedLines ls), fun text hm => ?_⟩
    obtain ⟨i, hi⟩ := List.mem_iff_getElem?.mp hm
    have hlt := (List.getElem?_eq_some_iff.mp hi).1
    obtain ⟨text', ht, hr⟩ := hall i _ (List.getElem?_eq_getElem (hlen ▸ hlt))
    obtain rfl : text = text' := Option.some.inj (hi.symm.trans ht)
    have hline := hlines _ (List.getElem_mem (hlen ▸ hlt))
    split at hr
    · exact hr.notMem (oneLine_headerText hplain) hline
    · rwa [hr]
  · exact ⟨length_emittedLines ls, hlines⟩

/-- Each line goes its way through lists, statements and header. -/
theorem exists_header_receiver (ls : List (List Char)) :
    ∃ receiver : Option Nat, receiver.isSome = (progressOf ls).hasExports ∧
      (∀ k ∈ receiver, k < ls.length ∧ ¬ContinuesList ls k) ∧
      ∀ i line, ls[i]? = some line → ∃ text, (transpileLines ls)[i]? = some text ∧
        (ContinuesList ls i → text = []) ∧
        (¬ContinuesList ls i → beginsStatement line = false →
          if receiver = some i then
            Receives (headerText (progressOf ls).getters).toList (scriptLine i line) text
          else text = scriptLine i line) := by
  rw [transpileLines_eq]
  split
  · next he =>
    obtain ⟨k, first, hk, hfirst, -, hall⟩ :=
      exists_receiver (headerText (progressOf ls).getters).toList (emittedLines_ne_nil he)
    have hlt : k < ls.length := by
      rw [← length_emittedLines]
      exact (List.getElem?_eq_some_iff.mp hk).1
    -- A line that goes on with a list is empty by then, so it is no directive.
    have hlist : ¬ContinuesList ls k := by
      rcases hfirst with rfl | hd
      · exact not_continuesList_zero
      · intro hc
        obtain ⟨text, ht, hempty, -⟩ := getElem?_emittedLines (List.getElem?_eq_getElem hlt)
        obtain rfl : text = first := Option.some.inj (ht.symm.trans hk)
        rw [hempty hc] at hd
        cases hd
    refine ⟨some k, he.symm, fun j hj => ?_, fun i line hl => ?_⟩
    · obtain rfl : k = j := Option.mem_some.mp hj
      exact ⟨hlt, hlist⟩
    · obtain ⟨before, hb, hempty, hsame⟩ := getElem?_emittedLines hl
      obtain ⟨text, ht, hr⟩ := hall i before hb
      refine ⟨text, ht, fun hc => ?_, fun hn hbegins => ?_⟩
      · have hik : i ≠ k := fun hik => hlist (hik ▸ hc)
        rw [if_neg hik] at hr
        rw [hr, hempty hc]
      · rw [hsame hn hbegins] at hr
        by_cases hik : i = k
        · rw [if_pos hik] at hr
          rwa [if_pos (congrArg some hik.symm)]
        · rw [if_neg hik] at hr
          rwa [if_neg fun h => hik (Option.some.inj h).symm]
  · next he =>
    refine ⟨none, ?_, fun k hk => (Option.not_mem_none k hk).elim, fun i line hl => ?_⟩
    · have hf : (progressOf ls).hasExports = false := by simpa using he
      rw [hf]
      rfl
    · obtain ⟨text, ht, hempty, hsame⟩ := getElem?_emittedLines hl
      exact ⟨text, ht, hempty, fun hn hb => by rw [if_neg (by simp)]; exact hsame hn hb⟩

end

theorem toList_transpile (source : String) :
    (transpile source).toList = textLike source.toList (transpileLines (lines source.toList)) := by
  simp [transpile, textLike]

/-! ## Texts without statements -/

/-- The text with an empty line for a first line that names an interpreter. -/
def withoutInterpreter (s : List Char) : List Char :=
  if startsWith ['#', '!'] s then s.dropWhile (· != '\n') else s

theorem exists_textLike_cons (s : List Char) (rest : List (List Char)) :
    ∃ tail, (tail = [] ∨ ∃ r, tail = '\n' :: r) ∧
      ∀ first, textLike s (first :: rest) = first ++ tail := by
  unfold textLike
  cases rest with
  | nil =>
    by_cases he : s.getLast? = some '\n'
    · exact ⟨['\n'], .inr ⟨[], rfl⟩, fun first => by
        rw [if_pos he, List.intercalate_singleton]⟩
    · exact ⟨[], .inl rfl, fun first => by
        rw [if_neg he, List.intercalate_singleton, List.append_nil]⟩
  | cons next rest =>
    by_cases he : s.getLast? = some '\n'
    · refine ⟨'\n' :: (['\n'].intercalate (next :: rest) ++ ['\n']), .inr ⟨_, rfl⟩, fun first => ?_⟩
      rw [if_pos he, intercalate_cons (List.cons_ne_nil next rest), List.append_assoc,
        List.cons_append]
    · refine ⟨'\n' :: ['\n'].intercalate (next :: rest), .inr ⟨_, rfl⟩, fun first => ?_⟩
      rw [if_neg he, intercalate_cons (List.cons_ne_nil next rest)]

theorem startsWith_interpreter_append {first tail : List Char}
    (ht : tail = [] ∨ ∃ r, tail = '\n' :: r) :
    startsWith ['#', '!'] (first ++ tail) = startsWith ['#', '!'] first := by
  match first with
  | [] => rcases ht with rfl | ⟨r, rfl⟩ <;> rfl
  | [c] => rcases ht with rfl | ⟨r, rfl⟩ <;> simp [startsWith, List.isPrefixOf_cons_cons]
  | c :: d :: r => simp [startsWith, List.isPrefixOf_cons_cons]

theorem textLike_dropInterpreter {s : List Char} {ls : List (List Char)}
    (h : ∀ line ∈ ls, '\n' ∉ line) :
    textLike s (dropInterpreter ls) = withoutInterpreter (textLike s ls) := by
  cases ls with
  | nil =>
    unfold textLike
    split <;> rfl
  | cons first rest =>
    obtain ⟨tail, ht, hall⟩ := exists_textLike_cons s rest
    have hfirst : '\n' ∉ first := h first List.mem_cons_self
    rw [dropInterpreter, hall, hall, withoutInterpreter, startsWith_interpreter_append ht]
    split
    · have hplain : ∀ c ∈ first, (c != '\n') = true := fun c hc => by
        simpa using fun he : c = '\n' => hfirst (he ▸ hc)
      rw [List.dropWhile_append_of_pos hplain]
      rcases ht with rfl | ⟨r, rfl⟩ <;> rfl
    · rfl

theorem joinLists_eq_self {ls : List (List Char)} (h : ∀ line ∈ ls, beginsStatement line = false) :
    joinLists ls = ls := by
  rw [joinLists]
  induction ls with
  | nil => rfl
  | cons line rest ih =>
    obtain ⟨hline, hrest⟩ := List.forall_mem_cons.mp h
    have hopen : ¬isOpenList line = true := fun ho => by
      rw [beginsStatement_of_isOpenList ho] at hline
      cases hline
    rw [joinListsFrom, if_neg hopen, ih hrest]

theorem emitLines_eq_self {ls : List (List Char)} (h : ∀ line ∈ ls, beginsStatement line = false)
    (p : Progress) : emitLines p ls = (ls, p) := by
  induction ls with
  | nil => rfl
  | cons line rest ih =>
    obtain ⟨hline, hrest⟩ := List.forall_mem_cons.mp h
    rw [emitLines, emitLine_of_not_beginsStatement p hline]
    dsimp only
    rw [ih hrest]

theorem toList_transpile_of_no_statement {source : String}
    (h : ∀ line ∈ lines source.toList, beginsStatement line = false) :
    (transpile source).toList = withoutInterpreter (plainFeeds source.toList) := by
  have hlines : transpileLines (lines source.toList) = dropInterpreter (lines source.toList) := by
    rw [transpileLines, joinLists_eq_self h, emitLines_eq_self h]
    rfl
  rw [toList_transpile, hlines, textLike_dropInterpreter fun line hm => notMem_of_mem_lines hm,
    textLike_lines]

/-- A text is transpiled line by line. The number of line feeds stays. Lines that go on with a list
become empty. Lines that begin no statement stay as they are, but for a first line that names an
interpreter, which becomes empty, and for the one line that takes the header in, where something is
exported. So a text without statements only loses the carriage returns at its line ends and the name
of an interpreter. -/
theorem transpile_keeps_lines (source : String) :
    (transpile source).toList.count '\n' = source.toList.count '\n' ∧
    let ls := lines source.toList
    let header := (headerText (progressOf ls).getters).toList
    (∃ receiver : Option Nat, receiver.isSome = (progressOf ls).hasExports ∧
      (∀ k ∈ receiver, k < ls.length ∧ ¬ContinuesList ls k) ∧
      ∀ i line, ls[i]? = some line → ∃ text, ((transpile source).toList.splitOn '\n')[i]? = some text ∧
        (ContinuesList ls i → text = []) ∧
        (¬ContinuesList ls i → beginsStatement line = false →
          if receiver = some i then Receives header (scriptLine i line) text
          else text = scriptLine i line)) ∧
    ((∀ line ∈ ls, beginsStatement line = false) →
      (transpile source).toList = withoutInterpreter (plainFeeds source.toList)) := by
  have hls : ∀ line ∈ lines source.toList, '\n' ∉ line := fun line hm => notMem_of_mem_lines hm
  obtain ⟨hlen, hplain⟩ := transpileLines_plain hls
  obtain ⟨receiver, hsome, hreceiver, hall⟩ := exists_header_receiver (lines source.toList)
  obtain ⟨rest, hsplit, -⟩ := splitOn_textLike hlen hplain
  refine ⟨?_, ⟨receiver, hsome, hreceiver, fun i line hl => ?_⟩, toList_transpile_of_no_statement⟩
  · rw [toList_transpile]
    exact count_textLike hlen hplain
  · obtain ⟨text, ht, h⟩ := hall i line hl
    refine ⟨text, ?_, h⟩
    rw [toList_transpile, hsplit, List.getElem?_append_left (List.getElem?_eq_some_iff.mp ht).1]
    exact ht

end ModuleLoader.Transpile
