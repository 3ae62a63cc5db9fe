import ModuleLoader.Proofs.Text.Pieces
import ModuleLoader.Proofs.Text.Slices
import ModuleLoader.Proofs.Transpile.Patterns
import ModuleLoader.Transpile.Statement

/-! Lists of names as they are written between braces, and the entries that are read from them. Each
listed binding is read with its source and its name, and the entries of types are left out. -/

namespace ModuleLoader.Transpile

open Text

/-! ## What is written -/

/-- What may stand for a name in a list: an identifier of any script, or a keyword. -/
structure Name where
  text : List Char
  ne_nil : text ≠ []
  plain : ∀ c ∈ text, isBlank c = false ∧ c ≠ ',' ∧ isNotBrace c = true ∧ isQuoteMark c = false

/-- The blanks between two words of an entry. They are spaces, unless a line ends among them. -/
structure Spacing where
  text : List Char
  ne_nil : text ≠ []
  blank : AllBlank text
  spaces : '\n' ∈ text ∨ ∀ c ∈ text, c = ' '

inductive Binding where
  | name (n : Name)
  | renamed (source : Name) (before after : Spacing) (asName : Name)

inductive Item where
  | binding (b : Binding)
  | typeOnly (gap : Spacing) (b : Binding)

/-- What stands between two commas of a list. Nothing may stand behind the last one. -/
inductive Piece where
  | item (m : Margins) (i : Item)
  | empty (gap : List Char) (h : AllBlank gap)

def Binding.text : Binding → List Char
  | .name n => n.text
  | .renamed source before after asName =>
    source.text ++ (before.text ++ ('a' :: 's' :: (after.text ++ asName.text)))

def Item.text : Item → List Char
  | .binding b => b.text
  | .typeOnly gap b => "type".toList ++ (gap.text ++ b.text)

def Piece.text : Piece → List Char
  | .item m i => m.around i.text
  | .empty gap _ => gap

def listText (pieces : List Piece) : List Char := [','].intercalate (pieces.map Piece.text)

theorem listText_singleton (p : Piece) : listText [p] = p.text := List.intercalate_singleton

theorem listText_cons {pieces : List Piece} (h : pieces ≠ []) (p : Piece) :
    listText (p :: pieces) = p.text ++ ',' :: listText pieces :=
  intercalate_cons (by simpa using h) p.text

/-! ## What is read -/

def Name.toString (n : Name) : String := String.ofList n.text

def Binding.entry : Binding → ListEntry
  | .name n => ⟨n.toString, n.toString⟩
  | .renamed source _ _ asName => ⟨source.toString, asName.toString⟩

/-- Whether a binding begins with the word that entries of types begin with. -/
def Binding.renamesType : Binding → Bool
  | .name _ => false
  | .renamed source _ _ _ => source.text == "type".toList

def Item.kept? : Item → Option ListEntry
  | .binding b => if b.renamesType then none else some b.entry
  | .typeOnly _ _ => none

def Piece.kept? : Piece → Option ListEntry
  | .item _ i => i.kept?
  | .empty _ _ => none

section

variable {s t : List Char}

theorem Name.forall_ne (n : Name) {d : Char} (hd : isBlank d = true) : d ∉ n.text := by
  intro hm
  have hb := (n.plain d hm).1
  simp [hd] at hb

theorem Name.solid (n : Name) : Solid n.text := solid_of_forall n.ne_nil fun c hc => (n.plain c hc).1

theorem Spacing.eq_replicate (gap : Spacing) (h : '\n' ∉ gap.text) :
    ∃ n, gap.text = List.replicate n ' ' ++ [' '] := by
  have hall : ∀ c ∈ gap.text, c = ' ' := gap.spaces.resolve_left h
  obtain ⟨n, hn⟩ := Nat.exists_eq_add_one_of_ne_zero (List.length_pos_iff.mpr gap.ne_nil).ne'
  refine ⟨n, ?_⟩
  rw [List.eq_replicate_of_mem hall, hn, List.replicate_succ']

theorem Spacing.eq_cons (gap : Spacing) (h : '\n' ∉ gap.text) :
    ∃ n, gap.text = ' ' :: List.replicate n ' ' := by
  obtain ⟨n, hn⟩ := gap.eq_replicate h
  exact ⟨n, by rw [hn, ← List.replicate_succ', List.replicate_succ]⟩

theorem Binding.solid (b : Binding) : Solid b.text := by
  cases b with
  | name n => exact n.solid
  | renamed source before after asName =>
    have h := source.solid.between asName.solid (before.text ++ ('a' :: 's' :: after.text))
    simpa [Binding.text] using h

theorem Item.solid (i : Item) : Solid i.text := by
  cases i with
  | binding b => exact b.solid
  | typeOnly gap b =>
    have h : Solid "type".toList := solid_of_forall (by decide) (by decide)
    exact h.between b.solid gap.text

/-! ## Words and commas -/

/-- A space and a word are found behind a text without spaces and the spaces that go before. -/
theorem cutAt?_word {c : Char} {word rest : List Char} (hc : c ≠ ' ') (hs : ' ' ∉ s) (n : Nat) :
    cutAt? (' ' :: c :: word) (s ++ (List.replicate n ' ' ++ ' ' :: c :: (word ++ rest))) =
      some (s ++ List.replicate n ' ', rest) := by
  induction s with
  | nil =>
    induction n with
    | zero =>
      have hlead : after? (' ' :: c :: word) (' ' :: c :: (word ++ rest)) = some rest :=
        after?_eq_some_iff.mpr (by simp)
      simp [cutAt?, hlead]
    | succ n ih =>
      have hlead : after? (' ' :: c :: word)
          (' ' :: (List.replicate n ' ' ++ ' ' :: c :: (word ++ rest))) = none := by
        cases n <;> simp [after?_cons, List.replicate_succ, hc]
      simp only [List.nil_append] at ih ⊢
      simp [List.replicate_succ, cutAt?, hlead, ih]
  | cons d s ih =>
    have hd : ' ' ≠ d := fun he => hs (he ▸ List.mem_cons_self)
    have hlead (r : List Char) : after? (' ' :: c :: word) (d :: r) = none := by simp [after?_cons, hd]
    simp [cutAt?, hlead, ih fun hm => hs (List.mem_cons_of_mem d hm)]

/-- A word and the space behind it are found where another word and a space are only if it is this
word. -/
theorem startsWith_word_iff {word : List Char} (hw : ' ' ∉ word) (hs : ' ' ∉ s) (t : List Char) :
    startsWith (word ++ [' ']) (s ++ ' ' :: t) = true ↔ s = word := by
  rw [startsWith_iff]
  constructor
  · rintro ⟨rest, he⟩
    have hfront := congrArg (List.takeWhile (· != ' ')) he
    have hplain {u : List Char} (hu : ' ' ∉ u) : ∀ c ∈ u, (c != ' ') = true := fun c hc => by
      simpa using fun h : c = ' ' => hu (h ▸ hc)
    rw [List.append_assoc, List.takeWhile_append_of_pos (hplain hw),
      List.takeWhile_append_of_pos (hplain hs)] at hfront
    simpa using hfront.symm
  · rintro rfl
    exact ⟨t, by simp⟩

theorem startsWith_eq_false_of_notMem (word : List Char) (hs : ' ' ∉ s) :
    startsWith (word ++ [' ']) s = false := by
  rw [Bool.eq_false_iff, Ne, startsWith_iff]
  rintro ⟨rest, rfl⟩
  simp at hs

theorem Name.notMem_space (n : Name) : ' ' ∉ n.text := n.forall_ne (by decide)

/-- On one line, an entry is read as what it is written for. -/
theorem Binding.listEntry_text (b : Binding) (h : '\n' ∉ b.text) : listEntry b.text = b.entry := by
  cases b with
  | name n =>
    have hcut : cutAt? " as ".toList n.text = none := cutAt?_eq_none n.notMem_space
    rw [listEntry, Binding.text, hcut]
    rfl
  | renamed source before after asName =>
    simp only [Binding.text, List.mem_append, List.mem_cons, not_or] at h
    obtain ⟨n, hn⟩ := before.eq_replicate h.2.1
    obtain ⟨k, hk⟩ := after.eq_cons h.2.2.2.2.1
    have htext : (Binding.renamed source before after asName).text =
        source.text ++ (List.replicate n ' ' ++ ' ' :: 'a' ::
          (['s', ' '] ++ (List.replicate k ' ' ++ asName.text))) := by
      simp [Binding.text, hn, hk]
    have hcut : cutAt? " as ".toList (Binding.renamed source before after asName).text =
        some (source.text ++ List.replicate n ' ', List.replicate k ' ' ++ asName.text) := by
      rw [htext]
      exact cutAt?_word (by decide) source.notMem_space n
    have hblank (n : Nat) : AllBlank (List.replicate n ' ') := fun c hc => by
      rw [List.eq_of_mem_replicate hc]
      decide
    have hsource : trim (source.text ++ List.replicate n ' ') = source.text :=
      source.solid.trim_between .nil (hblank n)
    have hasName : trim (List.replicate k ' ' ++ asName.text) = asName.text := by
      simpa using asName.solid.trim_between (hblank k) .nil
    rw [listEntry, hcut]
    dsimp only
    rw [hsource, hasName]
    rfl

/-- On one line, the entries that are left out are those of types and those that begin as they do. -/
theorem Item.read_text (i : Item) (h : '\n' ∉ i.text) :
    (if startsWith "type ".toList i.text then none else some (listEntry i.text)) = i.kept? := by
  have hword : ' ' ∉ "type".toList := by decide
  cases i with
  | binding b =>
    have hentry := b.listEntry_text h
    rw [Item.text, hentry, Item.kept?]
    cases b with
    | name n =>
      have hno : startsWith "type ".toList n.text = false :=
        startsWith_eq_false_of_notMem "type".toList n.notMem_space
      rw [Binding.text, hno]
      rfl
    | renamed source before after asName =>
      simp only [Item.text, Binding.text, List.mem_append, not_or] at h
      obtain ⟨n, hn⟩ := before.eq_cons h.2.1
      have htype : startsWith "type ".toList (Binding.renamed source before after asName).text =
          (source.text == "type".toList) := by
        rw [Bool.eq_iff_iff, beq_iff_eq, Binding.text, hn]
        exact startsWith_word_iff hword source.notMem_space _
      rw [htype]
      rfl
  | typeOnly gap b =>
    simp only [Item.text, List.mem_append, not_or] at h
    obtain ⟨n, hn⟩ := gap.eq_cons h.2.1
    have htype : startsWith "type ".toList (Item.typeOnly gap b).text = true := by
      rw [Item.text, hn]
      exact (startsWith_word_iff hword hword _).mpr rfl
    rw [if_pos htype]
    rfl

/-! ## Lists -/

theorem Item.notMem_comma (i : Item) : ',' ∉ i.text := by
  have hgap (gap : Spacing) : ',' ∉ gap.text := fun hm => absurd (gap.blank ',' hm) (by decide)
  have hname (n : Name) : ',' ∉ n.text := fun hm => (n.plain ',' hm).2.1 rfl
  have hbinding (b : Binding) : ',' ∉ b.text := by
    cases b <;> simp [Binding.text, hgap, hname]
  cases i <;> simp [Item.text, hgap, hbinding]

theorem Piece.notMem_comma (p : Piece) : ',' ∉ p.text := by
  have hblank {gap : List Char} (h : AllBlank gap) : ',' ∉ gap := fun hm =>
    absurd (h ',' hm) (by decide)
  cases p with
  | item m i => simp [Piece.text, Margins.around, hblank m.blankBefore, hblank m.blankAfter, i.notMem_comma]
  | empty gap h => exact hblank h

theorem notMem_listText_iff {pieces : List Piece} :
    '\n' ∉ listText pieces ↔ ∀ p ∈ pieces, '\n' ∉ p.text := by
  constructor
  · exact fun h p hp hm => h ((infix_intercalate _ (List.mem_map_of_mem hp)).subset hm)
  · intro h hm
    rcases mem_intercalate hm with hc | ⟨t, ht, hm⟩
    · exact absurd hc (by decide)
    · obtain ⟨p, hp, rfl⟩ := List.mem_map.mp ht
      exact h p hp hm

/-- What is read from a piece of a list. -/
def read? (piece : List Char) : Option ListEntry :=
  let entry := trim piece
  if entry.isEmpty || startsWith "type ".toList entry then none else some (listEntry entry)

theorem listEntries_eq (list : List Char) :
    listEntries list = (list.splitOn ',').filterMap read? := by
  rw [listEntries, List.filter_map, List.map_map]
  generalize list.splitOn ',' = pieces
  induction pieces with
  | nil => rfl
  | cons piece rest ih =>
    have hkeep : ((fun entry => !entry.isEmpty && !startsWith "type ".toList entry) ∘ trim) piece =
        !((trim piece).isEmpty || startsWith "type ".toList (trim piece)) := (Bool.not_or _ _).symm
    rw [List.filterMap_cons, read?, ← ih]
    cases hskip : (trim piece).isEmpty || startsWith "type ".toList (trim piece) with
    | true =>
      rw [hskip] at hkeep
      rw [List.filter_cons_of_neg (Bool.eq_false_iff.mp hkeep)]
      rfl
    | false =>
      rw [hskip] at hkeep
      rw [List.filter_cons_of_pos hkeep]
      rfl

theorem Piece.read_text (p : Piece) (h : '\n' ∉ p.text) : read? p.text = p.kept? := by
  cases p with
  | item m i =>
    simp only [Piece.text, Margins.around, List.mem_append, not_or] at h
    have htrim : trim (m.around i.text) = i.text := i.solid.trim_between m.blankBefore m.blankAfter
    have hne : i.text.isEmpty = false := by
      obtain ⟨c, r, hs, -⟩ := i.solid.starts
      simp [hs]
    rw [Piece.text, read?, htrim, hne, Bool.false_or, i.read_text h.2.1]
    rfl
  | empty gap hb =>
    rw [Piece.text, read?, trim_eq_nil_iff.mpr hb]
    rfl

/-- A list on one line is read piece by piece. -/
theorem listEntries_listText (pieces : List Piece) (h : '\n' ∉ listText pieces) :
    listEntries (listText pieces) = pieces.filterMap Piece.kept? := by
  by_cases hne : pieces = []
  · simp [hne, listText, listEntries_eq, read?, trim, trimEnd]
  · have hcomma : ∀ t ∈ pieces.map Piece.text, ',' ∉ t :=
      List.forall_mem_map.mpr fun p _ => p.notMem_comma
    have hread : ∀ p ∈ pieces, read? p.text = p.kept? := fun p hp =>
      p.read_text (notMem_listText_iff.mp h p hp)
    rw [listEntries_eq, listText, List.splitOn_intercalate _ hcomma (by simpa using hne),
      List.filterMap_map]
    exact List.filterMap_congr hread

end

end ModuleLoader.Transpile
