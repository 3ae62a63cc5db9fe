import Mathlib.Order.Bounds.Basic
import ModuleLoader.Proofs.Text.Bytes
import ModuleLoader.Proofs.Transpile.Closed

/-! Cuts at separators outside of brackets and literals. The pieces that a text is cut into give the
text back, the places between them are all separators behind text that leaves nothing open, and the
byte offsets of these places fall between characters. -/

namespace ModuleLoader.Transpile

open Nesting Text

variable {n : Nesting} {sep c : Char} {s front rest : List Char}

/-! ## Pieces -/

/-- The texts on both sides of a place between two pieces. -/
def IsCut (sep : Char) (pieces : List (List Char)) (front rest : List Char) : Prop :=
  ∃ before after, before ≠ [] ∧ after ≠ [] ∧ pieces = before ++ after ∧
    front = [sep].intercalate before ∧ rest = [sep].intercalate after

theorem isCut_nil_cons {pieces : List (List Char)} (h : pieces ≠ []) :
    IsCut sep ([] :: pieces) front rest ↔ (front = [] ∧ rest = [sep].intercalate pieces) ∨
      ∃ front', front = sep :: front' ∧ IsCut sep pieces front' rest := by
  constructor
  · rintro ⟨before, after, hb, ha, he, rfl, rfl⟩
    cases before with
    | nil => exact absurd rfl hb
    | cons first before =>
      obtain ⟨rfl, rfl⟩ := List.cons.inj he
      by_cases hn : before = []
      · subst hn
        exact .inl ⟨rfl, rfl⟩
      · exact .inr ⟨_, intercalate_cons hn [], before, after, hn, ha, rfl, rfl, rfl⟩
  · rintro (⟨rfl, rfl⟩ | ⟨front', rfl, before, after, hb, ha, rfl, rfl, rfl⟩)
    · exact ⟨[[]], pieces, by simp, h, rfl, rfl, rfl⟩
    · exact ⟨[] :: before, after, by simp, ha, rfl, (intercalate_cons hb []).symm, rfl⟩

theorem isCut_cons_cons {piece : List Char} {pieces : List (List Char)} :
    IsCut sep ((c :: piece) :: pieces) front rest ↔
      ∃ front', front = c :: front' ∧ IsCut sep (piece :: pieces) front' rest := by
  constructor
  · rintro ⟨before, after, hb, ha, he, rfl, rfl⟩
    cases before with
    | nil => exact absurd rfl hb
    | cons first before =>
      obtain ⟨rfl, rfl⟩ := List.cons.inj he
      exact ⟨_, List.intercalate_cons_cons_left, piece :: before, after, by simp, ha, rfl,
        rfl, rfl⟩
  · rintro ⟨front', rfl, before, after, hb, ha, he, rfl, rfl⟩
    cases before with
    | nil => exact absurd rfl hb
    | cons first before =>
      obtain ⟨rfl, rfl⟩ := List.cons.inj he
      exact ⟨(c :: piece) :: before, after, by simp, ha, rfl,
        List.intercalate_cons_cons_left.symm, rfl⟩

/-- The pieces of a text are cut apart just where a separator is at the top. By induction on the text,
for any nesting that it may start at. -/
theorem isCut_splitTopFrom_iff : IsCut sep (splitTopFrom sep n s) front rest ↔
    s = front ++ sep :: rest ∧ (n.run front).isTop sep = true := by
  induction s generalizing n front with
  | nil =>
    constructor
    · rintro ⟨before, after, hb, ha, he, -, -⟩
      have hlength := congrArg List.length he
      have hb' := List.length_pos_of_ne_nil hb
      have ha' := List.length_pos_of_ne_nil ha
      simp only [splitTopFrom, List.length_append, List.length_singleton] at hlength
      omega
    · rintro ⟨he, -⟩
      simp at he
  | cons c r ih =>
    by_cases h : n.isTop c = true ∧ c = sep
    · obtain ⟨htop, rfl⟩ := h
      rw [splitTopFrom_cut htop, isCut_nil_cons (splitTopFrom_ne_nil _ _ r), intercalate_splitTopFrom]
      constructor
      · rintro (⟨rfl, rfl⟩ | ⟨front', rfl, hcut⟩)
        · exact ⟨rfl, htop⟩
        · obtain ⟨rfl, ht⟩ := ih.mp hcut
          exact ⟨rfl, ht⟩
      · rintro ⟨he, ht⟩
        cases front with
        | nil =>
          obtain ⟨-, rfl⟩ := List.cons.inj he
          exact .inl ⟨rfl, rfl⟩
        | cons d front =>
          obtain ⟨rfl, hr⟩ := List.cons.inj he
          exact .inr ⟨front, rfl, ih.mpr ⟨hr, ht⟩⟩
    · obtain ⟨piece, pieces, hp, hs⟩ := exists_splitTopFrom_cons (not_and.mp h) r
      rw [hs, isCut_cons_cons, ← hp]
      constructor
      · rintro ⟨front', rfl, hcut⟩
        obtain ⟨rfl, ht⟩ := ih.mp hcut
        exact ⟨rfl, ht⟩
      · rintro ⟨he, ht⟩
        cases front with
        | nil =>
          obtain ⟨rfl, -⟩ := List.cons.inj he
          exact absurd ⟨ht, rfl⟩ h
        | cons d front =>
          obtain ⟨rfl, hr⟩ := List.cons.inj he
          exact ⟨front, rfl, ih.mpr ⟨hr, ht⟩⟩

/-! ## The first place -/

/-- Whether a character of an operator stands right behind an `=` or right before it. -/
def InOperator (front rest : List Char) : Prop :=
  (∃ c ∈ ['=', '>'], rest.head? = some c) ∨ ∃ c ∈ ['=', '!', '<', '>'], front.getLast? = some c

/-- Whether a text is cut at `ch` into these two. An `=` of a longer operator is no place to cut. -/
def IsPlace (ch : Char) (s front rest : List Char) : Prop :=
  s = front ++ ch :: rest ∧ Closed front ∧ (ch = '=' → ¬InOperator front rest)

theorem isOperatorPart_iff :
    isOperatorPart front.getLast? rest.head? = true ↔ InOperator front rest := by
  simp [isOperatorPart, InOperator, or_assoc]

/-- A place for a text that starts at a nesting and behind a character. -/
def IsPlaceFrom (ch : Char) (n : Nesting) (before : Option Char) (s front rest : List Char) : Prop :=
  s = front ++ ch :: rest ∧ (n.run front).isTop ch = true ∧
    (ch = '=' → isOperatorPart (front.getLast?.or before) rest.head? = false)

theorem isPlaceFrom_start (hm : isMark c = false) :
    IsPlaceFrom c .start none s front rest ↔ IsPlace c s front rest := by
  rw [IsPlaceFrom, IsPlace, isTop_run_iff hm, Option.or_none, ← isOperatorPart_iff,
    Bool.not_eq_true]

section

variable {ch : Char} {before : Option Char}

theorem isPlaceFrom_nil_iff {r : List Char} : IsPlaceFrom ch n before (c :: r) [] rest ↔
    rest = r ∧ (n.isTop c && c == ch && !(ch == '=' && isOperatorPart before r.head?)) = true := by
  have htest : (n.isTop c && c == ch && !(ch == '=' && isOperatorPart before r.head?)) = true ↔
      n.isTop c = true ∧ c = ch ∧ (ch = '=' → isOperatorPart before r.head? = false) := by
    simp [and_assoc, imp_iff_not_or]
  rw [htest]
  constructor
  · rintro ⟨he, ht, ho⟩
    obtain ⟨rfl, rfl⟩ := List.cons.inj he
    exact ⟨rfl, ht, rfl, ho⟩
  · rintro ⟨rfl, ht, rfl, ho⟩
    exact ⟨rfl, ht, ho⟩

theorem isPlaceFrom_cons_iff {d : Char} {r : List Char} :
    IsPlaceFrom ch n before (c :: r) (d :: front) rest ↔
      d = c ∧ IsPlaceFrom ch (n.next c) (some c) r front rest := by
  have hlast : (c :: front).getLast?.or before = front.getLast?.or (some c) := by
    cases hl : front.getLast? <;> simp [List.getLast?_cons, hl]
  constructor
  · rintro ⟨he, ht, ho⟩
    obtain ⟨rfl, hr⟩ := List.cons.inj he
    exact ⟨rfl, hr, ht, hlast ▸ ho⟩
  · rintro ⟨rfl, rfl, ht, ho⟩
    exact ⟨rfl, ht, hlast ▸ ho⟩

/-- The scan ends at the first place of all. -/
theorem cutTopFrom?_spec (h : cutTopFrom? ch n before s = some (front, rest)) :
    IsPlaceFrom ch n before s front rest ∧
      ∀ front' rest', IsPlaceFrom ch n before s front' rest' → front <+: front' := by
  induction s generalizing n before front with
  | nil => cases h
  | cons c r ih =>
    rw [cutTopFrom?] at h
    split at h
    · next htest =>
      obtain ⟨rfl, rfl⟩ : [] = front ∧ r = rest := by simpa using h
      exact ⟨isPlaceFrom_nil_iff.mpr ⟨rfl, htest⟩, fun front' _ _ => List.nil_prefix⟩
    · next htest =>
      obtain ⟨⟨front, rest'⟩, hcut, he⟩ := Option.map_eq_some_iff.mp h
      obtain ⟨rfl, rfl⟩ := Prod.mk.inj he
      obtain ⟨hplace, hfirst⟩ := ih hcut
      refine ⟨isPlaceFrom_cons_iff.mpr ⟨rfl, hplace⟩, fun front' rest' h' => ?_⟩
      cases front' with
      | nil => exact absurd (isPlaceFrom_nil_iff.mp h').2 htest
      | cons d front' =>
        obtain ⟨rfl, h'⟩ := isPlaceFrom_cons_iff.mp h'
        exact List.cons_prefix_cons.mpr ⟨rfl, hfirst front' rest' h'⟩

theorem not_isPlaceFrom_of_none (h : cutTopFrom? ch n before s = none) :
    ¬IsPlaceFrom ch n before s front rest := by
  induction s generalizing n before front with
  | nil =>
    rintro ⟨he, -⟩
    simp at he
  | cons c r ih =>
    rw [cutTopFrom?] at h
    split at h
    · cases h
    · next htest =>
      have hnone := Option.map_eq_none_iff.mp h
      intro hplace
      cases front with
      | nil => exact htest (isPlaceFrom_nil_iff.mp hplace).2
      | cons d front => exact ih hnone (isPlaceFrom_cons_iff.mp hplace).2

end

/-! ## Byte offsets -/

/-- Whether a byte of an operator stands right behind the one at an offset or right before it. -/
def isOperatorAt (text : List Char) (pos : Nat) : Bool :=
  let after := byteAt? text (pos + 1)
  let before := byteBefore? text pos
  after == some '='.toUInt8 || after == some '>'.toUInt8 ||
    before == some '='.toUInt8 || before == some '!'.toUInt8 ||
    before == some '<'.toUInt8 || before == some '>'.toUInt8

/-- The pieces of a text, each cut out between the offsets of two separators. The scan stands at
`pos`, and the piece that it is in begins at `start`. There are no pieces if a cut cannot be made. -/
def splitFromOffsets? (sep : Char) (text : List Char) :
    Nesting → Nat → Nat → List Char → Option (List (List Char))
  | _, start, _, [] => (slice? start (byteLength text) text).map fun piece => [piece]
  | n, start, pos, c :: r =>
    if n.isTop c && c == sep then do
      let piece ← slice? start pos text
      let pieces ← splitFromOffsets? sep text (n.next c) (pos + c.utf8Size) (pos + c.utf8Size) r
      return piece :: pieces
    else splitFromOffsets? sep text (n.next c) start (pos + c.utf8Size) r

def splitByOffsets? (sep : Char) (s : List Char) : Option (List (List Char)) :=
  splitFromOffsets? sep s .start 0 0 s

/-- The offset of the first `ch` at the top. Operators are told by the bytes beside an `=`. -/
def offsetFrom? (ch : Char) (text : List Char) : Nesting → Nat → List Char → Option Nat
  | _, _, [] => none
  | n, pos, c :: r =>
    if n.isTop c && c == ch && !(ch == '=' && isOperatorAt text pos) then some pos
    else offsetFrom? ch text (n.next c) (pos + c.utf8Size) r

def offset? (ch : Char) (s : List Char) : Option Nat := offsetFrom? ch s .start 0 s

variable {text : List Char} {pos start : Nat}

/-- Cut by offsets, the pieces are those of the scan without offsets, with what it has passed already
in front of the first one. -/
theorem splitFromOffsets?_eq (begun : List Char) (hstart : At text start (begun ++ s))
    (hpos : At text pos s) {piece : List Char} {pieces : List (List Char)}
    (h : splitTopFrom sep n s = piece :: pieces) :
    splitFromOffsets? sep text n start pos s = some ((begun ++ piece) :: pieces) := by
  induction s generalizing n start pos begun piece pieces with
  | nil =>
    obtain ⟨rfl, rfl⟩ := List.cons.inj h
    have hslice : slice? start (byteLength text) text = some begun :=
      hstart.slice?_eq ⟨text, by simp, rfl⟩
    rw [splitFromOffsets?, hslice, List.append_nil, Option.map_some]
  | cons c r ih =>
    by_cases hc : n.isTop c = true ∧ c = sep
    · obtain ⟨htop, rfl⟩ := hc
      rw [splitTopFrom_cut htop] at h
      obtain ⟨rfl, rfl⟩ := List.cons.inj h
      obtain ⟨next, more, hnext⟩ := List.exists_cons_of_ne_nil (splitTopFrom_ne_nil c (n.next c) r)
      have hslice : slice? start pos text = some begun := hstart.slice?_eq hpos
      have hrest := ih [] hpos.pass hpos.pass hnext
      simp [splitFromOffsets?, htop, hslice, hrest, hnext]
    · obtain ⟨piece', pieces', hp, hs⟩ := exists_splitTopFrom_cons (not_and.mp hc) r
      rw [hs] at h
      obtain ⟨rfl, rfl⟩ := List.cons.inj h
      have hno : ¬(n.isTop c && c == sep) = true := by simpa using hc
      have hstart' : At text start ((begun ++ [c]) ++ r) := by simpa using hstart
      rw [splitFromOffsets?, if_neg hno, ih _ hstart' hpos.pass hp]
      simp

theorem splitByOffsets?_eq (sep : Char) (s : List Char) :
    splitByOffsets? sep s = some (splitTop sep s) := by
  obtain ⟨piece, pieces, hp⟩ := List.exists_cons_of_ne_nil (splitTopFrom_ne_nil sep .start s)
  rw [splitByOffsets?, splitFromOffsets?_eq [] (at_zero s) (at_zero s) hp, splitTop, hp]
  rfl

theorem isOperatorAt_eq : isOperatorAt (front ++ '=' :: rest) (byteLength front) =
    isOperatorPart front.getLast? rest.head? := by
  have hat : At (front ++ '=' :: rest) (byteLength front + 1) rest :=
    At.step ⟨front, rfl, rfl⟩ (by decide)
  rw [Bool.eq_iff_iff]
  simp only [isOperatorAt, isOperatorPart, Bool.or_eq_true, beq_iff_eq]
  rw [hat.byteAt?_eq_some_iff (by decide), hat.byteAt?_eq_some_iff (by decide),
    byteBefore?_eq_some_iff (by decide), byteBefore?_eq_some_iff (by decide),
    byteBefore?_eq_some_iff (by decide), byteBefore?_eq_some_iff (by decide)]

theorem offsetFrom?_eq (ch : Char) (before : List Char) (h : text = before ++ s) :
    offsetFrom? ch text n (byteLength before) s =
      (cutTopFrom? ch n before.getLast? s).map fun cut => byteLength before + byteLength cut.1 := by
  induction s generalizing n before with
  | nil => rfl
  | cons c r ih =>
    have htest : (n.isTop c && c == ch && !(ch == '=' && isOperatorAt text (byteLength before))) =
        (n.isTop c && c == ch && !(ch == '=' && isOperatorPart before.getLast? r.head?)) := by
      by_cases hc : c = ch
      · subst hc
        by_cases he : c = '='
        · subst he
          rw [h, isOperatorAt_eq]
        · have hbeq : (c == '=') = false := by simpa using he
          simp [hbeq]
      · have hbeq : (c == ch) = false := by simpa using hc
        simp [hbeq]
    rw [offsetFrom?, cutTopFrom?, htest]
    split
    · simp
    · have hrest := ih (n := n.next c) (before ++ [c]) (by simp [h])
      rw [byteLength_append, byteLength_cons, byteLength_nil, Nat.add_zero,
        List.getLast?_concat] at hrest
      rw [hrest, Option.map_map]
      congr 1
      funext cut
      simp [Nat.add_assoc]

theorem offset?_eq (ch : Char) (s : List Char) :
    offset? ch s = (cutTop? ch s).map fun cut => byteLength cut.1 := by
  simpa [offset?, cutTop?] using offsetFrom?_eq (n := .start) ch [] (Eq.refl s)

theorem slices_of_cutTop? {ch : Char} (h : cutTop? ch s = some (front, rest)) :
    slice? 0 (byteLength front) s = some front ∧
      slice? (byteLength front + ch.utf8Size) (byteLength s) s = some rest := by
  obtain ⟨⟨rfl, -⟩, -⟩ := cutTopFrom?_spec h
  constructor
  · exact slice?_eq_some_iff.mpr ⟨[], ch :: rest, by simp, rfl, rfl⟩
  · exact slice?_eq_some_iff.mpr ⟨front ++ [ch], [], by simp, by simp, by simp⟩

section

variable {ch : Char}

/-- The place that the scan ends at, and that it is the first one. -/
theorem cutTop?_spec (hm : isMark ch = false) (h : cutTop? ch s = some (front, rest)) :
    IsPlace ch s front rest ∧ ∀ front' rest', IsPlace ch s front' rest' → front <+: front' := by
  obtain ⟨hplace, hfirst⟩ := cutTopFrom?_spec h
  refine ⟨(isPlaceFrom_start hm).mp hplace, fun front' rest' h' => ?_⟩
  exact hfirst front' rest' ((isPlaceFrom_start hm).mpr h')

theorem offset?_eq_none_iff (hm : isMark ch = false) :
    offset? ch s = none ↔ ∀ front rest, ¬IsPlace ch s front rest := by
  rw [offset?_eq, Option.map_eq_none_iff]
  constructor
  · intro h front rest hplace
    exact not_isPlaceFrom_of_none h ((isPlaceFrom_start hm).mpr hplace)
  · intro h
    cases hcut : cutTop? ch s with
    | none => rfl
    | some cut => exact absurd (cutTop?_spec hm hcut).1 (h cut.1 cut.2)

/-- The offset that is found is the least one of a place. -/
theorem offset?_eq_some_iff (hm : isMark ch = false) :
    offset? ch s = some pos ↔
      IsLeast {p | ∃ front rest, IsPlace ch s front rest ∧ byteLength front = p} pos := by
  cases hcut : cutTop? ch s with
  | none =>
    have hnone : offset? ch s = none := by rw [offset?_eq, hcut, Option.map_none]
    constructor
    · intro h
      rw [hnone] at h
      cases h
    · rintro ⟨⟨front, rest, hplace, -⟩, -⟩
      exact absurd hplace ((offset?_eq_none_iff hm).mp hnone front rest)
  | some cut =>
    obtain ⟨front, rest⟩ := cut
    obtain ⟨hplace, hfirst⟩ := cutTop?_spec hm hcut
    have hleast : IsLeast {p | ∃ front rest, IsPlace ch s front rest ∧ byteLength front = p}
        (byteLength front) := by
      refine ⟨⟨front, rest, hplace, rfl⟩, ?_⟩
      rintro _ ⟨front', rest', hplace', rfl⟩
      obtain ⟨more, rfl⟩ := hfirst front' rest' hplace'
      rw [byteLength_append]
      exact Nat.le_add_right _ _
    rw [offset?_eq, hcut, Option.map_some, Option.some.injEq]
    constructor
    · rintro rfl
      exact hleast
    · exact hleast.unique

end

/-- The quotes and brackets. -/
def marks : List Char := ['"', '\'', '\x60', '(', '[', '\x7b', ')', ']', '\x7d']

theorem isMark_eq_false_iff : isMark c = false ↔ c ∉ marks := by
  have hgrave : c.toNat = 0x60 ↔ c = '\x60' := Char.toNat_inj (c := c) (d := '\x60')
  simp [isMark, isQuote, isOpening, isClosing, marks, hgrave, and_assoc]

/-- Where a text is cut at a separator that is neither a quote nor a bracket. The pieces joined with
the separator are the text, and the places between them are the separators behind a text that leaves
nothing open. The offset at which a separator is found is the least of those, where an `=` of a longer
operator is passed over. All cuts can be made by byte offsets, at the ends of each piece and on both
sides of a separator that is found. -/
theorem cuts_at_top {sep : Char} (hs : sep ∉ marks) (s : List Char) :
    [sep].intercalate (splitTop sep s) = s ∧
    (∀ front rest, IsCut sep (splitTop sep s) front rest ↔ s = front ++ sep :: rest ∧ Closed front) ∧
    splitByOffsets? sep s = some (splitTop sep s) ∧
    (∀ pos, offset? sep s = some pos ↔
      IsLeast {p | ∃ front rest, IsPlace sep s front rest ∧ byteLength front = p} pos) ∧
    (offset? sep s = none ↔ ∀ front rest, ¬IsPlace sep s front rest) ∧
    (∀ pos, offset? sep s = some pos → slice? 0 pos s = some (beforeTop sep s) ∧
      slice? (pos + sep.utf8Size) (byteLength s) s = some (afterTop sep s)) ∧
    (offset? sep s = none → beforeTop sep s = s ∧ afterTop sep s = s) := by
  have hm := isMark_eq_false_iff.mpr hs
  refine ⟨intercalate_splitTopFrom sep .start s, fun front rest => ?_, splitByOffsets?_eq sep s,
    fun pos => offset?_eq_some_iff hm, offset?_eq_none_iff hm, fun pos h => ?_, fun h => ?_⟩
  · rw [splitTop, isCut_splitTopFrom_iff, isTop_run_iff hm]
  · rw [offset?_eq] at h
    obtain ⟨⟨front, rest⟩, hcut, rfl⟩ := Option.map_eq_some_iff.mp h
    rw [beforeTop, afterTop, hcut]
    exact slices_of_cutTop? hcut
  · rw [offset?_eq, Option.map_eq_none_iff] at h
    rw [beforeTop, afterTop, h]
    exact ⟨rfl, rfl⟩

/-- Stray and mixed brackets, characters of several bytes, operators and a literal that is never
closed. -/
theorem cuts_at_top_unterminated :
    ',' ∉ marks ∧ '=' ∉ marks ∧
      splitByOffsets? ',' "é),(b,c],'d,e".toList =
        some ["é)".toList, "(b,c]".toList, "'d,e".toList] ∧
      Closed "é),(b,c]".toList ∧
      IsLeast {p | ∃ front rest, IsPlace '=' "(a=é)=>b==c=d".toList front rest ∧
        byteLength front = p} 12 := by
  have hcomma : ',' ∉ marks := by decide
  have hequals : '=' ∉ marks := by decide
  obtain ⟨-, hcut, hsplit, -⟩ := cuts_at_top hcomma "é),(b,c],'d,e".toList
  obtain ⟨-, -, -, hoffset, -⟩ := cuts_at_top hequals "(a=é)=>b==c=d".toList
  have hpieces : splitTop ',' "é),(b,c],'d,e".toList =
      ["é)".toList, "(b,c]".toList, "'d,e".toList] := by decide +kernel
  rw [hpieces] at hcut hsplit
  have hclosed := ((hcut "é),(b,c]".toList "'d,e".toList).mp
    ⟨["é)".toList, "(b,c]".toList], ["'d,e".toList], by simp, by simp, rfl, by decide +kernel,
      by decide +kernel⟩).2
  exact ⟨hcomma, hequals, hsplit, hclosed, (hoffset 12).mp (by decide +kernel)⟩

end ModuleLoader.Transpile
