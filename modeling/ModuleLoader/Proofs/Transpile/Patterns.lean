import ModuleLoader.Proofs.Text.Pieces
import ModuleLoader.Proofs.Text.Trim
import ModuleLoader.Proofs.Text.Words
import ModuleLoader.Proofs.Transpile.Nesting
import ModuleLoader.Transpile.Binding

/-! Binding patterns as trees, the text they are written in, and the names they bind. The names found
in the text of declarators are those of their patterns. -/

namespace ModuleLoader.Transpile

open Text Nesting

/-! ## Patterns -/

structure Identifier where
  text : List Char
  valid : isAsciiName text = true

/-- The blanks on both sides of something. -/
structure Margins where
  before : List Char
  after : List Char
  blankBefore : AllBlank before
  blankAfter : AllBlank after

/-- The value of a default or an initializer. -/
structure Expression where
  text : List Char
  balanced : Balanced (· ≠ ',') text

/-- A character that is none of the separators in patterns. -/
def Plain (c : Char) : Prop := c ≠ ',' ∧ c ≠ ':' ∧ c ≠ '='

inductive Key where
  /-- An identifier of any script, or a number. -/
  | word (text : List Char) (hne : text ≠ [])
    (h : ∀ c ∈ text, isBlank c = false ∧ isMark c = false ∧ Plain c)
  | literal (q : Char) (body : List Char) (hq : isQuote q = true) (hb : LiteralBody q body)
  | computed (text : List Char) (h : Balanced (fun _ => True) text)

mutual

inductive Pattern where
  | name (identifier : Identifier)
  | object (properties : Properties)
  | array (elements : Elements)

/-- What an object pattern has between its commas. No blank follows the dots of a rest. -/
inductive Properties where
  | nil
  | shorthand (margins : Margins) (identifier : Identifier) (value : Option Expression)
    (more : Properties)
  | keyed (outer : Margins) (key : Key) (inner : Margins) (target : Pattern)
    (value : Option Expression) (more : Properties)
  | rest (margins : Margins) (target : Pattern) (more : Properties)

/-- What an array pattern has between its commas. -/
inductive Elements where
  | nil
  | hole (margins : Margins) (more : Elements)
  | item (margins : Margins) (target : Pattern) (value : Option Expression) (more : Elements)
  | rest (margins : Margins) (target : Pattern) (more : Elements)

end

structure Declarator where
  margins : Margins
  pattern : Pattern
  value : Option Expression

/-! ## Texts and names -/

def Margins.around (m : Margins) (s : List Char) : List Char := m.before ++ (s ++ m.after)

/-- A default or an initializer behind what it is for. -/
def assigned : Option Expression → List Char
  | none => []
  | some e => ' ' :: '=' :: ' ' :: e.text

def Key.text : Key → List Char
  | .word text _ _ => text
  | .literal q body _ _ => q :: (body ++ [q])
  | .computed text _ => '[' :: (text ++ [']'])

mutual

def Pattern.text : Pattern → List Char
  | .name n => n.text
  | .object properties => '\x7b' :: ([','].intercalate properties.texts ++ ['\x7d'])
  | .array elements => '[' :: ([','].intercalate elements.texts ++ [']'])

def Properties.texts : Properties → List (List Char)
  | .nil => []
  | .shorthand m n value more => (m.around n.text ++ assigned value) :: more.texts
  | .keyed outer key inner target value more =>
    (outer.around key.text ++ ':' :: (inner.around target.text ++ assigned value)) :: more.texts
  | .rest m target more => m.around ('.' :: '.' :: '.' :: target.text) :: more.texts

def Elements.texts : Elements → List (List Char)
  | .nil => []
  | .hole m more => m.around [] :: more.texts
  | .item m target value more => (m.around target.text ++ assigned value) :: more.texts
  | .rest m target more => m.around ('.' :: '.' :: '.' :: target.text) :: more.texts

end

mutual

/-- The names that a pattern binds, from left to right. -/
def Pattern.names : Pattern → List (List Char)
  | .name n => [n.text]
  | .object properties => properties.names
  | .array elements => elements.names

def Properties.names : Properties → List (List Char)
  | .nil => []
  | .shorthand _ n _ more => n.text :: more.names
  | .keyed _ _ _ target _ more => target.names ++ more.names
  | .rest _ target more => target.names ++ more.names

def Elements.names : Elements → List (List Char)
  | .nil => []
  | .hole _ more => more.names
  | .item _ target _ more => target.names ++ more.names
  | .rest _ target more => target.names ++ more.names

end

def Declarator.text (d : Declarator) : List Char :=
  d.margins.around d.pattern.text ++ assigned d.value

def declaratorsText (ds : List Declarator) : List Char := [','].intercalate (ds.map Declarator.text)

/-! ## Balance and ends -/

section

variable {c : Char} {s : List Char} {P : Char → Prop}

theorem plain_of_isBlank (h : isBlank c = true) : Plain c ∧ isMark c = false := by
  have hne (d : Char) (hd : isBlank d = false) : c ≠ d := by
    rintro rfl
    rw [hd] at h
    cases h
  have hback : c.toNat ≠ 0x60 := fun he =>
    hne (Char.ofNat 0x60) (by decide) (by rw [← he, Char.ofNat_toNat])
  have hmark : isMark c = false := by
    simp [isMark, isQuote, isOpening, isClosing, hback, hne _ (by decide : isBlank '"' = false),
      hne _ (by decide : isBlank '\'' = false), hne _ (by decide : isBlank '(' = false),
      hne _ (by decide : isBlank '[' = false), hne _ (by decide : isBlank '\x7b' = false),
      hne _ (by decide : isBlank ')' = false), hne _ (by decide : isBlank ']' = false),
      hne _ (by decide : isBlank '\x7d' = false)]
  exact ⟨⟨hne ',' (by decide), hne ':' (by decide), hne '=' (by decide)⟩, hmark⟩

theorem plain_of_isAsciiNamePart (h : isAsciiNamePart c = true) :
    isBlank c = false ∧ isMark c = false ∧ Plain c ∧ c ≠ '.' ∧ c ≠ ';' := by
  let OK (c : Char) : Prop := isAsciiNamePart c = true →
    isBlank c = false ∧ isMark c = false ∧ (c ≠ ',' ∧ c ≠ ':' ∧ c ≠ '=') ∧ c ≠ '.' ∧ c ≠ ';'
  have hall : ∀ n < 0x80, OK (Char.ofNat n) := by decide
  exact forall_ascii hall (toNat_lt_of_isAsciiNamePart h) h

theorem Identifier.forall_mem (n : Identifier) : ∀ c ∈ n.text, isAsciiNamePart c = true := by
  obtain ⟨text, valid⟩ := n
  cases text with
  | nil => cases valid
  | cons c r =>
    obtain ⟨hc, hr⟩ := Bool.and_eq_true_iff.mp valid
    refine List.forall_mem_cons.mpr ⟨?_, List.all_eq_true.mp hr⟩
    rw [isAsciiNamePart, hc, Bool.true_or]

theorem Identifier.ne_nil (n : Identifier) : n.text ≠ [] := by
  intro hn
  have hv := n.valid
  rw [hn] at hv
  cases hv

theorem Identifier.balanced (n : Identifier) : Balanced Plain n.text :=
  .of_forall fun c hc =>
    have h := plain_of_isAsciiNamePart (n.forall_mem c hc)
    ⟨h.2.2.1, h.2.1⟩

theorem balanced_of_blank (h : AllBlank s) : Balanced Plain s :=
  .of_forall fun c hc => plain_of_isBlank (h c hc)

/-- A text in brackets is balanced if what they hold is. -/
theorem balanced_group {opening closing : Char} (ho : isOpening opening = true)
    (hc : isClosing closing = true) (h : Balanced (fun _ => True) s) :
    Balanced P (opening :: (s ++ [closing])) := .group ho h hc .nil

theorem Key.balanced (key : Key) : Balanced Plain key.text := by
  cases key with
  | word text hne h => exact .of_forall fun c hc => ⟨(h c hc).2.2, (h c hc).2.1⟩
  | literal q body hq hb => exact .literal hq hb .nil
  | computed text h => exact balanced_group (by decide) (by decide) h

theorem Margins.balanced_around (m : Margins) (h : Balanced Plain s) : Balanced Plain (m.around s) :=
  (balanced_of_blank m.blankBefore).append (h.append (balanced_of_blank m.blankAfter))

theorem balanced_dots (h : Balanced Plain s) : Balanced Plain ('.' :: '.' :: '.' :: s) :=
  have hdot : Plain '.' := ⟨by decide, by decide, by decide⟩
  have hmark : isMark '.' = false := by decide
  .plain hdot hmark (.plain hdot hmark (.plain hdot hmark h))

theorem Plain.ne_comma (h : Plain c) : c ≠ ',' := h.1

theorem Plain.ne_equals (h : Plain c) : c ≠ '=' := h.2.2

theorem balanced_assigned (h : Balanced Plain s) (value : Option Expression) :
    Balanced (· ≠ ',') (s ++ assigned value) := by
  refine (h.mono fun c => Plain.ne_comma).append ?_
  cases value with
  | none => exact .nil
  | some e =>
    have hspace : Balanced (· ≠ ',') (' ' :: e.text) := .plain (by decide) (by decide) e.balanced
    exact .plain (by decide) (by decide) (.plain (by decide) (by decide) hspace)

mutual

theorem Pattern.balanced : (p : Pattern) → Balanced Plain p.text
  | .name n => n.balanced
  | .object properties => balanced_group (by decide) (by decide) <|
    balanced_intercalate ⟨trivial, by decide⟩ fun t ht => (properties.balanced t ht).mono fun _ _ => trivial
  | .array elements => balanced_group (by decide) (by decide) <|
    balanced_intercalate ⟨trivial, by decide⟩ fun t ht => (elements.balanced t ht).mono fun _ _ => trivial

theorem Properties.balanced : (ps : Properties) → ∀ t ∈ ps.texts, Balanced (· ≠ ',') t
  | .nil => fun _ ht => absurd ht List.not_mem_nil
  | .shorthand m n value more => List.forall_mem_cons.mpr
    ⟨balanced_assigned (m.balanced_around n.balanced) value, more.balanced⟩
  | .keyed outer key inner target value more =>
    have hkey := (outer.balanced_around key.balanced).mono fun _ => Plain.ne_comma
    have htarget := balanced_assigned (inner.balanced_around target.balanced) value
    List.forall_mem_cons.mpr ⟨hkey.append (.plain (by decide) (by decide) htarget), more.balanced⟩
  | .rest m target more => List.forall_mem_cons.mpr
    ⟨(m.balanced_around (balanced_dots target.balanced)).mono fun _ => Plain.ne_comma, more.balanced⟩

theorem Elements.balanced : (es : Elements) → ∀ t ∈ es.texts, Balanced (· ≠ ',') t
  | .nil => fun _ ht => absurd ht List.not_mem_nil
  | .hole m more => List.forall_mem_cons.mpr
    ⟨(m.balanced_around .nil).mono fun _ => Plain.ne_comma, more.balanced⟩
  | .item m target value more => List.forall_mem_cons.mpr
    ⟨balanced_assigned (m.balanced_around target.balanced) value, more.balanced⟩
  | .rest m target more => List.forall_mem_cons.mpr
    ⟨(m.balanced_around (balanced_dots target.balanced)).mono fun _ => Plain.ne_comma, more.balanced⟩

end

/-- A pattern begins and ends in characters that are not taken away from its ends. -/
theorem Pattern.ends (p : Pattern) :
    (∃ c r, p.text = c :: r ∧ isBlank c = false ∧ c ≠ '.') ∧
      ∃ front c, p.text = front ++ [c] ∧ isBlank c = false ∧ c ≠ ';' := by
  cases p with
  | name n =>
    obtain ⟨⟨c, r, hs, hc⟩, front, d, he, hd⟩ := exists_ends n.ne_nil fun c hc =>
      plain_of_isAsciiNamePart (n.forall_mem c hc)
    exact ⟨⟨c, r, hs, hc.1, hc.2.2.2.1⟩, ⟨front, d, he, hd.1, hd.2.2.2.2⟩⟩
  | object properties =>
    exact ⟨⟨_, _, rfl, by decide, by decide⟩,
      ⟨'\x7b' :: [','].intercalate properties.texts, '\x7d', rfl, by decide, by decide⟩⟩
  | array elements =>
    exact ⟨⟨_, _, rfl, by decide, by decide⟩,
      ⟨'[' :: [','].intercalate elements.texts, ']', rfl, by decide, by decide⟩⟩

theorem Pattern.solid (p : Pattern) : Solid p.text := by
  obtain ⟨⟨c, r, hs, hc, -⟩, front, d, he, hd, -⟩ := p.ends
  exact ⟨⟨c, r, hs, hc⟩, ⟨front, d, he, hd⟩⟩

theorem isBlank_of_isQuote (h : isQuote c = true) : isBlank c = false := by
  cases hb : isBlank c with
  | false => rfl
  | true =>
    have hmark := (plain_of_isBlank hb).2
    rw [isMark, h, Bool.true_or, Bool.true_or] at hmark
    cases hmark

theorem Key.solid (key : Key) : Solid key.text := by
  cases key with
  | word text hne h => exact solid_of_forall hne fun c hc => (h c hc).1
  | literal q body hq hb =>
    have hblank := isBlank_of_isQuote hq
    exact ⟨⟨q, _, rfl, hblank⟩, ⟨q :: body, q, rfl, hblank⟩⟩
  | computed text h =>
    exact ⟨⟨'[', _, rfl, by decide⟩, ⟨'[' :: text, ']', rfl, by decide⟩⟩

/-! ## Cuts -/

/-- What stands in front of a default is cut off at it, wherever its text ends. -/
theorem exists_beforeTop {core after tail : List Char} {value : Option Expression}
    (hc : Balanced (· ≠ '=') core) (ha : AllBlank after) (ht : tail <+: after ++ assigned value) :
    ∃ back, AllBlank back ∧ beforeTop '=' (core ++ tail) = core ++ back := by
  have hblank {back : List Char} (hb : AllBlank back) :
      ∃ back', AllBlank back' ∧ beforeTop '=' (core ++ back) = core ++ back' := by
    have hall := hc.append ((balanced_of_blank hb).mono fun c => Plain.ne_equals)
    exact ⟨back, hb, beforeTop_hidden (hall.hidden (by simp))⟩
  cases value with
  | none =>
    rw [assigned, List.append_nil] at ht
    exact hblank fun c hm => ha c (ht.subset hm)
  | some e =>
    have hspace : AllBlank (after ++ [' ']) := ha.append (by simp [AllBlank]; decide)
    have hassoc : after ++ assigned (some e) = (after ++ [' ']) ++ '=' :: ' ' :: e.text := by
      simp [assigned]
    rw [hassoc] at ht
    rcases List.prefix_or_prefix_of_prefix ht (List.prefix_append (after ++ [' ']) _) with hp | hp
    · exact hblank fun c hm => hspace c (hp.subset hm)
    · obtain ⟨rest, rfl⟩ := hp
      rw [List.prefix_append_right_inj] at ht
      cases rest with
      | nil =>
        rw [List.append_nil]
        exact hblank hspace
      | cons c rest =>
        obtain ⟨rfl, hrest⟩ := List.cons_prefix_cons.mp ht
        have hfront := hc.append ((balanced_of_blank hspace).mono fun c => Plain.ne_equals)
        have hhead : isOperatorPart (core ++ (after ++ [' '])).getLast? rest.head? = false := by
          have hlast : (core ++ (after ++ [' '])).getLast? = some ' ' := by simp [← List.append_assoc]
          rw [hlast]
          cases rest with
          | nil => rfl
          | cons d rest =>
            obtain ⟨rfl, -⟩ := List.cons_prefix_cons.mp hrest
            rfl
        have hcut : cutTop? '=' (core ++ (after ++ [' ']) ++ '=' :: rest) =
            some (core ++ (after ++ [' ']), rest) :=
          cutTop?_append_cons (by decide) (hfront.hidden (by simp)) hfront.run_start fun _ => hhead
        refine ⟨after ++ [' '], hspace, ?_⟩
        rw [beforeTop, ← List.append_assoc, hcut]

theorem exists_withoutDefault (m : Margins) {core : List Char} (hs : Solid core)
    (hc : Balanced (· ≠ '=') core) (value : Option Expression) :
    ∃ back, AllBlank back ∧ withoutDefault (m.around core ++ assigned value) = core ++ back := by
  have htext : m.around core ++ assigned value =
      m.before ++ (core ++ (m.after ++ assigned value)) := by simp [Margins.around]
  rw [withoutDefault, htext, hs.trim_around m.blankBefore]
  exact exists_beforeTop hc m.blankAfter (trimEnd_isPrefix _)

theorem insideBrackets_concat {close : Char} (h : isBlank close = false) (s : List Char) :
    insideBrackets close (s ++ [close]) = s := by
  rw [insideBrackets, trimEnd_append_cons h]
  simp [trimEnd]

/-- Nothing is bound between the commas where there is no text. -/
theorem bindingNames_nil (fuel : Nat) : bindingNames fuel [] = [] := by
  cases fuel <;> rfl

theorem flatMap_splitTop_intercalate {pieces : List (List Char)} {names : List Char → List (List Char)}
    (h : ∀ piece ∈ pieces, Balanced (· ≠ ',') piece) (hn : names [] = []) :
    (splitTop ',' ([','].intercalate pieces)).flatMap names = pieces.flatMap names := by
  cases pieces using List.reverseRecOn with
  | nil => simp [splitTop, splitTopFrom, hn]
  | append_singleton pieces last =>
    have hlast : Hidden ',' .start last :=
      (h last (List.mem_append_right _ List.mem_cons_self)).hidden (by simp)
    have hpieces : ∀ piece ∈ pieces, Balanced (· ≠ ',') piece := fun piece hm =>
      h piece (List.mem_append_left _ hm)
    rw [splitTop_intercalate (by decide) (by simp) hpieces hlast]

theorem dropDots_of_ne {c : Char} (h : c ≠ '.') (r : List Char) : dropDots (c :: r) = c :: r := by
  unfold dropDots
  split
  · next he => exact absurd (List.cons.inj he).1 h
  · rfl

theorem Pattern.dropDots_text (p : Pattern) : dropDots p.text = p.text := by
  obtain ⟨⟨c, r, hs, -, hc⟩, -⟩ := p.ends
  rw [hs, dropDots_of_ne hc]

/-- A pattern on its own, with a default or without. -/
theorem Pattern.cut_item (p : Pattern) (m : Margins) (value : Option Expression) :
    let s := withoutDefault (m.around p.text ++ assigned value)
    afterTop ':' s = s ∧ dropDots (trim s) = p.text := by
  obtain ⟨back, hb, hs⟩ :=
    exists_withoutDefault m p.solid (p.balanced.mono fun c => Plain.ne_equals) value
  dsimp only
  rw [hs]
  have hall := p.balanced.append (balanced_of_blank hb)
  refine ⟨afterTop_hidden (hall.hidden fun h => h.2.1 rfl), ?_⟩
  have htrim : trim (p.text ++ back) = p.text := p.solid.trim_between .nil hb
  rw [htrim, p.dropDots_text]

/-- A pattern behind the dots of a rest. -/
theorem Pattern.cut_rest (p : Pattern) (m : Margins) :
    let s := withoutDefault (m.around ('.' :: '.' :: '.' :: p.text))
    afterTop ':' s = s ∧ dropDots (trim s) = p.text := by
  have hsolid : Solid ('.' :: '.' :: '.' :: p.text) := by
    obtain ⟨front, c, htext, hc⟩ := p.solid.ends
    exact ⟨⟨'.', _, rfl, by decide⟩, ⟨'.' :: '.' :: '.' :: front, c, by rw [htext]; rfl, hc⟩⟩
  have hbalanced := balanced_dots p.balanced
  obtain ⟨back, hb, hs⟩ :=
    exists_withoutDefault m hsolid (hbalanced.mono fun c => Plain.ne_equals) none
  rw [assigned, List.append_nil] at hs
  dsimp only
  rw [hs]
  have hall := hbalanced.append (balanced_of_blank hb)
  refine ⟨afterTop_hidden (hall.hidden fun h => h.2.1 rfl), ?_⟩
  have htrim : trim ('.' :: '.' :: '.' :: p.text ++ back) = '.' :: '.' :: '.' :: p.text :=
    hsolid.trim_between .nil hb
  rw [htrim]
  exact p.dropDots_text

/-- A pattern behind a key. -/
theorem Pattern.cut_keyed (p : Pattern) (outer : Margins) (key : Key) (inner : Margins)
    (value : Option Expression) :
    dropDots (trim (afterTop ':' (withoutDefault
      (outer.around key.text ++ ':' :: (inner.around p.text ++ assigned value))))) = p.text := by
  let m : Margins := ⟨outer.before, inner.after, outer.blankBefore, inner.blankAfter⟩
  have htext : outer.around key.text ++ ':' :: (inner.around p.text ++ assigned value) =
      m.around (key.text ++ ((outer.after ++ ':' :: inner.before) ++ p.text)) ++ assigned value := by
    simp [Margins.around, m]
  have hkey := key.balanced.append (balanced_of_blank outer.blankAfter)
  have htarget := (balanced_of_blank inner.blankBefore).append p.balanced
  have hbalanced : Balanced (· ≠ '=')
      (key.text ++ ((outer.after ++ ':' :: inner.before) ++ p.text)) := by
    have hall := (hkey.mono fun c => Plain.ne_equals).append
      (.plain (by decide) (by decide) (htarget.mono fun c => Plain.ne_equals) :
        Balanced (· ≠ '=') (':' :: (inner.before ++ p.text)))
    simpa using hall
  obtain ⟨back, hb, hs⟩ := exists_withoutDefault m (key.solid.between p.solid _) hbalanced value
  have hassoc : key.text ++ ((outer.after ++ ':' :: inner.before) ++ p.text) ++ back =
      (key.text ++ outer.after) ++ ':' :: (inner.before ++ (p.text ++ back)) := by simp
  rw [htext, hs, hassoc, afterTop, cutTop?_append_cons (by decide)
    (hkey.hidden fun h => h.2.1 rfl) hkey.run_start fun h => absurd h (by decide)]
  dsimp only
  rw [p.solid.trim_between inner.blankBefore hb, p.dropDots_text]

/-- Pieces between brackets are shorter than the whole. -/
theorem forall_length_lt {opening closing : Char} {pieces : List (List Char)} {fuel : Nat}
    (h : (opening :: ([','].intercalate pieces ++ [closing])).length < fuel + 1) :
    ∀ t ∈ pieces, t.length < fuel := by
  intro t ht
  have hle := (infix_intercalate ',' ht).length_le
  simp only [List.length_cons, List.length_append] at h
  omega

/-! ## The names found -/

theorem plainName_text (n : Identifier) : plainName n.text = [n.text] := by
  have hall : n.text.takeWhile isAsciiNamePart = n.text := List.takeWhile_eq_self_iff.mpr n.forall_mem
  rw [plainName, hall, if_pos n.valid]

theorem bindingNames_identifier (n : Identifier) {fuel : Nat} (hs : dropDots (trim s) = n.text)
    (hl : n.text.length < fuel) : bindingNames fuel s = [n.text] := by
  obtain ⟨fuel, rfl⟩ := Nat.exists_eq_add_of_lt hl
  have hfirst : ∀ c ∈ n.text, c ≠ '\x7b' ∧ c ≠ '[' := fun c hc => by
    have hpart := n.forall_mem c hc
    exact ⟨by rintro rfl; exact absurd hpart (by decide), by rintro rfl; exact absurd hpart (by decide)⟩
  rw [bindingNames_plain fun c r h => hfirst c (hs ▸ h ▸ List.mem_cons_self), hs, plainName_text]

theorem length_around (m : Margins) (s rest : List Char) :
    s.length ≤ (m.around s ++ rest).length := by
  simp only [Margins.around, List.length_append]
  omega

mutual

/-- A pattern's names are found in each text that its own is left of between blanks and behind dots. -/
theorem Pattern.bindingNames_text : (p : Pattern) → ∀ {fuel : Nat} {s : List Char},
    dropDots (trim s) = p.text → p.text.length < fuel → bindingNames fuel s = p.names
  | .name n, _, _, hs, hl => bindingNames_identifier n hs hl
  | .object properties, fuel + 1, s, hs, hl => by
    rw [bindingNames_object hs, insideBrackets_concat (by decide)]
    refine (flatMap_splitTop_intercalate properties.balanced ?_).trans
      (properties.bindingNames_texts (forall_length_lt hl))
    exact bindingNames_nil fuel
  | .array elements, fuel + 1, s, hs, hl => by
    rw [bindingNames_array hs, insideBrackets_concat (by decide)]
    refine (flatMap_splitTop_intercalate elements.balanced ?_).trans
      (elements.bindingNames_texts (forall_length_lt hl))
    exact bindingNames_nil fuel

theorem Properties.bindingNames_texts : (ps : Properties) → ∀ {fuel : Nat},
    (∀ t ∈ ps.texts, t.length < fuel) →
      (ps.texts.flatMap fun t => bindingNames fuel (afterTop ':' (withoutDefault t))) = ps.names
  | .nil, _, _ => rfl
  | .shorthand m n value more, fuel, h => by
    obtain ⟨hl, hmore⟩ := List.forall_mem_cons.mp h
    obtain ⟨hafter, htext⟩ := (Pattern.name n).cut_item m value
    have hlt : n.text.length < fuel := (length_around m n.text _).trans_lt hl
    have hfirst := bindingNames_identifier n htext hlt
    rw [← hafter] at hfirst
    rw [Properties.texts, List.flatMap_cons, more.bindingNames_texts hmore]
    exact congrArg (· ++ more.names) hfirst
  | .keyed outer key inner target value more, fuel, h => by
    obtain ⟨hl, hmore⟩ := List.forall_mem_cons.mp h
    have hlt : target.text.length < fuel := by
      have hle := length_around inner target.text (assigned value)
      simp only [List.length_append, List.length_cons] at hl hle
      omega
    rw [Properties.texts, List.flatMap_cons, more.bindingNames_texts hmore,
      target.bindingNames_text (target.cut_keyed outer key inner value) hlt]
    rfl
  | .rest m target more, fuel, h => by
    obtain ⟨hl, hmore⟩ := List.forall_mem_cons.mp h
    obtain ⟨hafter, htext⟩ := target.cut_rest m
    have hlt : target.text.length < fuel := by
      simp only [Margins.around, List.length_append, List.length_cons] at hl
      omega
    rw [Properties.texts, List.flatMap_cons, more.bindingNames_texts hmore, hafter,
      target.bindingNames_text htext hlt]
    rfl

theorem Elements.bindingNames_texts : (es : Elements) → ∀ {fuel : Nat},
    (∀ t ∈ es.texts, t.length < fuel) →
      (es.texts.flatMap fun t => bindingNames fuel (withoutDefault t)) = es.names
  | .nil, _, _ => rfl
  | .hole m more, fuel, h => by
    obtain ⟨-, hmore⟩ := List.forall_mem_cons.mp h
    have hblank : AllBlank (m.around []) := m.blankBefore.append m.blankAfter
    have hnone : withoutDefault (m.around []) = [] := by
      rw [withoutDefault, trim_eq_nil_iff.mpr hblank]
      rfl
    rw [Elements.texts, List.flatMap_cons, more.bindingNames_texts hmore, hnone, bindingNames_nil]
    rfl
  | .item m target value more, fuel, h => by
    obtain ⟨hl, hmore⟩ := List.forall_mem_cons.mp h
    have hlt := (length_around m target.text (assigned value)).trans_lt hl
    rw [Elements.texts, List.flatMap_cons, more.bindingNames_texts hmore,
      target.bindingNames_text (target.cut_item m value).2 hlt]
    rfl
  | .rest m target more, fuel, h => by
    obtain ⟨hl, hmore⟩ := List.forall_mem_cons.mp h
    have hlt : target.text.length < fuel := by
      simp only [Margins.around, List.length_append, List.length_cons] at hl
      omega
    rw [Elements.texts, List.flatMap_cons, more.bindingNames_texts hmore,
      target.bindingNames_text (target.cut_rest m).2 hlt]
    rfl

end

/-! ## Declarators -/

theorem dropSemicolons_append_cons {c : Char} (hb : isBlank c = false) (hc : c ≠ ';')
    (front s : List Char) : dropSemicolons (front ++ c :: s) = front ++ c :: dropSemicolons s := by
  have hdrop := rdropWhile_append_cons (p := (· == ';')) (by simpa using hc) front (trimEnd s)
  rw [← trimEnd_append_cons hb] at hdrop
  exact hdrop

theorem dropSemicolons_isPrefix {mark : List Char} (hm : mark = [] ∨ mark = [';']) (s : List Char) :
    dropSemicolons (s ++ mark) <+: s := by
  rcases hm with rfl | rfl
  · rw [List.append_nil]
    exact List.IsPrefix.trans (List.rdropWhile_prefix _ _) (trimEnd_isPrefix s)
  · have hdrop : dropSemicolons (s ++ [';']) = s.rdropWhile (· == ';') := by
      have htrim : trimEnd (s ++ [';']) = s ++ [';'] := trimEnd_append_cons (by decide) s []
      exact (congrArg (List.rdropWhile (· == ';')) htrim).trans (List.rdropWhile_concat_pos _ _ _ rfl)
    rw [hdrop]
    exact List.rdropWhile_prefix _ _

theorem Declarator.text_eq (d : Declarator) : d.text =
    d.margins.before ++ (d.pattern.text ++ (d.margins.after ++ assigned d.value)) := by
  simp [Declarator.text, Margins.around]

theorem Declarator.balanced (d : Declarator) : Balanced (· ≠ ',') d.text :=
  balanced_assigned (d.margins.balanced_around d.pattern.balanced) d.value

/-- A declarator binds the names of its pattern, also where the end of its text is dropped. -/
theorem Declarator.bindingNames_isPrefix (d : Declarator) {tail : List Char}
    (ht : tail <+: d.margins.after ++ assigned d.value) :
    let s := d.margins.before ++ (d.pattern.text ++ tail)
    bindingNames (s.length + 1) (beforeTop '=' s) = d.pattern.names := by
  have hfront := (balanced_of_blank d.margins.blankBefore).append d.pattern.balanced
  obtain ⟨back, hb, hs⟩ :=
    exists_beforeTop (hfront.mono fun c => Plain.ne_equals) d.margins.blankAfter ht
  have hlt : d.pattern.text.length <
      (d.margins.before ++ (d.pattern.text ++ tail)).length + 1 := by
    simp only [List.length_append]
    omega
  rw [List.append_assoc, List.append_assoc] at hs
  refine d.pattern.bindingNames_text ?_ hlt
  rw [hs, d.pattern.solid.trim_between d.margins.blankBefore hb, d.pattern.dropDots_text]

theorem Declarator.bindingNames_text (d : Declarator) :
    bindingNames (d.text.length + 1) (beforeTop '=' d.text) = d.pattern.names := by
  rw [d.text_eq]
  exact d.bindingNames_isPrefix List.prefix_rfl

/-- The names found in the text of declarators are those that their patterns bind. A semicolon may end
the text. -/
theorem declaredNames_text (ds : List Declarator) (semicolon : Bool) :
    declaredNames (declaratorsText ds ++ if semicolon then [';'] else []) =
      ds.flatMap fun d => d.pattern.names := by
  have hmark : (if semicolon then [';'] else []) = [] ∨ (if semicolon then [';'] else []) = [';'] := by
    cases semicolon
    · exact .inl rfl
    · exact .inr rfl
  generalize (if semicolon then [';'] else []) = mark at hmark
  cases ds using List.reverseRecOn with
  | nil => rcases hmark with rfl | rfl <;> rfl
  | append_singleton ds d =>
    obtain ⟨-, front, c, htext, hblank, hsemi⟩ := d.pattern.ends
    have hconcat (text : List Char) : [','].intercalate (ds.map Declarator.text ++ [text]) =
        [','].intercalate (ds.map Declarator.text ++ [[]]) ++ text :=
      intercalate_concat ',' (ds.map Declarator.text) [] text
    have htail := dropSemicolons_isPrefix hmark (d.margins.after ++ assigned d.value)
    -- What is dropped at the end of the text stands behind the last pattern.
    let last := d.margins.before ++ (d.pattern.text ++
      dropSemicolons ((d.margins.after ++ assigned d.value) ++ mark))
    have hdrop : dropSemicolons (declaratorsText (ds ++ [d]) ++ mark) =
        [','].intercalate (ds.map Declarator.text ++ [last]) := by
      have hcut := dropSemicolons_append_cons hblank hsemi ([','].intercalate (ds.map Declarator.text ++ [[]]) ++ (d.margins.before ++ front))
        ((d.margins.after ++ assigned d.value) ++ mark)
      rw [declaratorsText, List.map_append, List.map_singleton, hconcat d.text, hconcat last,
        d.text_eq]
      simpa [last, htext] using hcut
    have hlast : Hidden ',' .start last := by
      have hall : Hidden ',' .start d.text := d.balanced.hidden (by simp)
      rw [d.text_eq] at hall
      exact hall.of_prefix (by simpa [last, List.prefix_append_right_inj] using htail)
    have hpieces : ∀ piece ∈ ds.map Declarator.text, Balanced (· ≠ ',') piece :=
      List.forall_mem_map.mpr fun d _ => d.balanced
    rw [declaredNames, hdrop, splitTop_intercalate (by decide) (by simp) hpieces hlast,
      List.flatMap_append, List.flatMap_append, List.flatMap_map, List.flatMap_singleton,
      List.flatMap_singleton, d.bindingNames_isPrefix htail]
    exact congrArg (· ++ d.pattern.names) (List.flatMap_congr fun d _ => d.bindingNames_text)

example : declaredNames "\x7b a, 'b:': [c = (1, 2), , d] \x7d = f(x, y), e = 1;".toList =
    [['a'], ['c'], ['d'], ['e']] := by rfl

end

end ModuleLoader.Transpile
