import Mathlib.Data.List.Basic
import ModuleLoader.Proofs.Text.Pieces
import ModuleLoader.Transpile.Brackets

/-! Balanced text, and cuts beside it. A text in which brackets and literals are closed ends at the
nesting that it began with, and what it hides inside of them is no place to cut. -/

namespace ModuleLoader.Transpile

open Text

namespace Nesting

/-- The nesting outside of literals and `depth` deep in brackets. -/
def outside (depth : Nat) : Nesting := ⟨depth, none, false⟩

/-- The nesting in a literal that a `q` opened. -/
def inside (depth : Nat) (q : Char) : Nesting := ⟨depth, some q, false⟩

/-- The nesting behind a text. -/
def run (n : Nesting) (s : List Char) : Nesting := s.foldl next n

variable {n : Nesting} {c q : Char} {depth : Nat}

@[simp] theorem run_nil (n : Nesting) : n.run [] = n := rfl

@[simp] theorem run_cons (n : Nesting) (c : Char) (s : List Char) :
    n.run (c :: s) = (n.next c).run s := rfl

@[simp] theorem run_append (n : Nesting) (s t : List Char) : n.run (s ++ t) = (n.run s).run t :=
  List.foldl_append

/-- Whether a character is a quote or a bracket. -/
def isMark (c : Char) : Bool := isQuote c || isOpening c || isClosing c

theorem next_of_not_isMark (h : isMark c = false) : (outside depth).next c = outside depth := by
  simp only [isMark, Bool.or_eq_false_iff] at h
  obtain ⟨⟨hq, ho⟩, hc⟩ := h
  simp [next, outside, hq, ho, hc]

theorem next_of_isQuote (h : isQuote c = true) : (outside depth).next c = inside depth c := by
  simp [next, outside, inside, h]

theorem isQuote_eq_false_of_isOpening (h : isOpening c = true) : isQuote c = false := by
  simp only [isOpening, Bool.or_eq_true, beq_iff_eq] at h
  obtain (rfl | rfl) | rfl := h <;> decide

theorem isMark_of_isClosing (h : isClosing c = true) : isQuote c = false ∧ isOpening c = false := by
  simp only [isClosing, Bool.or_eq_true, beq_iff_eq] at h
  obtain (rfl | rfl) | rfl := h <;> decide

theorem next_of_isOpening (h : isOpening c = true) :
    (outside depth).next c = outside (depth + 1) := by
  simp [next, outside, h, isQuote_eq_false_of_isOpening h]

theorem next_of_isClosing (h : isClosing c = true) :
    (outside (depth + 1)).next c = outside depth := by
  obtain ⟨hq, ho⟩ := isMark_of_isClosing h
  simp [next, outside, h, hq, ho]

theorem next_inside_of_ne (hq : c ≠ q) (he : c ≠ '\\') :
    (inside depth q).next c = inside depth q := by
  simp [next, inside, hq, he]

theorem next_inside_self (h : q ≠ '\\') : (inside depth q).next q = outside depth := by
  simp [next, inside, outside, h]

theorem ne_backslash_of_isQuote (h : isQuote q = true) : q ≠ '\\' := by
  rintro rfl
  exact absurd h (by decide)

theorem isTop_inside (depth : Nat) (q c : Char) : (inside depth q).isTop c = false := rfl

/-- At depth zero, all characters but quotes and brackets are at the top. -/
theorem isTop_outside_iff : (outside depth).isTop c = true ↔ isMark c = false ∧ depth = 0 := by
  simp only [isTop, outside, isMark]
  cases isQuote c <;> cases isOpening c <;> cases isClosing c <;> simp

end Nesting

open Nesting

/-! ## Pieces -/

section

variable {n : Nesting} {sep c : Char}

theorem splitTopFrom_ne_nil (sep : Char) (n : Nesting) (s : List Char) :
    splitTopFrom sep n s ≠ [] := by
  cases s with
  | nil => simp [splitTopFrom]
  | cons c r =>
    rw [splitTopFrom]
    split
    · simp
    · split <;> simp

theorem splitTopFrom_cut (htop : n.isTop sep = true) (r : List Char) :
    splitTopFrom sep n (sep :: r) = [] :: splitTopFrom sep (n.next sep) r := by
  simp [splitTopFrom, htop]

/-- Any other character is put in front of the first piece behind it. -/
theorem exists_splitTopFrom_cons (h : n.isTop c = true → c ≠ sep) (r : List Char) :
    ∃ piece pieces, splitTopFrom sep (n.next c) r = piece :: pieces ∧
      splitTopFrom sep n (c :: r) = (c :: piece) :: pieces := by
  have hno : ¬(n.isTop c && c == sep) = true := by simpa using h
  cases hp : splitTopFrom sep (n.next c) r with
  | nil => exact absurd hp (splitTopFrom_ne_nil sep _ r)
  | cons piece pieces =>
    refine ⟨piece, pieces, rfl, ?_⟩
    rw [splitTopFrom, if_neg hno, hp]

theorem intercalate_splitTopFrom (sep : Char) (n : Nesting) (s : List Char) :
    [sep].intercalate (splitTopFrom sep n s) = s := by
  induction s generalizing n with
  | nil => rfl
  | cons c r ih =>
    by_cases h : n.isTop c = true ∧ c = sep
    · obtain ⟨htop, rfl⟩ := h
      rw [splitTopFrom_cut htop, intercalate_cons (splitTopFrom_ne_nil _ _ r), ih]
      rfl
    · obtain ⟨piece, pieces, hp, hs⟩ := exists_splitTopFrom_cons (not_and.mp h) r
      rw [hs, List.intercalate_cons_cons_left, ← hp, ih]

end

/-! ## Hidden separators -/

/-- Whether each `sep` of a text stands in brackets or in a literal. -/
def Hidden (sep : Char) : Nesting → List Char → Prop
  | _, [] => True
  | n, c :: r => (n.isTop c = true → c ≠ sep) ∧ Hidden sep (n.next c) r

section

variable {sep : Char} {n : Nesting} {front rest s t : List Char}

theorem hidden_append : Hidden sep n (s ++ t) ↔ Hidden sep n s ∧ Hidden sep (n.run s) t := by
  induction s generalizing n with
  | nil => simp [Hidden]
  | cons c s ih => simp [Hidden, ih, and_assoc]

theorem Hidden.of_prefix (h : Hidden sep n s) (hp : t <+: s) : Hidden sep n t := by
  obtain ⟨rest, rfl⟩ := hp
  exact (hidden_append.mp h).1

theorem splitTopFrom_hidden_append (hf : Hidden sep n front) {piece : List Char}
    {pieces : List (List Char)} (hr : splitTopFrom sep (n.run front) rest = piece :: pieces) :
    splitTopFrom sep n (front ++ rest) = (front ++ piece) :: pieces := by
  induction front generalizing n with
  | nil => exact hr
  | cons c front ih =>
    obtain ⟨hc, hf⟩ := hf
    have hno : ¬(n.isTop c && c == sep) = true := by simpa using hc
    rw [List.cons_append, splitTopFrom, if_neg hno, ih hf hr]
    rfl

theorem splitTop_hidden (h : Hidden sep .start s) : splitTop sep s = [s] := by
  have hs : splitTopFrom sep .start (s ++ []) = [s ++ []] := splitTopFrom_hidden_append h rfl
  rwa [List.append_nil] at hs

/-- A separator at the top cuts off what stands before it. -/
theorem splitTop_append_cons (hs : isMark sep = false) (hf : Hidden sep .start front)
    (hn : Nesting.start.run front = .start) (rest : List Char) :
    splitTop sep (front ++ sep :: rest) = front :: splitTop sep rest := by
  have htop : Nesting.start.isTop sep = true := isTop_outside_iff.mpr ⟨hs, rfl⟩
  have hnext : Nesting.start.next sep = .start := next_of_not_isMark hs
  have hr : splitTopFrom sep (Nesting.start.run front) (sep :: rest) = [] :: splitTop sep rest := by
    rw [hn, splitTopFrom, hnext, if_pos (by simp [htop])]
    rfl
  rw [splitTop, splitTopFrom_hidden_append hf hr, List.append_nil]

theorem cutTopFrom?_hidden (h : Hidden sep n s) (before : Option Char) :
    cutTopFrom? sep n before s = none := by
  induction s generalizing n before with
  | nil => rfl
  | cons c s ih =>
    obtain ⟨hc, hs⟩ := h
    have hno : ¬(n.isTop c && c == sep && !(sep == '=' && isOperatorPart before s.head?)) = true := by
      simp only [Bool.and_eq_true, beq_iff_eq]
      exact fun hall => hc hall.1.1 hall.1.2
    rw [cutTopFrom?, if_neg hno, ih hs]
    rfl

theorem cutTopFrom?_append_cons (hf : Hidden sep n front) (ht : (n.run front).isTop sep = true)
    {before : Option Char}
    (ho : sep = '=' → isOperatorPart (front.getLast?.or before) rest.head? = false) :
    cutTopFrom? sep n before (front ++ sep :: rest) = some (front, rest) := by
  induction front generalizing n before with
  | nil =>
    have hno : (sep == '=' && isOperatorPart before rest.head?) = false := by
      by_cases h : sep = '='
      · simpa [h] using ho h
      · simp [h]
    have htop : n.isTop sep = true := ht
    rw [List.nil_append, cutTopFrom?, if_pos (by simp [htop, hno])]
  | cons c front ih =>
    obtain ⟨hc, hf⟩ := hf
    have hno : ¬(n.isTop c && c == sep &&
        !(sep == '=' && isOperatorPart before (front ++ sep :: rest).head?)) = true := by
      simp only [Bool.and_eq_true, beq_iff_eq]
      exact fun hall => hc hall.1.1 hall.1.2
    have hlast : (c :: front).getLast?.or before = front.getLast?.or (some c) := by
      cases hl : front.getLast? <;> simp [List.getLast?_cons, hl]
    rw [List.cons_append, cutTopFrom?, if_neg hno, ih hf ht (hlast ▸ ho)]
    rfl

theorem beforeTop_hidden (h : Hidden sep .start s) : beforeTop sep s = s := by
  rw [beforeTop, cutTop?, cutTopFrom?_hidden h]

theorem afterTop_hidden (h : Hidden sep .start s) : afterTop sep s = s := by
  rw [afterTop, cutTop?, cutTopFrom?_hidden h]

theorem cutTop?_append_cons (hs : isMark sep = false) (hf : Hidden sep .start front)
    (hn : Nesting.start.run front = .start)
    (ho : sep = '=' → isOperatorPart front.getLast? rest.head? = false) :
    cutTop? sep (front ++ sep :: rest) = some (front, rest) := by
  have htop : (Nesting.start.run front).isTop sep = true := by
    rw [hn]
    exact isTop_outside_iff.mpr ⟨hs, rfl⟩
  exact cutTopFrom?_append_cons hf htop (by rwa [Option.or_none])

end

/-! ## Balanced texts -/

/-- What may stand between two quotes. A backslash escapes what follows it. -/
inductive LiteralBody (q : Char) : List Char → Prop
  | nil : LiteralBody q []
  | plain {c r} (hq : c ≠ q) (he : c ≠ '\\') (hr : LiteralBody q r) : LiteralBody q (c :: r)
  | escaped {c r} (hr : LiteralBody q r) : LiteralBody q ('\\' :: c :: r)

/-- A text in which literals are closed, opening brackets have closing ones and closing brackets have
opening ones. Outside of them, all its characters have `P`. -/
inductive Balanced : (Char → Prop) → List Char → Prop
  | nil {P} : Balanced P []
  | plain {P c r} (hc : P c) (hm : isMark c = false) (hr : Balanced P r) : Balanced P (c :: r)
  | literal {P q body r} (hq : isQuote q = true) (hb : LiteralBody q body) (hr : Balanced P r) :
    Balanced P (q :: (body ++ q :: r))
  | group {P o inner c r} (ho : isOpening o = true) (hi : Balanced (fun _ => True) inner)
    (hc : isClosing c = true) (hr : Balanced P r) : Balanced P (o :: (inner ++ c :: r))

section

variable {P Q : Char → Prop} {sep q : Char} {s t : List Char}

/-- A literal is left by its second quote, and nothing in it is a place to cut. -/
theorem LiteralBody.scan (h : LiteralBody q s) (sep : Char) (depth : Nat) :
    (inside depth q).run s = inside depth q ∧ Hidden sep (inside depth q) s := by
  induction h with
  | nil => exact ⟨rfl, trivial⟩
  | plain hq he _ ih =>
    rw [run_cons, Hidden, next_inside_of_ne hq he, isTop_inside]
    exact ⟨ih.1, by simp, ih.2⟩
  | @escaped c r _ ih =>
    have hback : ((inside depth q).next '\\').next c = inside depth q := by simp [next, inside]
    rw [run_cons, run_cons, Hidden, Hidden, hback]
    exact ⟨ih.1, by simp [isTop_inside], by simp [isTop, next, inside], ih.2⟩

/-- A balanced text leads back to where it began. Inside of brackets it hides everything, and else
what is none of its characters. -/
theorem Balanced.scan (h : Balanced P s) (sep : Char) (depth : Nat) :
    (outside depth).run s = outside depth ∧
      ((P sep → 0 < depth) → Hidden sep (outside depth) s) := by
  induction h generalizing depth with
  | nil => exact ⟨rfl, fun _ => trivial⟩
  | @plain P c r hc hm _ ih =>
    rw [run_cons, Hidden, next_of_not_isMark hm, isTop_outside_iff]
    refine ⟨(ih depth).1, fun hs => ⟨?_, (ih depth).2 hs⟩⟩
    rintro ⟨-, hd⟩ rfl
    exact absurd hd (Nat.pos_iff_ne_zero.mp (hs hc))
  | @literal P q body r hq hb _ ih =>
    obtain ⟨hrun, hhidden⟩ := hb.scan sep depth
    have hmark : isMark q = true := by simp [isMark, hq]
    rw [run_cons, Hidden, next_of_isQuote hq, run_append, hidden_append, hrun, run_cons, Hidden,
      next_inside_self (ne_backslash_of_isQuote hq), isTop_outside_iff, isTop_inside]
    exact ⟨(ih depth).1, fun hs => ⟨by simp [hmark], hhidden, by simp, (ih depth).2 hs⟩⟩
  | @group P o inner c r ho _ hc _ ihi ih =>
    obtain ⟨hrun, hhidden⟩ := ihi (depth + 1)
    have hopen : isMark o = true := by simp [isMark, ho]
    rw [run_cons, Hidden, next_of_isOpening ho, run_append, hidden_append, hrun, run_cons, Hidden,
      next_of_isClosing hc, isTop_outside_iff, isTop_outside_iff]
    exact ⟨(ih depth).1, fun hs => ⟨by simp [hopen], hhidden fun _ => Nat.succ_pos depth, by simp,
      (ih depth).2 hs⟩⟩

theorem Balanced.run_start (h : Balanced P s) : Nesting.start.run s = .start := (h.scan default 0).1

theorem Balanced.hidden (h : Balanced P s) (hs : ¬P sep) : Hidden sep .start s :=
  (h.scan sep 0).2 fun hp => absurd hp hs

theorem Balanced.mono (h : Balanced P s) (hpq : ∀ c, P c → Q c) : Balanced Q s := by
  induction h generalizing Q with
  | nil => exact .nil
  | plain hc hm _ ih => exact .plain (hpq _ hc) hm (ih hpq)
  | literal hq hb _ ih => exact .literal hq hb (ih hpq)
  | group ho hi hc _ _ ih => exact .group ho hi hc (ih hpq)

theorem Balanced.append (hs : Balanced P s) (ht : Balanced P t) : Balanced P (s ++ t) := by
  induction hs with
  | nil => exact ht
  | plain hc hm _ ih => exact .plain hc hm (ih ht)
  | literal hq hb _ ih =>
    rw [List.cons_append, List.append_assoc]
    exact .literal hq hb (ih ht)
  | group ho hi hc _ _ ih =>
    rw [List.cons_append, List.append_assoc]
    exact .group ho hi hc (ih ht)

theorem Balanced.of_forall (h : ∀ c ∈ s, P c ∧ isMark c = false) : Balanced P s := by
  induction s with
  | nil => exact .nil
  | cons c s ih =>
    obtain ⟨⟨hc, hm⟩, hs⟩ := List.forall_mem_cons.mp h
    exact .plain hc hm (ih hs)

/-- Balanced pieces are joined to a balanced text. -/
theorem balanced_intercalate {pieces : List (List Char)} (hs : P sep ∧ isMark sep = false)
    (h : ∀ piece ∈ pieces, Balanced P piece) : Balanced P ([sep].intercalate pieces) := by
  induction pieces with
  | nil => exact .nil
  | cons piece rest ih =>
    obtain ⟨hpiece, hrest⟩ := List.forall_mem_cons.mp h
    by_cases hr : rest = []
    · rwa [hr, List.intercalate_singleton]
    · rw [intercalate_cons hr]
      exact hpiece.append (.plain hs.1 hs.2 (ih hrest))

/-- Pieces that hide the separator are what their join is cut into again. -/
theorem splitTop_intercalate {pieces : List (List Char)} {last : List Char} (hs : isMark sep = false)
    (hp : ¬P sep) (h : ∀ piece ∈ pieces, Balanced P piece) (hl : Hidden sep .start last) :
    splitTop sep ([sep].intercalate (pieces ++ [last])) = pieces ++ [last] := by
  induction pieces with
  | nil =>
    rw [List.nil_append, List.intercalate_singleton]
    exact splitTop_hidden hl
  | cons piece rest ih =>
    obtain ⟨hpiece, hrest⟩ := List.forall_mem_cons.mp h
    rw [List.cons_append, intercalate_cons (by simp),
      splitTop_append_cons hs (hpiece.hidden hp) hpiece.run_start, ih hrest]

end

end ModuleLoader.Transpile
