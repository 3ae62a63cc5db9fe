import ModuleLoader.Proofs.CommonJs.Scan
import ModuleLoader.Proofs.Text.Trim
import ModuleLoader.Proofs.Text.Words

/-! Assignments to properties of `exports`, where a text may have them, and which of them the scan
takes. -/

namespace ModuleLoader.CommonJs

open Text

variable {s name rest front back : List Char} {c : Char} {length : Nat}

/-! ## Names -/

theorem namePart?_append (hne : name ≠ []) (hname : ∀ c ∈ name, isNamePart c = true)
    (hrest : rest.takeWhile isNamePart = []) : namePart? (name ++ rest) = some (name, rest) := by
  have htake : (name ++ rest).takeWhile isNamePart = name := by
    rw [List.takeWhile_append_of_pos hname, hrest, List.append_nil]
  have hdrop : (name ++ rest).dropWhile isNamePart = rest := by
    have hall := List.takeWhile_append_dropWhile (p := isNamePart) (l := rest)
    rw [hrest, List.nil_append] at hall
    rw [List.dropWhile_append_of_pos hname, hall]
  obtain ⟨c, r, rfl⟩ := List.exists_cons_of_ne_nil hne
  rw [namePart?, htake, hdrop]

theorem eq_append_of_namePart? (h : namePart? s = some (name, rest)) : s = name ++ rest ∧
    name ≠ [] ∧ (∀ c ∈ name, isNamePart c = true) ∧ rest.takeWhile isNamePart = [] := by
  unfold namePart? at h
  split at h
  · cases h
  · next taken hne =>
    cases h
    exact ⟨List.takeWhile_append_dropWhile.symm, hne, fun c hc => List.mem_takeWhile_imp hc,
      takeWhile_dropWhile_isNamePart s⟩

theorem blankCount_append {gap : List Char} (hgap : AllBlank gap) (hc : isBlank c = false)
    (back : List Char) : blankCount (gap ++ c :: back) = gap.length := by
  have hstop : (c :: back).takeWhile isBlank = [] := List.takeWhile_cons_of_neg (by simp [hc])
  rw [blankCount, List.takeWhile_append_of_pos hgap, hstop, List.append_nil]

/-! ## Objects -/

/-- The ways to write the object that holds the exports. -/
def IsExportsObject (object : List Char) : Prop :=
  object = "exports".toList ∨ object = "module.exports".toList

theorem exportsObject?_append {object : List Char} (h : IsExportsObject object)
    (rest : List Char) : exportsObject? (object ++ rest) = some rest ∧
      exportsLength (object ++ rest) = object.length := by
  obtain rfl | rfl := h
  · have hnone : after? "module.".toList ("exports".toList ++ rest) = none := rfl
    rw [exportsObject?, exportsLength, ← isSome_after?, hnone]
    exact ⟨after?_eq_some_iff.mpr rfl, rfl⟩
  · have hsome : after? "module.".toList ("module.exports".toList ++ rest) =
        some ("exports".toList ++ rest) := after?_eq_some_iff.mpr rfl
    rw [exportsObject?, exportsLength, ← isSome_after?, hsome]
    exact ⟨after?_eq_some_iff.mpr rfl, rfl⟩

theorem exists_object_of_exportsObject? (h : exportsObject? s = some rest) :
    ∃ object, IsExportsObject object ∧ s = object ++ rest := by
  unfold exportsObject? at h
  split at h
  · next r hr =>
    refine ⟨"module.exports".toList, .inr rfl, ?_⟩
    rw [after?_eq_some_iff.mp hr, after?_eq_some_iff.mp h]
    rfl
  · exact ⟨"exports".toList, .inl rfl, after?_eq_some_iff.mp h⟩

/-! ## Assignments -/

/-- An assignment to a property of `exports`, up to its equals sign. -/
structure Assignment where
  object : List Char
  name : List Char
  gap : List Char
  isObject : IsExportsObject object
  named : name ≠ []
  isName : ∀ c ∈ name, isNamePart c = true
  blank : AllBlank gap

namespace Assignment

variable (a b : Assignment)

/-- What is assigned to. -/
def target : List Char := a.object ++ '.' :: a.name

def text : List Char := a.target ++ (a.gap ++ ['='])

theorem text_append (rest : List Char) :
    a.text ++ rest = a.object ++ '.' :: (a.name ++ (a.gap ++ '=' :: rest)) := by
  simp [text, target]

theorem takeWhile_gap (rest : List Char) :
    (a.gap ++ '=' :: rest).takeWhile isNamePart = [] := by
  cases hg : a.gap with
  | nil => rfl
  | cons d gap =>
    have hd := isNamePart_of_isBlank (a.blank d (by simp [hg]))
    rw [List.cons_append, List.takeWhile_cons_of_neg (by simp [hd])]

theorem assignedName?_text {c : Char} (hc : c ≠ '=') (back : List Char) :
    assignedName? (a.text ++ c :: back) = some (a.name, a.text.length + 1) := by
  obtain ⟨hobject, hlength⟩ :=
    exportsObject?_append a.isObject ('.' :: (a.name ++ (a.gap ++ '=' :: c :: back)))
  have hname := namePart?_append a.named a.isName (a.takeWhile_gap (c :: back))
  have htrim : trimStart (a.gap ++ '=' :: c :: back) = '=' :: c :: back := by
    rw [trimStart_append_of_blank a.blank]
    exact trimStart_of_not_blank (by decide) _
  have hcount := blankCount_append a.blank (by decide : isBlank '=' = false) (c :: back)
  have hlen : a.text.length = a.object.length + 1 + a.name.length + a.gap.length + 1 := by
    simp only [text, target, List.length_append, List.length_cons, List.length_nil]
    omega
  rw [text_append, assignedName?, hobject]
  simp only [Option.bind_eq_bind, Option.bind_some, after?_cons, after?_nil, if_true, hname, htrim,
    hc, if_false, hlength, hcount, hlen, Option.pure_def]

end Assignment

theorem exists_assignment_of_assignedName? (h : assignedName? s = some (name, length)) :
    ∃ (a : Assignment) (c : Char) (back : List Char), s = a.text ++ c :: back ∧ c ≠ '=' ∧
      name = a.name ∧ length = a.text.length + 1 := by
  unfold assignedName? at h
  obtain ⟨afterObject, hobject, h⟩ := Option.bind_eq_some_iff.mp h
  obtain ⟨afterDot, hdot, h⟩ := Option.bind_eq_some_iff.mp h
  obtain ⟨⟨found, rest⟩, hname, h⟩ := Option.bind_eq_some_iff.mp h
  obtain ⟨value, hvalue, h⟩ := Option.bind_eq_some_iff.mp h
  obtain ⟨object, hknown, rfl⟩ := exists_object_of_exportsObject? hobject
  obtain rfl := after?_eq_some_iff.mp hdot
  obtain ⟨rfl, hne, hpart, -⟩ := eq_append_of_namePart? hname
  obtain ⟨gap, hgap, hrest⟩ := exists_trimStart rest
  rw [after?_eq_some_iff.mp hvalue] at hrest
  cases value with
  | nil => cases h
  | cons c back =>
    let a : Assignment := ⟨object, found, gap, hknown, hne, hpart, hgap⟩
    have htext : object ++ (['.'] ++ (found ++ rest)) = a.text ++ c :: back := by
      rw [a.text_append, hrest]
      rfl
    have hc : c ≠ '=' := by
      rintro rfl
      cases h
    have hfound : assignedName? (a.text ++ c :: back) = some (name, length) := by
      rw [← htext, assignedName?, hobject]
      simpa only [Option.bind_eq_bind, Option.bind_some, hdot, hname, hvalue] using h
    rw [a.assignedName?_text hc] at hfound
    cases hfound
    exact ⟨a, c, back, htext, hc, rfl, rfl⟩

/-! ## Overlaps -/

theorem exists_mid_of_append_cons {α : Type} {l l' r r' : List α} {x y : α}
    (h : l ++ x :: r = l' ++ y :: r') (hlt : l'.length < l.length) :
    ∃ mid, l = l' ++ y :: mid ∧ r' = mid ++ x :: r := by
  obtain ⟨more, hl, -⟩ | ⟨more, hl, hmore⟩ := List.append_eq_append_iff.mp h
  · rw [hl, List.length_append] at hlt
    omega
  · cases more with
    | nil => rw [hl, List.append_nil] at hlt; omega
    | cons z more =>
      rw [List.cons_append] at hmore
      obtain ⟨rfl, hr⟩ := List.cons.inj hmore
      exact ⟨more, hl, hr⟩

theorem isApart_eq_false (h : isNamePart c = true) : isApart c = false := by
  rw [isApart, h, Bool.not_true, Bool.false_and]

namespace Assignment

variable {a b : Assignment}

theorem isApart_of_mem_target (h : c ∈ a.target) : isApart c = false := by
  rcases List.mem_append.mp h with h | h
  · have hobject : ∀ d ∈ a.object, isApart d = false := by
      rcases a.isObject with ho | ho
      · rw [ho]
        decide
      · rw [ho]
        decide
    exact hobject c h
  · rcases List.mem_cons.mp h with rfl | h
    · decide
    · exact isApart_eq_false (a.isName c h)

theorem exists_text_eq_cons (a : Assignment) : ∃ d r, a.text = d :: r ∧ isNamePart d = true := by
  rw [← List.append_nil a.text, text_append]
  rcases a.isObject with ho | ho
  · rw [ho]
    exact ⟨'e', _, rfl, by decide⟩
  · rw [ho]
    exact ⟨'m', _, rfl, by decide⟩

theorem not_isNamePart_of_mem_gap (h : c ∈ a.gap ++ ['=']) : isNamePart c = false := by
  rcases List.mem_append.mp h with h | h
  · exact isNamePart_of_isBlank (a.blank c h)
  · rw [List.mem_singleton.mp h]
    decide

/-- Behind a character that is apart nothing of an assignment starts another one but the character
after its equals sign. -/
theorem eq_of_overlap {within after behind : List Char} {d e : Char} (hd : isApart d = true)
    (h : b.text ++ e :: after = within ++ d :: (a.text ++ behind))
    (hlen : within.length ≤ b.text.length) : within ++ [d] = b.text ∨ within = b.text ∧ d = e := by
  obtain hlen | hlen := Nat.eq_or_lt_of_le hlen
  · obtain ⟨hw, hde⟩ := List.append_inj h hlen.symm
    exact .inr ⟨hw.symm, (List.cons.inj hde).1.symm⟩
  · left
    obtain ⟨tail, htext, hstart⟩ := exists_mid_of_append_cons h hlen
    cases tail with
    | nil => exact htext.symm
    | cons f tail =>
      -- The other assignment would start with `f`, which is neither in the target nor behind it.
      exfalso
      obtain ⟨g, r, ha, hg⟩ := a.exists_text_eq_cons
      have hfg : g = f := by
        rw [ha] at hstart
        exact (List.cons.inj hstart).1
      obtain ⟨more, hw, hmore⟩ | ⟨more, ht, -⟩ := List.append_eq_append_iff.mp
        (show b.target ++ (b.gap ++ ['=']) = (within ++ [d]) ++ f :: tail by
          rw [List.append_assoc]
          exact htext)
      · have hf : f ∈ b.gap ++ ['='] := by simp [hmore]
        rw [← hfg] at hf
        rw [not_isNamePart_of_mem_gap hf] at hg
        cases hg
      · have hmem : d ∈ b.target := by simp [ht]
        rw [isApart_of_mem_target hmem] at hd
        cases hd

end Assignment

/-! ## Where assignments are found -/

/-- The text has an assignment behind `front`, which ends apart from it. What follows the equals
sign makes no comparison of it. -/
def AssignedAt (s front : List Char) (a : Assignment) : Prop :=
  (∀ d ∈ front.getLast?, isApart d = true) ∧ ∃ c back, s = front ++ (a.text ++ c :: back) ∧ c ≠ '='

theorem apart_iff_exists_concat : (∀ d ∈ front.getLast?, isApart d = true) ↔
    ∃ pre d, '\n' :: front = pre ++ [d] ∧ isApart d = true := by
  constructor
  · intro h
    rcases List.eq_nil_or_concat' front with rfl | ⟨pre, d, rfl⟩
    · exact ⟨[], '\n', rfl, by decide⟩
    · exact ⟨'\n' :: pre, d, rfl, h d List.getLast?_concat⟩
  · rintro ⟨pre, d, hfront, hd⟩ e he
    have hne : front ≠ [] := by
      rintro rfl
      cases he
    have hlast : ('\n' :: front).getLast? = some d := by rw [hfront, List.getLast?_concat]
    rw [List.getLast?_cons_of_ne_nil hne, Option.mem_def.mp he] at hlast
    cases hlast
    exact hd

theorem assignedAfter?_text {a : Assignment} {d : Char} (hd : isApart d = true) (hc : c ≠ '=')
    (back : List Char) :
    assignedAfter? (d :: (a.text ++ c :: back)) = some ([a.name], a.text.length + 2) := by
  rw [assignedAfter?, if_pos hd, a.assignedName?_text hc]
  rfl

theorem exists_assignment_of_assignedAfter? {found : List (List Char)}
    (h : assignedAfter? s = some (found, length)) :
    ∃ (d : Char) (a : Assignment) (c : Char) (back : List Char), s = d :: (a.text ++ c :: back) ∧
      isApart d = true ∧ c ≠ '=' ∧ found = [a.name] ∧ length = a.text.length + 2 := by
  cases s with
  | nil => cases h
  | cons d r =>
    rw [assignedAfter?] at h
    by_cases hd : isApart d = true
    · rw [if_pos hd] at h
      obtain ⟨⟨name, len⟩, hname, he⟩ := Option.map_eq_some_iff.mp h
      obtain ⟨a, c, back, rfl, hc, rfl, rfl⟩ := exists_assignment_of_assignedName? hname
      cases he
      exact ⟨d, a, c, back, rfl, hd, hc, rfl, rfl⟩
    · rw [if_neg hd] at h
      cases h

/-- Every assignment is found, unless one that is found ends in the equals sign right before it, or
in the one before the single character between them. -/
theorem assignedNames_finds {a : Assignment} (h : AssignedAt s front a) :
    a.name ∈ assignedNames s ∨ ∃ before b between, AssignedAt s before b ∧
      b.name ∈ assignedNames s ∧ front = before ++ (b.text ++ between) ∧ between.length ≤ 1 := by
  obtain ⟨hfront, c, back, hs, hc⟩ := h
  obtain ⟨pre, d, hpre, hd⟩ := apart_iff_exists_concat.mp hfront
  have htext : '\n' :: s = pre ++ d :: (a.text ++ c :: back) := by
    rw [hs, ← List.cons_append, hpre, List.append_assoc, List.singleton_append]
  rw [assignedNames_eq, htext]
  obtain hin | ⟨pre', rest', found, len, hsplit, hmatch, hin, hlo, hhi⟩ :=
    scanFrom_finds (List.cons_ne_nil d _) (assignedAfter?_text hd hc back) (Nat.zero_le pre.length)
  · exact .inl (hin List.mem_cons_self)
  · right
    obtain ⟨d', b, e, after, rfl, hd', he, rfl, rfl⟩ := exists_assignment_of_assignedAfter? hmatch
    -- The text between the starts of both lies within the first one.
    obtain ⟨within, hwithin, hoverlap⟩ := exists_mid_of_append_cons hsplit hlo
    have hlen : within.length ≤ b.text.length := by
      rw [hwithin, List.length_append, List.length_cons] at hhi
      omega
    obtain ⟨before, hbefore⟩ : ∃ before, '\n' :: before = pre' ++ [d'] := by
      rw [hwithin] at hpre
      cases pre' with
      | nil => exact ⟨[], by rw [(List.cons.inj hpre).1]; rfl⟩
      | cons x pre' => exact ⟨pre' ++ [d'], by rw [(List.cons.inj hpre).1]; rfl⟩
    have hfrontEq : front = before ++ (within ++ [d]) := by
      have hcons : '\n' :: front = '\n' :: (before ++ (within ++ [d])) := by
        rw [hpre, hwithin, ← List.cons_append, hbefore]
        simp
      exact (List.cons.inj hcons).2
    refine ⟨before, b, ?_⟩
    have hat : AssignedAt s before b := by
      refine ⟨apart_iff_exists_concat.mpr ⟨pre', d', hbefore, hd'⟩, e, after, ?_, he⟩
      rw [hs, hfrontEq, hoverlap]
      simp
    have hname : b.name ∈ scanFrom assignedAfter? 0 (pre ++ d :: (a.text ++ c :: back)) :=
      hin List.mem_cons_self
    obtain heq | ⟨heq, -⟩ := Assignment.eq_of_overlap hd hoverlap hlen
    · exact ⟨[], hat, hname, by rw [hfrontEq, heq, List.append_nil], Nat.zero_le 1⟩
    · exact ⟨[d], hat, hname, by rw [hfrontEq, heq], Nat.le_refl 1⟩

/-! ## More text -/

namespace Assignment

theorem notMem_lead (a : Assignment) : '=' ∉ a.target ++ a.gap := by
  intro h
  rcases List.mem_append.mp h with h | h
  · exact absurd (isApart_of_mem_target h) (by decide)
  · exact absurd (a.blank '=' h) (by decide)

/-- An assignment has no equals sign but its last character, so none fits into a part of it. -/
theorem not_text_eq {a b : Assignment} {before after more : List Char} {e : Char} :
    a.text ≠ before ++ (b.text ++ e :: after) ++ more := by
  intro h
  have hsplit : (a.target ++ a.gap) ++ '=' :: [] =
      (before ++ (b.target ++ b.gap)) ++ '=' :: (e :: (after ++ more)) := by
    simpa [text] using h
  have hlt : (before ++ (b.target ++ b.gap)).length < (a.target ++ a.gap).length := by
    have hlen := congrArg List.length hsplit
    simp only [List.length_append, List.length_cons, List.length_nil] at hlen ⊢
    omega
  obtain ⟨mid, hlead, -⟩ := exists_mid_of_append_cons hsplit hlt
  exact a.notMem_lead (by rw [hlead]; simp)

end Assignment

theorem assignedAfter?_append {m : List (List Char) × Nat} (h : m ∈ assignedAfter? s)
    (more : List Char) : assignedAfter? (s ++ more) = some m := by
  obtain ⟨found, len⟩ := m
  obtain ⟨d, a, c, back, rfl, hd, hc, rfl, rfl⟩ := exists_assignment_of_assignedAfter? h
  have htext : d :: (a.text ++ c :: back) ++ more = d :: (a.text ++ c :: (back ++ more)) := by simp
  rw [htext, assignedAfter?_text hd hc]

theorem assignedNames_subset_append (s more : List Char) :
    assignedNames s ⊆ assignedNames (s ++ more) := by
  rw [assignedNames_eq, assignedNames_eq]
  refine scanFrom_subset_append (s := '\n' :: s) (fun s m hm => assignedAfter?_append hm more) ?_ 0
  intro c r hnone hsome
  obtain ⟨⟨found, len⟩, hmore⟩ := Option.ne_none_iff_exists'.mp hsome
  obtain ⟨d, a, e, back, hwhole, hd, he, -, -⟩ := exists_assignment_of_assignedAfter? hmore
  rw [List.cons_append] at hwhole
  obtain ⟨rfl, htext⟩ := List.cons.inj hwhole
  -- The assignment would end in the text, which then is a part of it.
  obtain ⟨tail, hr⟩ : ∃ tail, a.text = r ++ tail := by
    obtain ⟨tail, ha, -⟩ | ⟨tail, hr, htail⟩ := List.append_eq_append_iff.mp htext
    · exact ⟨tail, ha⟩
    · cases tail with
      | nil => exact ⟨[], by rw [hr, List.append_nil, List.append_nil]⟩
      | cons f tail =>
        rw [List.cons_append] at htail
        obtain ⟨rfl, -⟩ := List.cons.inj htail
        rw [hr, assignedAfter?_text hd he] at hnone
        cases hnone
  refine scanFrom_eq_nil 0 fun front rest hsplit _ => ?_
  by_contra hmatch
  obtain ⟨⟨found', len'⟩, hmatch⟩ := Option.ne_none_iff_exists'.mp hmatch
  obtain ⟨d', b, e', after, rfl, -, -, -, -⟩ := exists_assignment_of_assignedAfter? hmatch
  have hpart : a.text = (front ++ [d']) ++ (b.text ++ e' :: after) ++ tail := by
    rw [hr, hsplit]
    simp
  exact Assignment.not_text_eq hpart

end ModuleLoader.CommonJs
