import ModuleLoader.Proofs.Transpile.ListStatements

/-! A line comment behind a statement. What is read of a statement, its words, names and specifiers,
ends in front of the blanks that the comment begins with. -/

namespace ModuleLoader.Transpile

open Text

/-- A line comment and the blanks in front of it. -/
structure Comment where
  gap : List Char
  text : List Char
  blank : AllBlank gap
  apart : gap ≠ []

namespace Comment

/-- The comment without the blanks in front of it. -/
def mark (c : Comment) : List Char := '/' :: '/' :: c.text

def tail (c : Comment) : List Char := c.gap ++ c.mark

end Comment

/-! ## Words in front of a comment -/

section

variable {s rest lead name : List Char} {specifier : String} {c : Comment}

theorem Comment.tail_starts (c : Comment) : ∃ d r, c.tail = d :: r ∧ isBlank d = true := by
  obtain ⟨d, r, hd⟩ := List.exists_cons_of_ne_nil c.apart
  exact ⟨d, r ++ c.mark, by rw [tail, hd, List.cons_append], c.blank d (by rw [hd]; simp)⟩

theorem trimStart_append_tail (c : Comment) (h : trimStart s = []) :
    trimStart (s ++ c.tail) = c.mark := by
  rw [trimStart_append_of_blank (trimStart_eq_nil_iff.mp h), Comment.tail,
    trimStart_append_of_blank c.blank]
  exact trimStart_of_not_blank (by decide) _

/-- A word in front of a comment ends before it. -/
theorem after?_append_tail (hl : ∀ d ∈ lead, isBlank d = false) (s : List Char) :
    after? lead (s ++ c.tail) = (after? lead s).map (· ++ c.tail) := by
  induction lead generalizing s with
  | nil => rfl
  | cons a lead ih =>
    obtain ⟨ha, hlead⟩ := List.forall_mem_cons.mp hl
    cases s with
    | nil =>
      obtain ⟨d, r, hd, hblank⟩ := c.tail_starts
      have hne : a ≠ d := by
        rintro rfl
        rw [ha] at hblank
        cases hblank
      simp [hd, after?_cons, hne]
    | cons d s =>
      rw [List.cons_append, after?_cons, after?_cons]
      by_cases had : a = d
      · rw [if_pos had, if_pos had]
        exact ih hlead s
      · rw [if_neg had, if_neg had]
        rfl

theorem takeWhile_append_tail {p : Char → Bool} (hp : ∀ d, isBlank d = true → p d = false)
    (c : Comment) (s : List Char) : (s ++ c.tail).takeWhile p = s.takeWhile p ∧
      (s ++ c.tail).dropWhile p = s.dropWhile p ++ c.tail := by
  induction s with
  | nil =>
    obtain ⟨d, r, hd, hblank⟩ := c.tail_starts
    simp [hd, hp d hblank]
  | cons d s ih => cases hd : p d <;> simp [hd, ih]

theorem takeName?_append_tail (c : Comment) (s : List Char) : takeName? (s ++ c.tail) =
    (takeName? s).map fun (name, rest) => (name, rest ++ c.tail) := by
  cases s with
  | nil =>
    obtain ⟨d, r, hd, hblank⟩ := c.tail_starts
    have hstart : isNameStart d = false :=
      (Bool.or_eq_false_iff.mp (isAsciiNamePart_of_isBlank hblank)).1
    simp [hd, takeName?, hstart]
  | cons d s =>
    obtain ⟨htake, hdrop⟩ := takeWhile_append_tail (fun _ => isNamePart_of_isBlank) c s
    by_cases hd : isNameStart d = true
    · simp [takeName?, hd, htake, hdrop]
    · simp [takeName?, hd]

theorem blanks?_append_tail (c : Comment) (hs : s ≠ []) : blanks? (s ++ c.tail) =
    (blanks? s).map fun _ => trimStart (s ++ c.tail) := by
  obtain ⟨d, r, rfl⟩ := List.exists_cons_of_ne_nil hs
  by_cases hd : isBlank d = true
  · simp [blanks?, hd]
  · simp [blanks?, hd]

theorem blanks?_tail (c : Comment) : blanks? c.tail = some c.mark := by
  obtain ⟨d, r, hd, hblank⟩ := c.tail_starts
  have hmark := trimStart_append_tail (s := []) c rfl
  rw [List.nil_append, hd] at hmark
  rw [hd, blanks?, if_pos hblank, hmark]

theorem eq_trimStart_of_blanks? (h : blanks? s = some rest) : rest = trimStart s := by
  cases s with
  | nil => cases h
  | cons d r =>
    rw [blanks?] at h
    split at h
    · exact (Option.some.inj h).symm
    · cases h

/-- What follows blanks goes on with the comment, or is nothing else. -/
theorem blanks?_append_tail_of_some (c : Comment) (h : blanks? s = some rest) :
    ∃ behind, (behind = c.tail ∨ rest = [] ∧ behind = c.mark) ∧
      blanks? (s ++ c.tail) = some (rest ++ behind) := by
  have hs : s ≠ [] := by
    rintro rfl
    cases h
  have hrest := eq_trimStart_of_blanks? h
  rw [blanks?_append_tail c hs, h, Option.map_some]
  by_cases hnil : trimStart s = []
  · exact ⟨c.mark, .inr ⟨hrest.trans hnil, rfl⟩, by rw [trimStart_append_tail c hnil, hrest, hnil]; rfl⟩
  · exact ⟨c.tail, .inl rfl, by rw [trimStart_append_of_ne_nil hnil, hrest]⟩

/-- What follows some blanks, a mark that may be there, and blanks behind it. -/
def skip (m : Char) (s : List Char) : List Char :=
  match trimStart s with
  | [] => []
  | d :: r => if d = m then trimStart r else d :: r

theorem skip_append_tail (c : Comment) {m : Char} (hm : m ≠ '/') (s : List Char) :
    (skip m s = [] ∧ skip m (s ++ c.tail) = c.mark) ∨
      (skip m s ≠ [] ∧ skip m (s ++ c.tail) = skip m s ++ c.tail) := by
  by_cases hs : trimStart s = []
  · refine .inl ⟨by rw [skip, hs], ?_⟩
    rw [skip, trimStart_append_tail c hs]
    exact if_neg (Ne.symm hm)
  · obtain ⟨d, r, hr⟩ := List.exists_cons_of_ne_nil hs
    rw [skip, skip, trimStart_append_of_ne_nil hs, hr, List.cons_append]
    dsimp only
    by_cases hd : d = m
    · rw [if_pos hd, if_pos hd]
      by_cases hnil : trimStart r = []
      · exact .inl ⟨hnil, trimStart_append_tail c hnil⟩
      · exact .inr ⟨hnil, trimStart_append_of_ne_nil hnil _⟩
    · rw [if_neg hd, if_neg hd]
      exact .inr ⟨List.cons_ne_nil d r, rfl⟩

theorem endsStatement_eq_skip (s : List Char) :
    endsStatement s = ((skip ';' s).isEmpty || startsWith ['/', '/'] (skip ';' s)) := by
  rw [endsStatement, skip]
  cases trimStart s with
  | nil => rfl
  | cons d r => by_cases hd : d = ';' <;> simp [hd]

/-- What ends a statement may go on with a comment, and nothing else becomes an end by it. -/
theorem endsStatement_append_tail (c : Comment) (s : List Char) :
    endsStatement (s ++ c.tail) = endsStatement s := by
  rw [endsStatement_eq_skip, endsStatement_eq_skip]
  obtain ⟨hnil, happend⟩ | ⟨hne, happend⟩ := skip_append_tail c (m := ';') (by decide) s
  · rw [hnil, happend]
    rfl
  · obtain ⟨d, r, hr⟩ := List.exists_cons_of_ne_nil hne
    have hlead : after? ['/', '/'] (skip ';' s ++ c.tail) = _ := after?_append_tail (by decide) _
    rw [happend, ← isSome_after?, hlead, Option.isSome_map, isSome_after?, hr]
    rfl

/-! ## Specifiers -/

theorem countP_quotes_trimStart (s : List Char) :
    (trimStart s).countP isQuoteMark = s.countP isQuoteMark := by
  obtain ⟨front, hf, hs⟩ := exists_trimStart s
  have hzero : front.countP isQuoteMark = 0 := by
    refine List.countP_eq_zero.mpr fun d hd => ?_
    simp [isQuoteMark_of_isBlank (hf d hd)]
  nth_rewrite 2 [hs]
  rw [List.countP_append, hzero, Nat.zero_add]

theorem trimStart_ne_nil_of_quotes (h : 2 ≤ s.countP isQuoteMark) : trimStart s ≠ [] := by
  intro hnil
  rw [← countP_quotes_trimStart, hnil] at h
  simp at h

theorem countP_quotes_of_after? (h : after? lead s = some rest) :
    rest.countP isQuoteMark ≤ s.countP isQuoteMark := by
  rw [after?_eq_some_iff.mp h, List.countP_append]
  exact Nat.le_add_left _ _

theorem exists_quote (h : 0 < s.countP isQuoteMark) : ∃ front q back, s = front ++ q :: back ∧
    isQuoteMark q = true ∧ ∀ d ∈ front, (!isQuoteMark d) = true := by
  induction s with
  | nil => simp at h
  | cons d s ih =>
    by_cases hd : isQuoteMark d = true
    · exact ⟨[], d, s, rfl, hd, by simp⟩
    · rw [List.countP_cons_of_neg hd] at h
      obtain ⟨front, q, back, rfl, hq, hf⟩ := ih h
      exact ⟨d :: front, q, back, rfl, hq, List.forall_mem_cons.mpr ⟨by simp [hd], hf⟩⟩

/-- A text with two quotes is read as one with a specifier in it, whatever it goes on with. -/
theorem specifier?_append (h : 2 ≤ s.countP isQuoteMark) (t : List Char) : specifier? (s ++ t) =
    (specifier? s).map fun (specifier, rest) => (specifier, rest ++ t) := by
  cases s with
  | nil => simp at h
  | cons q r =>
    by_cases hq : isQuoteMark q = true
    · rw [List.countP_cons_of_pos hq] at h
      have hpos : 0 < r.countP isQuoteMark := by omega
      obtain ⟨front, d, back, rfl, hd, hf⟩ := exists_quote hpos
      have hread (back : List Char) : specifier? (q :: (front ++ d :: back)) =
          match front with
          | [] => none
          | e :: text => some (String.ofList (e :: text), back) := by
        have htake : (front ++ d :: back).takeWhile (!isQuoteMark ·) = front := by
          rw [List.takeWhile_append_of_pos hf]
          simp [hd]
        have hdrop : (front ++ d :: back).dropWhile (!isQuoteMark ·) = d :: back := by
          rw [List.dropWhile_append_of_pos hf]
          simp [hd]
        rw [specifier?, if_pos hq, htake, hdrop]
        cases front <;> rfl
      have htext : q :: (front ++ d :: back) ++ t = q :: (front ++ d :: (back ++ t)) := by simp
      rw [htext, hread, hread]
      cases front <;> rfl
    · simp [specifier?, hq]

theorem two_quotes_of_specifier? (h : specifier? s = some (specifier, rest)) :
    2 ≤ s.countP isQuoteMark := by
  cases s with
  | nil => cases h
  | cons q r =>
    by_cases hq : isQuoteMark q = true
    · rw [List.countP_cons_of_pos hq]
      refine Nat.succ_le_succ (Nat.pos_of_ne_zero fun hzero => ?_)
      have hplain : ∀ d ∈ r, (!isQuoteMark d) = true := by
        simpa using List.countP_eq_zero.mp hzero
      have hdrop : r.dropWhile (!isQuoteMark ·) = [] := List.dropWhile_eq_nil_iff.mpr hplain
      rw [specifier?, if_pos hq, hdrop] at h
      simp at h
    · simp [specifier?, hq] at h

theorem finalSpecifier?_append_tail (c : Comment) (h : 2 ≤ s.countP isQuoteMark) :
    finalSpecifier? (s ++ c.tail) = finalSpecifier? s := by
  have hne := trimStart_ne_nil_of_quotes h
  rw [← countP_quotes_trimStart] at h
  rw [finalSpecifier?, finalSpecifier?, trimStart_append_of_ne_nil hne, specifier?_append h]
  cases hs : specifier? (trimStart s) with
  | none => rfl
  | some found =>
    obtain ⟨specifier, rest⟩ := found
    have hends := endsStatement_append_tail c rest
    simp [hends]

theorem two_quotes_of_finalSpecifier? (h : finalSpecifier? s = some specifier) :
    2 ≤ s.countP isQuoteMark := by
  obtain ⟨⟨found, rest⟩, hs, -⟩ := Option.bind_eq_some_iff.mp h
  rw [← countP_quotes_trimStart]
  exact two_quotes_of_specifier? hs

theorem fromSpecifier?_append_tail (c : Comment) (h : 2 ≤ s.countP isQuoteMark) :
    fromSpecifier? (s ++ c.tail) = fromSpecifier? s := by
  have hne := trimStart_ne_nil_of_quotes h
  rw [← countP_quotes_trimStart] at h
  rw [fromSpecifier?, fromSpecifier?, trimStart_append_of_ne_nil hne,
    after?_append_tail (by decide)]
  cases hs : after? "from".toList (trimStart s) with
  | none => rfl
  | some rest =>
    have hword : "from".toList.countP isQuoteMark = 0 := by decide
    rw [after?_eq_some_iff.mp hs, List.countP_append, hword, Nat.zero_add] at h
    exact finalSpecifier?_append_tail c h

theorem two_quotes_of_fromSpecifier? (h : fromSpecifier? s = some specifier) :
    2 ≤ s.countP isQuoteMark := by
  obtain ⟨rest, hr, hs⟩ := Option.bind_eq_some_iff.mp h
  rw [← countP_quotes_trimStart]
  exact (two_quotes_of_finalSpecifier? hs).trans (countP_quotes_of_after? hr)

/-! ## Imports -/

theorem two_quotes_of_clauseBeforeFrom? {found : List Char × String}
    (h : clauseBeforeFrom? s = some found) : 2 ≤ s.countP isQuoteMark := by
  induction s generalizing found with
  | nil => cases h
  | cons d r ih =>
    have hrest : 2 ≤ r.countP isQuoteMark := by
      cases hr : fromSpecifier? r with
      | some specifier => exact two_quotes_of_fromSpecifier? hr
      | none =>
        rw [clauseBeforeFrom?, hr] at h
        obtain ⟨later, hl, -⟩ := Option.map_eq_some_iff.mp h
        exact ih hl
    exact hrest.trans (List.sublist_cons_self d r).countP_le

theorem clauseBeforeFrom?_append_tail (c : Comment) {found : List Char × String}
    (h : clauseBeforeFrom? s = some found) : clauseBeforeFrom? (s ++ c.tail) = some found := by
  induction s generalizing found with
  | nil => cases h
  | cons d r ih =>
    rw [clauseBeforeFrom?] at h
    rw [List.cons_append, clauseBeforeFrom?]
    cases hr : fromSpecifier? r with
    | some specifier =>
      rw [hr] at h
      rw [fromSpecifier?_append_tail c (two_quotes_of_fromSpecifier? hr), hr]
      exact h
    | none =>
      rw [hr] at h
      obtain ⟨later, hl, hfound⟩ := Option.map_eq_some_iff.mp h
      rw [fromSpecifier?_append_tail c (two_quotes_of_clauseBeforeFrom? hl), hr, ih hl]
      exact congrArg some hfound

theorem importStatement?_append_tail (c : Comment) {st : Statement}
    (h : importStatement? s = some st) : importStatement? (s ++ c.tail) = some st := by
  cases hs : finalSpecifier? s with
  | some specifier =>
    rw [importStatement?, hs] at h
    rw [importStatement?, finalSpecifier?_append_tail c (two_quotes_of_finalSpecifier? hs), hs]
    exact h
  | none =>
    rw [importStatement?, hs] at h
    obtain ⟨r, hr, hrest⟩ := Option.bind_eq_some_iff.mp h
    obtain ⟨found, hf, hclause⟩ := Option.bind_eq_some_iff.mp hrest
    have hquotes := two_quotes_of_clauseBeforeFrom? hf
    obtain ⟨behind, hb, happend⟩ := blanks?_append_tail_of_some c hr
    obtain rfl : behind = c.tail := hb.resolve_right fun hnil => by
      rw [hnil.1] at hquotes
      simp at hquotes
    have hcount : 2 ≤ s.countP isQuoteMark := by
      rwa [← countP_quotes_trimStart, ← eq_trimStart_of_blanks? hr]
    rw [importStatement?, finalSpecifier?_append_tail c hcount, hs]
    show importFrom? _ = _
    rw [importFrom?, happend]
    show (clauseBeforeFrom? _).bind _ = _
    rw [clauseBeforeFrom?_append_tail c hf]
    exact hclause

/-! ## Declared functions and classes -/

theorem keyword?_append_tail (c : Comment) {word : List Char} (hw : ∀ d ∈ word, isBlank d = false)
    (s : List Char) : keyword? word (s ++ c.tail) = (keyword? word s).map (· ++ c.tail) := by
  rw [keyword?, keyword?, after?_append_tail hw]
  cases after? word s with
  | none => rfl
  | some rest =>
    cases rest with
    | nil =>
      obtain ⟨d, r, hd, hblank⟩ := c.tail_starts
      have hword : isWord d = false := (Bool.or_eq_false_iff.mp (isNamePart_of_isBlank hblank)).1
      simp [hd, hword]
    | cons d r =>
      by_cases hd : isWord d = true
      · simp [hd]
      · simp [hd]

/-- The name behind `function` and the star of a generator. -/
def functionPart? (s : List Char) : Option (List Char) :=
  (keyword? "function".toList s).bind fun rest => (takeName? (skip '*' rest)).map Prod.fst

theorem functionPart?_eq (s : List Char) : functionPart? s = (do
    let rest ← keyword? "function".toList s
    let found ← takeName? (match trimStart rest with
      | '*' :: r => trimStart r
      | r => r)
    return found.1) := by
  refine congrArg (keyword? "function".toList s).bind (funext fun rest => ?_)
  rw [Option.map_eq_bind, skip]
  cases trimStart rest with
  | nil => rfl
  | cons d r =>
    dsimp only
    split
    · next hd =>
      subst hd
      rfl
    · next hd =>
      split
      · next h => exact absurd (List.cons.inj h).1 hd
      · rfl

theorem functionName?_eq (s : List Char) : functionName? s =
    match after? "async".toList s with
    | some rest => (blanks? rest).bind functionPart?
    | none => functionPart? s := by
  rw [functionName?]
  cases after? "async".toList s with
  | some rest =>
    exact congrArg (blanks? rest).bind (funext fun s => (functionPart?_eq s).symm)
  | none => exact (functionPart?_eq s).symm

theorem functionPart?_append_tail (c : Comment) (s : List Char) :
    functionPart? (s ++ c.tail) = functionPart? s := by
  rw [functionPart?, functionPart?, keyword?_append_tail c (by decide)]
  cases keyword? "function".toList s with
  | none => rfl
  | some rest =>
    show (takeName? (skip '*' (rest ++ c.tail))).map Prod.fst = (takeName? (skip '*' rest)).map _
    obtain ⟨hnil, happend⟩ | ⟨-, happend⟩ := skip_append_tail c (m := '*') (by decide) rest
    · rw [hnil, happend]
      rfl
    · rw [happend, takeName?_append_tail, Option.map_map]
      rfl

/-- Where blanks are followed by something that a comment does not change. -/
theorem blanks?_bind_append_tail {α : Type} {f : List Char → Option α} (c : Comment)
    (hf : ∀ s, f (s ++ c.tail) = f s) (hnil : f [] = none) (hmark : f c.mark = none)
    (s : List Char) : (blanks? (s ++ c.tail)).bind f = (blanks? s).bind f := by
  by_cases hs : s = []
  · rw [hs, List.nil_append, blanks?_tail]
    exact hmark
  · rw [blanks?_append_tail c hs]
    cases hb : blanks? s with
    | none => rfl
    | some rest =>
      rw [Option.map_some, Option.bind_some, Option.bind_some, eq_trimStart_of_blanks? hb]
      by_cases hrest : trimStart s = []
      · rw [trimStart_append_tail c hrest, hmark, hrest, hnil]
      · rw [trimStart_append_of_ne_nil hrest, hf]

theorem functionName?_append_tail (c : Comment) (s : List Char) :
    functionName? (s ++ c.tail) = functionName? s := by
  rw [functionName?_eq, functionName?_eq, after?_append_tail (by decide)]
  cases after? "async".toList s with
  | none => exact functionPart?_append_tail c s
  | some rest => exact blanks?_bind_append_tail c (functionPart?_append_tail c) rfl rfl rest

theorem className?_eq (s : List Char) : className? s =
    (after? "class".toList s).bind fun rest =>
      (blanks? rest).bind fun r => (takeName? r).map Prod.fst := by
  simp only [className?, Option.map_eq_bind]
  rfl

theorem className?_append_tail (c : Comment) (s : List Char) :
    className? (s ++ c.tail) = className? s := by
  rw [className?_eq, className?_eq, after?_append_tail (by decide)]
  cases after? "class".toList s with
  | none => rfl
  | some rest =>
    refine blanks?_bind_append_tail c (fun r => ?_) rfl rfl rest
    rw [takeName?_append_tail, Option.map_map]
    rfl

end

end ModuleLoader.Transpile
