import ModuleLoader.Proofs.Transpile.Patterns
import ModuleLoader.Proofs.Transpile.Texts

/-! The names that declarators bind do not depend on what trails the last of them, as long as it has
no comma and begins in a character that ends a name. -/

namespace ModuleLoader.Transpile

open Text Nesting

/-! ## What trails a binding -/

/-- A character that is no part of a name, opens no pattern and is no separator. -/
def isStop (c : Char) : Bool := c == ';' || c == '/' || c == '\x7d' || c == ']'

/-- A text without commas whose first character that is no blank is a stop, if it has one. It may
have colons only if `colons` is set. -/
structure Trail (colons : Bool) (t : List Char) : Prop where
  head : ∀ c r, trimStart t = c :: r → isStop c = true
  chars : ∀ c ∈ t, c ≠ ',' ∧ (c = ':' → colons = true)

section

variable {colons : Bool} {s t front rest : List Char} {c close : Char}

namespace Trail

theorem nil : Trail colons [] := ⟨by simp, by simp⟩

theorem of_isPrefix (h : Trail colons t) (hp : s <+: t) : Trail colons s := by
  obtain ⟨u, rfl⟩ := hp
  refine ⟨fun c r hs => h.head c (r ++ u) ?_, fun c hc => h.chars c (List.mem_append_left _ hc)⟩
  rw [trimStart, List.dropWhile_append]
  have hne : (s.dropWhile isBlank).isEmpty = false := by
    rw [show s.dropWhile isBlank = c :: r from hs]
    rfl
  rw [if_neg (by simp [hne]), show s.dropWhile isBlank = c :: r from hs]
  rfl

theorem trimStart (h : Trail colons t) : Trail colons (Text.trimStart t) := by
  obtain ⟨front, hf, ht⟩ := exists_trimStart t
  refine ⟨fun c r hs => h.head c r ?_, fun c hc => h.chars c ?_⟩
  · rw [ht, trimStart_append_of_blank hf]
    exact hs
  · rw [ht]
    exact List.mem_append_right _ hc

theorem blank_append (hf : AllBlank front) (h : Trail colons t) : Trail colons (front ++ t) := by
  refine ⟨fun c r hs => h.head c r ?_, fun c hc => ?_⟩
  · rwa [trimStart_append_of_blank hf] at hs
  · rcases List.mem_append.mp hc with hc | hc
    · obtain ⟨hcomma, hcolon, -⟩ := (plain_of_isBlank (hf c hc)).1
      exact ⟨hcomma, fun he => absurd he hcolon⟩
    · exact h.chars c hc

theorem isBlank_of_isStop (h : isStop c = true) : isBlank c = false := by
  simp only [isStop, Bool.or_eq_true, beq_iff_eq] at h
  rcases h with ((rfl | rfl) | rfl) | rfl <;> decide

theorem cons_stop (hc : isStop c = true) (ht : ∀ c ∈ t, c ≠ ',' ∧ (c = ':' → colons = true)) :
    Trail colons (c :: t) := by
  refine ⟨fun d r hs => ?_, List.forall_mem_cons.mpr ⟨?_, ht⟩⟩
  · rw [trimStart_of_not_blank (isBlank_of_isStop hc)] at hs
    exact (List.cons.inj hs).1 ▸ hc
  · have hne : c ≠ ',' ∧ c ≠ ':' := by
      constructor <;> (rintro rfl; exact absurd hc (by decide))
    exact ⟨hne.1, fun he => absurd he hne.2⟩

theorem append (hf : ∀ c ∈ front, isBlank c = true ∨ isStop c = true) (h : Trail colons t) :
    Trail colons (front ++ t) := by
  induction front with
  | nil => exact h
  | cons c front ih =>
    obtain ⟨hc, hfront⟩ := List.forall_mem_cons.mp hf
    have ht := ih hfront
    rcases hc with hb | hs
    · have hblank : AllBlank [c] := by simpa [AllBlank] using hb
      have hall : Trail colons ([c] ++ (front ++ t)) := ht.blank_append hblank
      exact hall
    · exact .cons_stop hs ht.chars

/-- What trails a binding ends a name, belongs to no operator and opens no pattern. -/
theorem head_facts (h : Trail colons (c :: t)) :
    isAsciiNamePart c = false ∧ c ≠ '.' ∧ c ≠ '=' ∧ c ≠ '>' ∧ c ≠ '\x7b' ∧ c ≠ '[' := by
  by_cases hb : isBlank c = true
  · have hpart : isAsciiNamePart c = false := by
      rw [Bool.eq_false_iff]
      intro hp
      rw [(plain_of_isAsciiNamePart hp).1] at hb
      cases hb
    have hne {d : Char} (hd : isBlank d = false) : c ≠ d := by
      rintro rfl
      rw [hd] at hb
      cases hb
    exact ⟨isAsciiNamePart_of_isBlank hb, hne (by decide), hne (by decide), hne (by decide), hne (by decide),
      hne (by decide)⟩
  · have hs := h.head c t (trimStart_of_not_blank (by simpa using hb) t)
    simp only [isStop, Bool.or_eq_true, beq_iff_eq] at hs
    rcases hs with ((rfl | rfl) | rfl) | rfl <;> decide

end Trail

/-! ## Trimming and cutting -/

theorem trim_append_trail (ht : Trail colons t) (s : List Char) :
    ∃ u, Trail colons u ∧ trim (s ++ t) = trim s ++ u := by
  by_cases hs : trimStart s = []
  · have hblank := trimStart_eq_nil_iff.mp hs
    refine ⟨trim t, ht.trimStart.of_isPrefix (trimEnd_isPrefix _), ?_⟩
    rw [trim, trimStart_append_of_blank hblank, trim_eq_nil_iff.mpr hblank]
    rfl
  · obtain ⟨w, hw, hv⟩ := exists_trimEnd (trimStart s)
    have hne : trimEnd (trimStart s) ≠ [] := fun h => by
      obtain ⟨c, r, hr, hc⟩ := starts_trimStart hs
      rw [trimEnd_eq_nil_iff.mp h c (by simp [hr])] at hc
      cases hc
    have hends := ends_trimEnd hne
    refine ⟨trimEnd (w ++ t), (ht.blank_append hw).of_isPrefix (trimEnd_isPrefix _), ?_⟩
    obtain ⟨front, c, hf, hc⟩ := hends
    rw [trim, trimStart_append_of_ne_nil hs, hv, List.append_assoc, hf, trim, hf, List.append_assoc, List.singleton_append,
      trimEnd_append_cons hc, List.append_assoc]
    rfl

/-! ## Cutting at the top -/

theorem eq_of_cutTopFrom? {ch : Char} {n : Nesting} {before : Option Char}
    (h : cutTopFrom? ch n before s = some (front, rest)) : s = front ++ ch :: rest := by
  induction s generalizing n before front with
  | nil => cases h
  | cons c r ih =>
    rw [cutTopFrom?] at h
    split at h
    · next hcut =>
      cases h
      simp only [Bool.and_eq_true, beq_iff_eq] at hcut
      rw [hcut.1.2]
      rfl
    · obtain ⟨⟨front', rest'⟩, hr, he⟩ := Option.map_eq_some_iff.mp h
      cases he
      rw [ih hr]
      rfl

/-- A cut stays where it is when a text goes on, unless it goes on with the rest of an operator. -/
theorem cutTopFrom?_append {ch : Char} {n : Nesting} {before : Option Char}
    (ht : ch = '=' → ∀ c ∈ t.head?, c ≠ '=' ∧ c ≠ '>') :
    cutTopFrom? ch n before (s ++ t) = match cutTopFrom? ch n before s with
      | some (front, rest) => some (front, rest ++ t)
      | none => (cutTopFrom? ch (n.run s) (s.getLast?.or before) t).map fun (front, rest) =>
        (s ++ front, rest) := by
  induction s generalizing n before with
  | nil => 
    simp [cutTopFrom?]
  | cons c r ih =>
    have hop : (ch == '=' && isOperatorPart before (r ++ t).head?) =
        (ch == '=' && isOperatorPart before r.head?) := by
      cases r with
      | cons d r => rfl
      | nil =>
        by_cases hch : ch = '='
        · cases t with
          | nil => rfl
          | cons d t =>
            obtain ⟨he, hg⟩ := ht hch d rfl
            have he' : (d == '=') = false := beq_false_of_ne he
            have hg' : (d == '>') = false := beq_false_of_ne hg
            simp [isOperatorPart, he', hg']
        · have hch' : (ch == '=') = false := beq_false_of_ne hch
          rw [hch', Bool.false_and, Bool.false_and]
    rw [List.cons_append, cutTopFrom?, cutTopFrom?, hop]
    by_cases hcut : (n.isTop c && c == ch && !(ch == '=' && isOperatorPart before r.head?)) = true
    · rw [if_pos hcut, if_pos hcut]
    · have hlast : (c :: r).getLast?.or before = r.getLast?.or (some c) := by
        cases hl : r.getLast? <;> simp [List.getLast?_cons, hl]
      rw [if_neg hcut, if_neg hcut, ih, run_cons, hlast]
      cases cutTopFrom? ch (n.next c) (some c) r with
      | some cut => rfl
      | none =>
        cases cutTopFrom? ch ((n.next c).run r) (r.getLast?.or (some c)) t <;> rfl

theorem cutTop?_append (ch : Char) (s : List Char)
    (ht : ch = '=' → ∀ c ∈ t.head?, c ≠ '=' ∧ c ≠ '>') :
    cutTop? ch (s ++ t) = match cutTop? ch s with
      | some (front, rest) => some (front, rest ++ t)
      | none => (cutTopFrom? ch (Nesting.start.run s) s.getLast? t).map fun (front, rest) =>
        (s ++ front, rest) := by
  rw [cutTop?, cutTopFrom?_append ht, Option.or_none, cutTop?]

theorem cutTopFrom?_eq_none {ch : Char} (h : ch ∉ s) (n : Nesting) (before : Option Char) :
    cutTopFrom? ch n before s = none := by
  cases hc : cutTopFrom? ch n before s with
  | none => rfl
  | some cut => exact absurd (by rw [eq_of_cutTopFrom? hc]; simp) h

theorem Trail.no_operator (ht : Trail colons t) {ch : Char} :
    ch = '=' → ∀ c ∈ t.head?, c ≠ '=' ∧ c ≠ '>' := by
  intro _ c hc
  obtain ⟨r, rfl⟩ := List.head?_eq_some_iff.mp hc
  exact ⟨ht.head_facts.2.2.1, ht.head_facts.2.2.2.1⟩

/-- A cut at `=` leaves nothing of what trails a binding, or some of it. -/
theorem beforeTop_append_trail (ht : Trail colons t) (s : List Char) :
    ∃ u, Trail colons u ∧ beforeTop '=' (s ++ t) = beforeTop '=' s ++ u := by
  have hcut := cutTop?_append '=' s ht.no_operator
  rw [beforeTop, beforeTop, hcut]
  cases cutTop? '=' s with
  | some cut => exact ⟨[], .nil, (List.append_nil _).symm⟩
  | none =>
    dsimp only
    cases hr : cutTopFrom? '=' (Nesting.start.run s) s.getLast? t with
    | none => exact ⟨t, ht, rfl⟩
    | some cut => exact ⟨cut.1, ht.of_isPrefix ⟨_, (eq_of_cutTopFrom? hr).symm⟩, rfl⟩

theorem afterTop_append (h : ':' ∉ t) (s : List Char) : afterTop ':' (s ++ t) = afterTop ':' s ++ t := by
  have hcut := cutTop?_append (t := t) ':' s fun he => absurd he (by decide)
  rw [afterTop, afterTop, hcut]
  cases cutTop? ':' s with
  | some cut => rfl
  | none =>
    dsimp only
    rw [cutTopFrom?_eq_none h]
    rfl

theorem dropDots_append_trail (ht : Trail colons t) (s : List Char) :
    dropDots (s ++ t) = dropDots s ++ t := by
  fun_induction dropDots s with
  | case1 rest ih => exact ih
  | case2 s hs =>
    unfold dropDots
    split
    · next rest hr =>
      -- The dots would have to be those of `s`, as what trails a binding begins with none.
      have hdot {c : Char} {r : List Char} (h : t = c :: r) : c ≠ '.' := by
        rw [h] at ht
        exact ht.head_facts.2.1
      match s, hs, hr with
      | [], _, hr => exact absurd rfl (hdot hr)
      | [_], _, hr => exact absurd rfl (hdot (List.cons.inj hr).2)
      | [_, _], _, hr => exact absurd rfl (hdot (List.cons.inj (List.cons.inj hr).2).2)
      | a :: b :: c :: s, hs, hr =>
        simp only [List.cons_append, List.cons.injEq] at hr
        obtain ⟨rfl, rfl, rfl, -⟩ := hr
        exact absurd rfl (hs s)
    · rfl

theorem splitTopFrom_of_notMem {sep : Char} (h : sep ∉ t) (n : Nesting) :
    splitTopFrom sep n t = [t] := by
  induction t generalizing n with
  | nil => rfl
  | cons c r ih =>
    rw [List.mem_cons, not_or] at h
    have hno : ¬(n.isTop c && c == sep) = true := by simp [Ne.symm h.1]
    rw [splitTopFrom, if_neg hno, ih h.2]

/-- What trails a text stays with its last piece. -/
theorem splitTopFrom_append {sep : Char} (ht : sep ∉ t) (s : List Char) (n : Nesting) :
    ∃ pieces last, splitTopFrom sep n s = pieces ++ [last] ∧
      splitTopFrom sep n (s ++ t) = pieces ++ [last ++ t] := by
  induction s generalizing n with
  | nil => exact ⟨[], [], rfl, splitTopFrom_of_notMem ht n⟩
  | cons c r ih =>
    obtain ⟨pieces, last, hs, hst⟩ := ih (n.next c)
    rw [List.cons_append, splitTopFrom, splitTopFrom, hs, hst]
    by_cases hcut : (n.isTop c && c == sep) = true
    · exact ⟨[] :: pieces, last, by rw [if_pos hcut]; rfl, by rw [if_pos hcut]; rfl⟩
    · cases pieces with
      | nil => exact ⟨[], c :: last, by rw [if_neg hcut]; rfl, by rw [if_neg hcut]; rfl⟩
      | cons piece pieces =>
        exact ⟨(c :: piece) :: pieces, last, by rw [if_neg hcut]; rfl, by rw [if_neg hcut]; rfl⟩

theorem insideBrackets_append_trail (close : Char) (hc : isStop close = true) (ht : Trail colons t)
    (s : List Char) : ∃ u, Trail colons u ∧
      insideBrackets close (s ++ t) = insideBrackets close s ++ u := by
  by_cases hblank : trimEnd t = []
  · have htrim := trimEnd_append_of_blank (trimEnd_eq_nil_iff.mp hblank) s
    rw [insideBrackets, insideBrackets, htrim]
    by_cases hclose : (trimEnd s).getLast? = some close
    · rw [if_pos hclose, if_pos hclose]
      exact ⟨[], .nil, (List.append_nil _).symm⟩
    · rw [if_neg hclose, if_neg hclose]
      exact ⟨t, ht, rfl⟩
  · -- All of `s` is kept, and a bracket that closed it before is part of what trails it now.
    obtain ⟨u, hu, hinside⟩ : ∃ u, Trail colons u ∧ insideBrackets close (s ++ t) = s ++ u := by
      obtain ⟨front, d, hd, -⟩ := ends_trimEnd hblank
      rw [insideBrackets, trimEnd_append_of_ne_nil hblank, hd, ← List.append_assoc]
      by_cases hclose : d = close
      · have hp : front <+: t := (List.prefix_append front [d]).trans (hd ▸ trimEnd_isPrefix t)
        exact ⟨front, ht.of_isPrefix hp, by simp [hclose]⟩
      · exact ⟨t, ht, by simp [hclose]⟩
    rw [hinside, insideBrackets]
    by_cases hclose : (trimEnd s).getLast? = some close
    · obtain ⟨back, hb, hs⟩ := exists_trimEnd s
      obtain ⟨front, hf⟩ := List.getLast?_eq_some_iff.mp hclose
      refine ⟨close :: (back ++ u), .cons_stop hc (hu.blank_append hb).chars, ?_⟩
      rw [if_pos hclose, hf, List.dropLast_concat]
      rw [hf] at hs
      nth_rewrite 1 [hs]
      simp
    · rw [if_neg hclose]
      exact ⟨u, hu, rfl⟩

theorem plainName_append_trail (ht : Trail colons t) (s : List Char) :
    plainName (s ++ t) = plainName s := by
  have hnone : t.takeWhile isAsciiNamePart = [] := by
    cases t with
    | nil => rfl
    | cons c t => rw [List.takeWhile_cons_of_neg (by simp [ht.head_facts.1])]
  have hfront : (s ++ t).takeWhile isAsciiNamePart = s.takeWhile isAsciiNamePart := by
    rw [List.takeWhile_append, hnone, List.append_nil]
    split
    · next hlen => exact ((List.takeWhile_prefix _).eq_of_length hlen).symm
    · rfl
  rw [plainName, plainName, hfront]

theorem withoutDefault_append_trail (ht : Trail colons t) (s : List Char) :
    ∃ u, Trail colons u ∧ withoutDefault (s ++ t) = withoutDefault s ++ u := by
  obtain ⟨u, hu, htrim⟩ := trim_append_trail ht s
  rw [withoutDefault, withoutDefault, htrim]
  exact beforeTop_append_trail hu (trim s)

/-! ## Names -/

theorem flatMap_splitTop_append {names : List Char → List (List Char)} (ht : ',' ∉ t)
    (s : List Char)
    (h : ∀ last, (splitTop ',' s).getLast? = some last → names (last ++ t) = names last) :
    (splitTop ',' (s ++ t)).flatMap names = (splitTop ',' s).flatMap names := by
  obtain ⟨pieces, last, hs, hst⟩ := splitTopFrom_append ht s .start
  have hs' : splitTop ',' s = pieces ++ [last] := hs
  have hst' : splitTop ',' (s ++ t) = pieces ++ [last ++ t] := hst
  have hlast := h last (by simp [hs'])
  rw [hs', hst', List.flatMap_append, List.flatMap_append, List.flatMap_singleton,
    List.flatMap_singleton, hlast]

/-- The names that a binding binds do not depend on what trails it. -/
theorem bindingNames_append_trail (fuel : Nat) (ht : Trail colons t)
    (hs : colons = false ∨ '\x7b' ∉ s) : bindingNames fuel (s ++ t) = bindingNames fuel s := by
  induction fuel generalizing s t with
  | zero => rfl
  | succ fuel ih =>
    obtain ⟨u, hu, htrim⟩ := trim_append_trail ht s
    have hdots : dropDots (trim (s ++ t)) = dropDots (trim s) ++ u := by
      rw [htrim, dropDots_append_trail hu]
    have hsub : dropDots (trim s) ⊆ s := List.Subset.trans (dropDots_subset _) (trim_subset s)
    obtain ⟨r, hx⟩ | ⟨r, hx⟩ | hplain := pattern_cases (dropDots (trim s))
    · rw [hx, List.cons_append] at hdots
      rw [hx] at hsub
      have hcolons : colons = false := hs.resolve_right fun hno => hno (hsub List.mem_cons_self)
      obtain ⟨w, hw, hinside⟩ := insideBrackets_append_trail '\x7d' (by decide) hu r
      rw [bindingNames_object hx, bindingNames_object hdots, hinside]
      refine flatMap_splitTop_append (fun h => (hw.chars _ h).1 rfl) _ fun last _ => ?_
      obtain ⟨z, hz, hdefault⟩ := withoutDefault_append_trail hw last
      have hno : ':' ∉ z := fun h => by
        have hset := (hz.chars _ h).2 rfl
        rw [hcolons] at hset
        cases hset
      rw [hdefault, afterTop_append hno]
      exact ih hz (.inl hcolons)
    · rw [hx, List.cons_append] at hdots
      rw [hx] at hsub
      obtain ⟨w, hw, hinside⟩ := insideBrackets_append_trail ']' (by decide) hu r
      rw [bindingNames_array hx, bindingNames_array hdots, hinside]
      refine flatMap_splitTop_append (fun h => (hw.chars _ h).1 rfl) _ fun last hlast => ?_
      obtain ⟨z, hz, hdefault⟩ := withoutDefault_append_trail hw last
      rw [hdefault]
      have hmem := List.mem_of_getLast? hlast
      exact ih hz (hs.imp_right fun hno h => hno (subset_of_mem_elements hsub hmem h))
    · have hplain' : ∀ c r, dropDots (trim (s ++ t)) = c :: r → c ≠ '\x7b' ∧ c ≠ '[' := by
        intro c r hr
        rw [hdots] at hr
        cases hx : dropDots (trim s) with
        | nil =>
          rw [hx, List.nil_append] at hr
          rw [hr] at hu
          exact hu.head_facts.2.2.2.2
        | cons d x =>
          rw [hx] at hr
          exact hplain c x (by rw [hx, (List.cons.inj hr).1])
      rw [bindingNames_plain hplain, bindingNames_plain hplain', hdots]
      exact plainName_append_trail hu _

/-! ## Depths -/

theorem length_beforeTop_le (ch : Char) (s : List Char) : (beforeTop ch s).length ≤ s.length := by
  rw [beforeTop]
  cases hc : cutTop? ch s with
  | none => exact Nat.le_refl _
  | some cut =>
    have hs := congrArg List.length (eq_of_cutTopFrom? hc)
    rw [List.length_append] at hs
    dsimp only
    omega

theorem length_afterTop_le (ch : Char) (s : List Char) : (afterTop ch s).length ≤ s.length := by
  rw [afterTop]
  cases hc : cutTop? ch s with
  | none => exact Nat.le_refl _
  | some cut =>
    have hs := congrArg List.length (eq_of_cutTopFrom? hc)
    rw [List.length_append, List.length_cons] at hs
    dsimp only
    omega

theorem length_trim_le (s : List Char) : (trim s).length ≤ s.length :=
  (trimEnd_isPrefix _).length_le.trans (List.dropWhile_suffix isBlank).length_le

theorem length_dropDots_le (s : List Char) : (dropDots s).length ≤ s.length := by
  fun_induction dropDots s with
  | case1 rest ih => exact ih.trans (by simp only [List.length_cons]; omega)
  | case2 s => exact Nat.le_refl _

theorem length_insideBrackets_le (close : Char) (s : List Char) :
    (insideBrackets close s).length ≤ s.length := by
  rw [insideBrackets]
  by_cases h : (trimEnd s).getLast? = some close
  · rw [if_pos h, List.length_dropLast]
    exact (Nat.sub_le _ _).trans (trimEnd_isPrefix s).length_le
  · rw [if_neg h]

/-- The elements of a pattern are shorter than the binding that the pattern is read from. -/
theorem length_element_lt {element : List Char} (h : dropDots (trim s) = c :: rest)
    (he : element ∈ splitTop ',' (insideBrackets close rest)) :
    (withoutDefault element).length < s.length := by
  have hpiece := (infix_intercalate ',' he).length_le
  rw [splitTop, intercalate_splitTopFrom] at hpiece
  have hs := (length_dropDots_le (trim s)).trans (length_trim_le s)
  rw [h, List.length_cons] at hs
  calc (withoutDefault element).length
    _ ≤ element.length := (length_beforeTop_le _ _).trans (length_trim_le element)
    _ ≤ rest.length := hpiece.trans (length_insideBrackets_le close rest)
    _ < s.length := hs

/-- A depth beyond the length of the text finds every name. -/
theorem bindingNames_eq_of_length_lt {fuel more : Nat} (hf : s.length < fuel)
    (hm : s.length < more) : bindingNames fuel s = bindingNames more s := by
  induction fuel generalizing s more with
  | zero => exact absurd hf (Nat.not_lt_zero _)
  | succ fuel ih =>
    obtain ⟨more, rfl⟩ := Nat.exists_eq_add_one_of_ne_zero (Nat.ne_of_gt (Nat.zero_lt_of_lt hm))
    obtain ⟨r, hx⟩ | ⟨r, hx⟩ | hplain := pattern_cases (dropDots (trim s))
    · rw [bindingNames_object hx, bindingNames_object hx]
      refine List.flatMap_congr fun element he => ?_
      have hlt := (length_afterTop_le ':' _).trans_lt (length_element_lt hx he)
      exact ih (by omega) (by omega)
    · rw [bindingNames_array hx, bindingNames_array hx]
      refine List.flatMap_congr fun element he => ?_
      have hlt := length_element_lt hx he
      exact ih (by omega) (by omega)
    · rw [bindingNames_plain hplain, bindingNames_plain hplain]

/-! ## Declarators -/

/-- Whether the last declarator has a value, or no pattern that takes properties. -/
def LastInitialized (declarators : List Char) : Prop :=
  ∀ last, (splitTop ',' (dropSemicolons declarators)).getLast? = some last →
    '\x7b' ∈ last → (cutTop? '=' last).isSome = true

theorem beforeTop_append_of_isSome (ht : Trail colons t) (h : (cutTop? '=' s).isSome = true) :
    beforeTop '=' (s ++ t) = beforeTop '=' s := by
  obtain ⟨cut, hcut⟩ := Option.isSome_iff_exists.mp h
  rw [beforeTop, beforeTop, cutTop?_append '=' s ht.no_operator, hcut]

theorem exists_dropSemicolons (s : List Char) :
    ∃ w, (∀ c ∈ w, isBlank c = true ∨ isStop c = true) ∧ s = dropSemicolons s ++ w := by
  obtain ⟨back, hb, hs⟩ := exists_trimEnd s
  obtain ⟨marks, hm, ht⟩ : ∃ marks, (∀ c ∈ marks, c = ';') ∧
      trimEnd s = dropSemicolons s ++ marks := by
    refine ⟨((trimEnd s).reverse.takeWhile (· == ';')).reverse, fun c hc => ?_, ?_⟩
    · simpa using List.mem_takeWhile_imp (List.mem_reverse.mp hc)
    · rw [dropSemicolons, ← List.reverse_append, List.takeWhile_append_dropWhile,
        List.reverse_reverse]
  refine ⟨marks ++ back, fun c hc => ?_, ?_⟩
  · rcases List.mem_append.mp hc with hc | hc
    · exact .inr (by rw [hm c hc]; rfl)
    · exact .inl (hb c hc)
  · rw [← List.append_assoc, ← ht]
    exact hs

/-- What trails a declarator does not change the names that it binds, unless a pattern without a
value takes a colon of it for one of its own. -/
theorem declaratorNames_append_trail (ht : Trail colons t)
    (hs : colons = true → '{' ∈ s → (cutTop? '=' s).isSome = true) :
    bindingNames ((s ++ t).length + 1) (beforeTop '=' (s ++ t)) =
      bindingNames (s.length + 1) (beforeTop '=' s) := by
  have hdepth : bindingNames ((s ++ t).length + 1) (beforeTop '=' s) =
      bindingNames (s.length + 1) (beforeTop '=' s) := by
    have hlen := length_beforeTop_le '=' s
    have happend : (s ++ t).length = s.length + t.length := List.length_append
    exact bindingNames_eq_of_length_lt (by omega) (by omega)
  by_cases hcut : (cutTop? '=' s).isSome = true
  · rw [beforeTop_append_of_isSome ht hcut, hdepth]
  · obtain ⟨u, hu, hbefore⟩ := beforeTop_append_trail ht s
    have hplain : colons = false ∨ '{' ∉ beforeTop '=' s := by
      by_cases hc : colons = true
      · exact .inr fun hm => hcut (hs hc (beforeTop_subset '=' s hm))
      · exact .inl (by simpa using hc)
    rw [hbefore, bindingNames_append_trail _ hu hplain, hdepth]

/-- A comment behind declarators adds no names to them. -/
theorem declaredNames_append_comment {gap comment : List Char} (hg : AllBlank gap)
    (hcomma : ',' ∉ comment) (hcolon : ':' ∈ comment → LastInitialized s) :
    declaredNames (s ++ (gap ++ '/' :: '/' :: comment)) = declaredNames s := by
  obtain ⟨w, hw, hs⟩ := exists_dropSemicolons s
  obtain ⟨kept, hkept⟩ : ∃ kept, kept = dropSemicolons ('/' :: comment) := ⟨_, rfl⟩
  have hstart : kept <+: '/' :: comment := by
    rw [hkept]
    simpa using dropSemicolons_isPrefix (.inl rfl) ('/' :: comment)
  have hdrop : dropSemicolons (s ++ (gap ++ '/' :: '/' :: comment)) =
      dropSemicolons s ++ ((w ++ gap) ++ '/' :: kept) := by
    rw [← List.append_assoc, dropSemicolons_append_cons (by decide) (by decide), ← hkept]
    nth_rewrite 1 [hs]
    simp only [List.append_assoc]
  have htrail : Trail (decide (':' ∈ comment)) ((w ++ gap) ++ '/' :: kept) := by
    refine .append (fun c hc => ?_) (.cons_stop (by decide) fun c hc => ?_)
    · exact (List.mem_append.mp hc).elim (hw c) fun hc => .inl (hg c hc)
    · rcases List.mem_cons.mp (hstart.subset hc) with rfl | hc
      · exact ⟨by decide, fun he => absurd he (by decide)⟩
      · refine ⟨fun he => hcomma (he ▸ hc), fun he => ?_⟩
        exact decide_eq_true (he ▸ hc)
  rw [declaredNames, declaredNames, hdrop]
  refine flatMap_splitTop_append (fun h => (htrail.chars _ h).1 rfl) _ fun last hlast => ?_
  exact declaratorNames_append_trail htrail fun hc => hcolon (of_decide_eq_true hc) last hlast

end

end ModuleLoader.Transpile
