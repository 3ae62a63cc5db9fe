import ModuleLoader.Proofs.Json.Members
import ModuleLoader.Proofs.Json.Numbers

/-! Arrays and objects. Both are lists of items between a pair of brackets, and what reads the items
of one nesting depth is given. -/

namespace ModuleLoader.Json

open Grammar

variable {α : Type}

/-! ## Items -/

/-- Whether a text is at its end or at a mark that ends an item. -/
def Closes (s : List Char) : Prop :=
  ∀ c ∈ s.head?, c = ',' ∨ c = ':' ∨ c = ']' ∨ c = '\x7d'

theorem Closes.solid {s : List Char} (h : Closes s) : Solid s := by
  intro c hc
  rcases h c hc with rfl | rfl | rfl | rfl <;> simp [IsBlank]

theorem Closes.noNumber_append {s blanks : List Char} (h : Closes s) (hb : Blanks blanks) :
    NoNumber (blanks ++ s) := by
  cases blanks with
  | nil =>
    intro c hc
    rcases h c hc with rfl | rfl | rfl | rfl <;> decide
  | cons c blanks =>
    rcases hb c List.mem_cons_self with rfl | rfl | rfl | rfl <;> simp [NoNumber]

/-- Whether the texts of a rule start, behind blanks, with something else than a bracket. -/
def Opens (Rule : List Char → α → Prop) : Prop :=
  ∀ ⦃s a⦄, Rule s a → ∃ blanks c r, s = blanks ++ c :: r ∧ Blanks blanks ∧ ¬IsBlank c ∧
    c ≠ ']' ∧ c ≠ '\x7d'

/-- A reader of items with blanks around them. It may leave the blanks behind an item. -/
structure ReadsItem (read : List Char → Except Stop (α × List Char))
    (Rule : List Char → α → Prop) : Prop where
  opens : Opens Rule
  skip (s : List Char) : read (skipBlanks s) = read s
  sound {s rest : List Char} {a : α} : read s = .ok (a, rest) →
    ∃ t, s = t ++ skipBlanks rest ∧ Rule t a
  complete {t rest : List Char} {a : α} : Rule t a → Closes rest →
    ∃ s, read (t ++ rest) = .ok (a, s) ∧ skipBlanks s = rest

theorem readsItem_padded {read : List Char → Except Stop (α × List Char)}
    {Rule : List Char → α → Prop} (h : Reads read Rule NoNumber)
    (hs : ∀ ⦃s a⦄, Rule s a → ∃ c r, s = c :: r ∧ ¬IsBlank c ∧ c ≠ ']' ∧ c ≠ '\x7d') :
    ReadsItem (fun s => read (skipBlanks s)) (Padded Rule) where
  opens := by
    intro _ _ hp
    obtain @⟨front, s, back, _, hf, ht, hb⟩ := hp
    obtain ⟨c, r, rfl, hc⟩ := hs ht
    exact ⟨front, c, r ++ back, by simp, hf, hc⟩
  skip s := by rw [skipBlanks_of_solid (solid_skipBlanks s)]
  sound {s rest a} hr := by
    obtain ⟨front, hf, hfront⟩ := exists_blanks s
    obtain ⟨back, hb, hback⟩ := exists_blanks rest
    obtain ⟨t, ht, hrule⟩ := h.sound hr
    refine ⟨front ++ t ++ back, ?_, .mk hf hrule hb⟩
    rw [List.append_assoc, ← hback, List.append_assoc, ← ht]
    exact hfront
  complete {t rest a} hp hc := by
    obtain @⟨front, s, back, _, hf, hrule, hb⟩ := hp
    have hread := h.complete hrule (hc.noNumber_append hb)
    obtain ⟨c, r, rfl, hblank, -⟩ := hs hrule
    have hsolid : Solid ((c :: r) ++ (back ++ rest)) := by simpa [Solid] using hblank
    refine ⟨back ++ rest, ?_, skipBlanks_append hb hc.solid⟩
    rw [List.append_assoc, List.append_assoc, skipBlanks_append hf hsolid, hread]

/-! ## Lists of items -/

def readSeparated (read : List Char → Except Stop (α × List Char)) (close : Char) (fault : Fault) :
    Nat → List Char → Except Stop (List α × List Char)
  | 0, s => .error ⟨fault, s⟩
  | fuel + 1, s => do
    let (a, s) ← read s
    match skipBlanks s with
    | [] => throw ⟨fault, []⟩
    | c :: r =>
      if c = ',' then do
        let (rest, s) ← readSeparated read close fault fuel r
        return (a :: rest, s)
      else if c = close then return ([a], r)
      else throw ⟨fault, c :: r⟩

theorem readItems_eq (item : List Char → Except Stop (Json × List Char)) (fuel : Nat)
    (s : List Char) : readItems item fuel s =
      readSeparated (fun s => item (skipBlanks s)) ']' .expectedItemEnd fuel s := by
  induction fuel generalizing s with
  | zero => rfl
  | succ fuel ih =>
    unfold readItems readSeparated
    congr 1
    funext found
    obtain ⟨value, s⟩ := found
    dsimp only
    cases hs : skipBlanks s with
    | nil => rfl
    | cons c r =>
      by_cases hc : c = ','
      · simp [hc, ih]
      · by_cases he : c = ']'
        · simp [he]
        · simp [hc, he]

theorem readMembers_eq (item : List Char → Except Stop (Json × List Char)) (fuel : Nat)
    (s : List Char) : readMembers item fuel s =
      readSeparated (readMember item) '\x7d' .expectedMemberEnd fuel s := by
  induction fuel generalizing s with
  | zero => rfl
  | succ fuel ih =>
    unfold readMembers readSeparated
    congr 1
    funext found
    obtain ⟨pair, s⟩ := found
    dsimp only
    cases hs : skipBlanks s with
    | nil => rfl
    | cons c r =>
      by_cases hc : c = ','
      · simp [hc, ih]
      · by_cases he : c = '\x7d'
        · simp [he]
        · simp [hc, he]

section Separated

variable {read : List Char → Except Stop (α × List Char)} {Rule : List Char → α → Prop}
  {close : Char} {fault : Fault} (h : ReadsItem read Rule)
include h

theorem readSeparated_skipBlanks (fuel : Nat) (s : List Char) :
    readSeparated read close fault (fuel + 1) (skipBlanks s) =
      readSeparated read close fault (fuel + 1) s := by
  rw [readSeparated, readSeparated, h.skip]

theorem readSeparated_sound {fuel : Nat} {s rest : List Char} {items : List α}
    (hr : readSeparated read close fault fuel s = .ok (items, rest)) :
    ∃ t, s = t ++ close :: rest ∧ Separated Rule t items := by
  induction fuel generalizing s rest items with
  | zero => cases hr
  | succ fuel ih =>
    obtain ⟨⟨a, s'⟩, ha, hnext⟩ := exists_of_bind_eq_ok hr
    obtain ⟨t, rfl, ht⟩ := h.sound ha
    dsimp only at hnext
    split at hnext
    · cases hnext
    · next c r hs =>
      rw [hs]
      split at hnext
      · next hc =>
        obtain ⟨⟨items, s''⟩, hi, he⟩ := exists_of_bind_eq_ok hnext
        cases he
        obtain ⟨u, rfl, hu⟩ := ih hi
        exact ⟨t ++ ',' :: u, by simp [hc], .cons ht hu⟩
      · split at hnext
        · next hc =>
          cases hnext
          exact ⟨t, by rw [hc], .one ht⟩
        · cases hnext

theorem readSeparated_complete (hc : close = ']' ∨ close = '\x7d') {t rest : List Char}
    {items : List α} (hs : Separated Rule t items) {fuel : Nat} (hf : items.length ≤ fuel) :
    readSeparated read close fault fuel (t ++ close :: rest) = .ok (items, rest) := by
  have hclose : Closes (close :: rest) := by simpa [Closes] using .inr (.inr hc)
  have hne : close ≠ ',' := by rcases hc with rfl | rfl <;> decide
  induction hs generalizing fuel with
  | @one t a ht =>
    obtain ⟨fuel, rfl⟩ := Nat.exists_eq_add_of_le' hf
    obtain ⟨s, hread, hskip⟩ := h.complete ht hclose
    simp only [List.length_singleton]
    rw [readSeparated, hread]
    simp [bind, Except.bind, hskip, hne, pure, Except.pure]
  | @cons t u a items ht hu ih =>
    obtain ⟨fuel, rfl⟩ := Nat.exists_eq_add_of_le' (Nat.le_trans (Nat.le_add_left 1 _) hf)
    have hcomma : Closes (',' :: (u ++ close :: rest)) := by simp [Closes]
    obtain ⟨s, hread, hskip⟩ := h.complete ht hcomma
    have hfuel : items.length ≤ fuel := by simpa using hf
    have hrest := ih hfuel
    rw [readSeparated, List.append_assoc, List.cons_append, hread]
    simp [bind, Except.bind, hskip, hrest, pure, Except.pure]

/-! ### Enough fuel -/

omit h in
theorem opens_separated (ho : Opens Rule) : Opens (Separated Rule) := by
  intro t items hs
  cases hs with
  | one ht => exact ho ht
  | @cons t u a items ht hu =>
    obtain ⟨blanks, c, r, rfl, hb, hc⟩ := ho ht
    exact ⟨blanks, c, r ++ ',' :: u, by simp, hb, hc⟩

omit h in
/-- Each item has a character of its own that is no blank. -/
theorem length_le_countP (ho : Opens Rule) {t : List Char} {items : List α}
    (hs : Separated Rule t items) : items.length ≤ t.countP (!isJsonBlank ·) := by
  have hone {t : List Char} {a : α} (ht : Rule t a) : 1 ≤ t.countP (!isJsonBlank ·) := by
    obtain ⟨blanks, c, r, rfl, -, hc, -⟩ := ho ht
    have hsolid : (!isJsonBlank c) = true := by simpa [← isJsonBlank_iff] using hc
    exact List.one_le_countP_iff.mpr ⟨c, by simp, hsolid⟩
  induction hs with
  | one ht => exact hone ht
  | cons ht hu ih =>
    have ht := hone ht
    rw [List.countP_append, List.countP_cons, List.length_cons]
    omega

omit h in
theorem countP_skipBlanks (s : List Char) :
    (skipBlanks s).countP (!isJsonBlank ·) = s.countP (!isJsonBlank ·) := by
  induction s with
  | nil => rfl
  | cons c s ih =>
    rw [skipBlanks_cons]
    split
    · next hc => rw [ih, List.countP_cons_of_neg (by simpa using hc)]
    · rfl

/-- The length of a text is enough fuel for what it lists. -/
theorem readSeparated_skipBlanks_complete (hc : close = ']' ∨ close = '\x7d') {t : List Char}
    {items : List α} (hs : Separated Rule t items) (rest : List Char) :
    ∃ c r, skipBlanks (t ++ close :: rest) = c :: r ∧ c ≠ ']' ∧ c ≠ '\x7d' ∧
      readSeparated read close fault ((c :: r).length + 1) (c :: r) = .ok (items, rest) := by
  have hfuel : items.length ≤ (skipBlanks (t ++ close :: rest)).length + 1 := by
    have hcount := length_le_countP h.opens hs
    have hle := List.countP_le_length (p := (!isJsonBlank ·)) (l := skipBlanks (t ++ close :: rest))
    rw [countP_skipBlanks, List.countP_append] at hle
    omega
  -- The brackets skip the blanks first, and give fuel for the text that is left.
  have hread : readSeparated read close fault _ (t ++ close :: rest) = .ok (items, rest) :=
    readSeparated_complete h hc hs hfuel
  rw [← readSeparated_skipBlanks h] at hread
  obtain ⟨blanks, c, r, rfl, hb, hblank, hopen⟩ := opens_separated h.opens hs
  have hsolid : Solid (c :: (r ++ close :: rest)) := by simpa [Solid] using hblank
  have hskip : skipBlanks (blanks ++ c :: r ++ close :: rest) = c :: (r ++ close :: rest) := by
    rw [List.append_assoc, List.cons_append, skipBlanks_append hb hsolid]
  rw [hskip] at hread
  exact ⟨c, _, hskip, hopen.1, hopen.2, hread⟩

end Separated

/-! ## Arrays and objects -/

section Brackets

variable {item : List Char → Except Stop (Json × List Char)} {Item : List Char → Json → Prop}

theorem readsItem_member (h : ReadsItem (fun s => item (skipBlanks s)) (Padded Item)) :
    ReadsItem (readMember item) (Member Item) where
  opens := by
    intro _ _ hm
    obtain @⟨key, s, name, value, hk, hv⟩ := hm
    obtain @⟨front, t, back, _, hf, ht, hb⟩ := hk
    obtain @⟨u, elements, hu⟩ := ht
    exact ⟨front, '"', u ++ ['"'] ++ back ++ ':' :: s, by simp, hf, by simp [IsBlank], by decide⟩
  skip s := by
    rw [readMember, readMember, skipBlanks_of_solid (solid_skipBlanks s)]
  sound {s rest member} hr := by
    obtain ⟨front, hf, hfront⟩ := exists_blanks s
    unfold readMember at hr
    split at hr
    · next r hs =>
      obtain ⟨⟨key, s₁⟩, hkey, hnext⟩ := exists_of_bind_eq_ok hr
      obtain ⟨t, ht, htext⟩ := exists_stringText hkey
      obtain ⟨back, hb, hback⟩ := exists_blanks s₁
      dsimp only at hnext
      split at hnext
      · next r' hs' =>
        obtain ⟨⟨value, s₂⟩, hvalue, he⟩ := exists_of_bind_eq_ok hnext
        obtain ⟨u, rfl, hu⟩ := h.sound hvalue
        cases he
        refine ⟨(front ++ t ++ back) ++ ':' :: u, ?_, .mk (.mk hf htext hb) hu⟩
        rw [hfront, hs, ht, hback, hs']
        simp
      · cases hnext
    · cases hr
  complete {t rest member} hm hc := by
    obtain @⟨key, s, name, value, hk, hv⟩ := hm
    obtain @⟨front, t, back, _, hf, ht, hb⟩ := hk
    obtain ⟨s₂, hvalue, hskip⟩ := h.complete hv hc
    obtain ⟨r, cs, hquote, hkey, rfl⟩ := exists_readString_eq_ok ht (back ++ ':' :: (s ++ rest))
    have hsolid : Solid ('"' :: r) := by simp [Solid, IsBlank]
    have hcolon : Solid (':' :: (s ++ rest)) := by simp [Solid, IsBlank]
    have hfront : skipBlanks (front ++ t ++ back ++ ':' :: s ++ rest) = '"' :: r := by
      have hs : front ++ t ++ back ++ ':' :: s ++ rest = front ++ ('"' :: r) := by
        rw [← hquote]
        simp
      rw [hs, skipBlanks_append hf hsolid]
    refine ⟨s₂, ?_, hskip⟩
    rw [readMember, hfront]
    simp only [hkey, bind, Except.bind, skipBlanks_append hb hcolon, hvalue, pure, Except.pure]

theorem readArray_sound (h : ReadsItem (fun s => item (skipBlanks s)) (Padded Item))
    {s rest : List Char} {value : Json} (hr : readArray item s = .ok (value, rest)) :
    ∃ t, '[' :: s = t ++ rest ∧ ArrayText Item t value := by
  obtain ⟨blanks, hb, hs⟩ := exists_blanks s
  unfold readArray at hr
  split at hr
  · next r he =>
    cases hr
    rw [he] at hs
    exact ⟨'[' :: blanks ++ [']'], by simp [hs], .empty hb⟩
  · obtain ⟨⟨items, s'⟩, hi, he⟩ := exists_of_bind_eq_ok hr
    cases he
    rw [readItems_eq, readSeparated_skipBlanks h] at hi
    obtain ⟨t, ht, hsep⟩ := readSeparated_sound h hi
    exact ⟨'[' :: t ++ [']'], by simp [ht], .items hsep⟩

theorem readArray_complete (h : ReadsItem (fun s => item (skipBlanks s)) (Padded Item))
    {t : List Char} {value : Json} (ht : ArrayText Item t value) (rest : List Char) :
    ∃ s, t ++ rest = '[' :: s ∧ readArray item s = .ok (value, rest) := by
  cases ht with
  | @empty blanks hb =>
    have hsolid : Solid (']' :: rest) := by simp [Solid, IsBlank]
    refine ⟨blanks ++ ']' :: rest, by simp, ?_⟩
    rw [readArray, skipBlanks_append hb hsolid]
    rfl
  | @items s values hs =>
    refine ⟨s ++ ']' :: rest, by simp, ?_⟩
    obtain ⟨c, r, hskip, hc, -, hread⟩ := readSeparated_skipBlanks_complete h (.inl rfl) hs rest
    rw [← readItems_eq] at hread
    rw [readArray, hskip]
    split
    · next he => exact absurd (List.cons.inj he).1 hc
    · rw [hread]
      rfl

theorem readObject_sound (h : ReadsItem (readMember item) (Member Item))
    {s rest : List Char} {value : Json} (hr : readObject item s = .ok (value, rest)) :
    ∃ t, '\x7b' :: s = t ++ rest ∧ ObjectText Item t value := by
  obtain ⟨blanks, hb, hs⟩ := exists_blanks s
  unfold readObject at hr
  split at hr
  · next r he =>
    cases hr
    rw [he] at hs
    exact ⟨'\x7b' :: blanks ++ ['\x7d'], by simp [hs], .empty hb⟩
  · obtain ⟨⟨pairs, s'⟩, hi, he⟩ := exists_of_bind_eq_ok hr
    cases he
    rw [readMembers_eq, readSeparated_skipBlanks h] at hi
    obtain ⟨t, ht, hsep⟩ := readSeparated_sound h hi
    exact ⟨'\x7b' :: t ++ ['\x7d'], by simp [ht], .members hsep (Members.collects_ofList pairs)⟩

theorem readObject_complete (h : ReadsItem (readMember item) (Member Item))
    {t : List Char} {value : Json} (ht : ObjectText Item t value) (rest : List Char) :
    ∃ s, t ++ rest = '\x7b' :: s ∧ readObject item s = .ok (value, rest) := by
  cases ht with
  | @empty blanks hb =>
    have hsolid : Solid ('\x7d' :: rest) := by simp [Solid, IsBlank]
    refine ⟨blanks ++ '\x7d' :: rest, by simp, ?_⟩
    rw [readObject, skipBlanks_append hb hsolid]
    rfl
  | @members s pairs members hs hm =>
    obtain rfl := Members.collects_iff.mp hm
    refine ⟨s ++ '\x7d' :: rest, by simp, ?_⟩
    obtain ⟨c, r, hskip, -, hc, hread⟩ := readSeparated_skipBlanks_complete h (.inr rfl) hs rest
    rw [← readMembers_eq] at hread
    rw [readObject, hskip]
    split
    · next he => exact absurd (List.cons.inj he).1 hc
    · rw [hread]
      rfl

end Brackets

end ModuleLoader.Json
