import Mathlib.Data.List.Induction
import ModuleLoader.Proofs.Text.Slices

/-! Texts as bytes. Whoever walks through the bytes of a text and steps over whole characters always
stands between two of them. -/

namespace ModuleLoader.Text

variable {c : Char} {text s : List Char} {pos : Nat}

def utf8 (s : List Char) : List UInt8 := s.flatMap String.utf8EncodeChar

theorem utf8_cons (c : Char) (s : List Char) : utf8 (c :: s) = String.utf8EncodeChar c ++ utf8 s :=
  List.flatMap_cons

theorem utf8_append (s t : List Char) : utf8 (s ++ t) = utf8 s ++ utf8 t := List.flatMap_append

theorem length_utf8 (s : List Char) : (utf8 s).length = byteLength s := by
  induction s with
  | nil => rfl
  | cons c s ih => rw [utf8_cons, List.length_append, String.length_utf8EncodeChar, ih, byteLength_cons]

theorem utf8ByteSize_ofList (s : List Char) : (String.ofList s).utf8ByteSize = byteLength s := by
  induction s with
  | nil => rfl
  | cons c s ih =>
    rw [← List.singleton_append, String.ofList_append, String.utf8ByteSize_append, ih]
    simp

/-! ## The bytes of a character -/

theorem toNat_lt (c : Char) : c.toNat < 0x110000 := by
  rcases c.valid with h | h
  · exact Nat.lt_trans h (by decide)
  · exact h.2

theorem leadByte_lt (c : Char) : leadByte c < 0x100 := by
  have hc := toNat_lt c
  unfold leadByte
  dsimp only
  split_ifs <;> omega

def lead (c : Char) : UInt8 := UInt8.ofNat (leadByte c)

theorem toNat_lead (c : Char) : (lead c).toNat = leadByte c :=
  UInt8.toNat_ofNat_of_lt' (leadByte_lt c)

theorem le_lead (h : 0x80 ≤ c.toNat) : 0x80 ≤ lead c := by
  refine (UInt8.le_ofNat_iff (leadByte_lt c)).mpr (show 0x80 ≤ leadByte c from ?_)
  unfold leadByte
  dsimp only
  split_ifs <;> omega

theorem lead_ascii (h : c.toNat < 0x80) : lead c = c.toUInt8 := by
  rw [lead, leadByte, if_pos h]
  exact UInt8.ofNat_uInt32ToNat c.val

theorem utf8EncodeChar_ascii (h : c.toNat < 0x80) : String.utf8EncodeChar c = [c.toUInt8] :=
  String.utf8EncodeChar_eq_singleton
    (Char.utf8Size_eq_one_iff.mpr (UInt32.le_iff_toNat_le.mpr (Nat.le_of_lt_succ h)))

theorem utf8Size_ascii (h : c.toNat < 0x80) : c.utf8Size = 1 := by
  rw [← String.length_utf8EncodeChar, utf8EncodeChar_ascii h, List.length_singleton]

/-- Beyond ASCII a character starts with its lead byte, and no byte of it is one of ASCII. -/
theorem exists_utf8EncodeChar_eq (h : 0x80 ≤ c.toNat) :
    ∃ tail, String.utf8EncodeChar c = lead c :: tail ∧ ∀ b ∈ tail, 0x80 ≤ b := by
  have hc := toNat_lt c
  have hlast (n : Nat) : 0x80 ≤ UInt8.ofNat (n % 64 + 128) :=
    (UInt8.le_ofNat_iff (show n % 64 + 128 < 0x100 by omega)).mpr (Nat.le_add_left 128 (n % 64))
  have hcons {m n : Nat} {tail : List UInt8} (he : m = n) (ht : ∀ b ∈ tail, 0x80 ≤ b) :
      ∃ tail', UInt8.ofNat m :: tail = UInt8.ofNat n :: tail' ∧ ∀ b ∈ tail', 0x80 ≤ b :=
    ⟨tail, by rw [he], ht⟩
  unfold String.utf8EncodeChar lead leadByte
  dsimp only
  rw [show c.val.toNat = c.toNat from rfl, if_neg (show ¬c.toNat ≤ 127 by omega),
    if_neg (show ¬c.toNat < 0x80 by omega)]
  by_cases h₂ : c.toNat < 0x800
  · rw [if_pos (show c.toNat ≤ 2047 by omega), if_pos h₂]
    refine hcons (by omega) ?_
    simp only [List.forall_mem_cons, hlast, true_and]
    exact List.forall_mem_nil _
  · rw [if_neg (show ¬c.toNat ≤ 2047 by omega), if_neg h₂]
    by_cases h₃ : c.toNat < 0x10000
    · rw [if_pos (show c.toNat ≤ 65535 by omega), if_pos h₃]
      refine hcons (by omega) ?_
      simp only [List.forall_mem_cons, hlast, true_and]
      exact List.forall_mem_nil _
    · rw [if_neg (show ¬c.toNat ≤ 65535 by omega), if_neg h₃]
      refine hcons (by omega) ?_
      simp only [List.forall_mem_cons, hlast, true_and]
      exact List.forall_mem_nil _

theorem le_of_mem_utf8EncodeChar (h : 0x80 ≤ c.toNat) {b : UInt8}
    (hb : b ∈ String.utf8EncodeChar c) : 0x80 ≤ b := by
  obtain ⟨tail, ht, hle⟩ := exists_utf8EncodeChar_eq h
  rw [ht, List.mem_cons] at hb
  rcases hb with rfl | hb
  · exact le_lead h
  · exact hle b hb

theorem exists_cons_utf8EncodeChar (c : Char) : ∃ tail, String.utf8EncodeChar c = lead c :: tail := by
  by_cases h : c.toNat < 0x80
  · exact ⟨[], by rw [utf8EncodeChar_ascii h, lead_ascii h]⟩
  · obtain ⟨tail, ht, -⟩ := exists_utf8EncodeChar_eq (Nat.not_lt.mp h)
    exact ⟨tail, ht⟩

theorem byteLength_ascii (h : ∀ c ∈ s, c.toNat < 0x80) : byteLength s = s.length := by
  induction s with
  | nil => rfl
  | cons c s ih =>
    rw [byteLength_cons, utf8Size_ascii (h c List.mem_cons_self), List.length_cons,
      ih fun d hd => h d (List.mem_cons_of_mem _ hd), Nat.add_comm]

/-! ## Tests of bytes -/

/-- A fact of the characters of ASCII is checked on each of them. -/
theorem forall_ascii {P : Char → Prop} (h : ∀ n < 0x80, P (Char.ofNat n)) (hc : c.toNat < 0x80) :
    P c := by
  have hn := h c.toNat hc
  rwa [Char.ofNat_toNat] at hn

/-- A fact of the bytes beyond ASCII is checked on each of them. -/
theorem forall_beyond {P : UInt8 → Prop} (h : ∀ n < 0x80, P (UInt8.ofNat (n + 0x80))) {b : UInt8}
    (hb : 0x80 ≤ b) : P b := by
  have hle : 0x80 ≤ b.toNat := UInt8.le_iff_toNat_le.mp hb
  have hlt := UInt8.toNat_lt b
  have hn := h (b.toNat - 0x80) (by omega)
  rwa [Nat.sub_add_cancel hle, UInt8.ofNat_toNat] at hn

/-- A test of bytes and one of characters that see nothing of a character beyond ASCII but that it
is one. -/
structure Agree (test : UInt8 → Bool) (pass : Char → Bool) : Prop where
  ascii : ∀ n < 0x80, test (Char.ofNat n).toUInt8 = pass (Char.ofNat n)
  beyond {c : Char} {b : UInt8} : 0x80 ≤ c.toNat → 0x80 ≤ b → test b = pass c

theorem Agree.lead {test : UInt8 → Bool} {pass : Char → Bool} (h : Agree test pass) (c : Char) :
    test (lead c) = pass c := by
  by_cases hc : c.toNat < 0x80
  · rw [lead_ascii hc]
    exact forall_ascii (P := fun c => test c.toUInt8 = pass c) h.ascii hc
  · exact h.beyond (Nat.not_lt.mp hc) (le_lead (Nat.not_lt.mp hc))

theorem Agree.of_mem {test : UInt8 → Bool} {pass : Char → Bool} (h : Agree test pass) {b : UInt8}
    (hb : b ∈ String.utf8EncodeChar c) : test b = pass c := by
  by_cases hc : c.toNat < 0x80
  · rw [utf8EncodeChar_ascii hc, List.mem_singleton] at hb
    rw [hb]
    exact forall_ascii (P := fun c => test c.toUInt8 = pass c) h.ascii hc
  · exact h.beyond (Nat.not_lt.mp hc) (le_of_mem_utf8EncodeChar (Nat.not_lt.mp hc) hb)

theorem takeWhile_utf8 {test : UInt8 → Bool} {pass : Char → Bool} (h : Agree test pass)
    (s : List Char) : (utf8 s).takeWhile test = utf8 (s.takeWhile pass) := by
  induction s with
  | nil => rfl
  | cons c s ih =>
    by_cases hc : pass c = true
    · have hall : ∀ b ∈ String.utf8EncodeChar c, test b = true := fun b hb => (h.of_mem hb).trans hc
      rw [utf8_cons, List.takeWhile_append_of_pos hall, ih, List.takeWhile_cons_of_pos hc, utf8_cons]
    · obtain ⟨tail, ht⟩ := exists_cons_utf8EncodeChar c
      have hstop : ¬test (Text.lead c) = true := by rwa [h.lead]
      rw [utf8_cons, ht, List.cons_append, List.takeWhile_cons_of_neg hstop,
        List.takeWhile_cons_of_neg hc]
      rfl

/-- A byte of ASCII is the lead byte of its own character only. -/
theorem lead_eq_iff {d : Char} (hd : d.toNat < 0x80) : lead c = d.toUInt8 ↔ c = d := by
  constructor
  · intro h
    have hn := congrArg UInt8.toNat (h.trans (lead_ascii hd).symm)
    rw [toNat_lead, toNat_lead] at hn
    apply Char.toNat_inj.mp
    unfold leadByte at hn
    dsimp only at hn
    split_ifs at hn <;> omega
  · rintro rfl
    exact lead_ascii hd

/-! ## Cursors -/

/-- Whether `rest` is what stands behind a byte offset of the text. -/
def At (text : List Char) (pos : Nat) (rest : List Char) : Prop :=
  ∃ front, text = front ++ rest ∧ byteLength front = pos

def byteAt? (text : List Char) (pos : Nat) : Option UInt8 := (utf8 text)[pos]?

def byteBefore? (text : List Char) (pos : Nat) : Option UInt8 :=
  if pos = 0 then none else byteAt? text (pos - 1)

/-- The bytes from an offset on. There are none if it lies outside of the text. -/
def bytesFrom? (text : List Char) (pos : Nat) : Option (List UInt8) :=
  if pos ≤ (utf8 text).length then some ((utf8 text).drop pos) else none

/-- The offset behind the bytes that pass the test from `pos` on. -/
def passOver (test : UInt8 → Bool) (text : List Char) (pos : Nat) : Nat :=
  pos + (((utf8 text).drop pos).takeWhile test).length

theorem at_zero (text : List Char) : At text 0 text := ⟨[], rfl, rfl⟩

theorem At.append {t : List Char} (h : At text pos (t ++ s)) : At text (pos + byteLength t) s := by
  obtain ⟨front, rfl, rfl⟩ := h
  exact ⟨front ++ t, by simp, by simp⟩

theorem At.pass (h : At text pos (c :: s)) : At text (pos + c.utf8Size) s := h.append (t := [c])

theorem At.step (h : At text pos (c :: s)) (hc : c.toNat < 0x80) : At text (pos + 1) s := by
  have hpass := h.pass
  rwa [utf8Size_ascii hc] at hpass

theorem At.byteLength_eq (h : At text pos s) : byteLength text = pos + byteLength s := by
  obtain ⟨front, rfl, rfl⟩ := h
  exact byteLength_append front s

/-- The offset of what is left is the length of what has been passed over. -/
theorem At.eq_sub (h : At text pos s) : pos = byteLength text - byteLength s := by
  rw [h.byteLength_eq, Nat.add_sub_cancel]

theorem At.eq_length_iff (h : At text pos s) : pos = (utf8 text).length ↔ s = [] := by
  rw [length_utf8, h.byteLength_eq]
  constructor
  · intro hp
    by_contra hne
    have hpos := byteLength_pos hne
    omega
  · rintro rfl
    rfl

theorem length_le_byteLength (s : List Char) : s.length ≤ byteLength s := by
  induction s with
  | nil => exact Nat.le_refl 0
  | cons c s ih =>
    have hpos := c.utf8Size_pos
    rw [List.length_cons, byteLength_cons]
    omega

theorem At.length_le (h : At text pos s) : s.length ≤ byteLength text := by
  have hlength := length_le_byteLength s
  rw [h.byteLength_eq]
  omega

theorem At.drop_utf8 (h : At text pos s) : (utf8 text).drop pos = utf8 s := by
  obtain ⟨front, rfl, rfl⟩ := h
  rw [utf8_append, ← length_utf8, List.drop_left]

theorem At.byteAt?_eq (h : At text pos s) : byteAt? text pos = s.head?.map lead := by
  have hhead : (utf8 s).head? = s.head?.map lead := by
    cases s with
    | nil => rfl
    | cons c s =>
      obtain ⟨tail, ht⟩ := exists_cons_utf8EncodeChar c
      rw [utf8_cons, ht]
      rfl
  rw [byteAt?, ← List.head?_drop, h.drop_utf8, hhead]

/-- A byte of ASCII stands at a cursor just where its character does. -/
theorem At.byteAt?_eq_some_iff {d : Char} (h : At text pos s) (hd : d.toNat < 0x80) :
    byteAt? text pos = some d.toUInt8 ↔ s.head? = some d := by
  rw [h.byteAt?_eq, Option.map_eq_some_iff]
  constructor
  · rintro ⟨c, hs, hc⟩
    rw [hs, (lead_eq_iff hd).mp hc]
  · intro hs
    exact ⟨d, hs, lead_ascii hd⟩

section

variable {front rest : List Char}

/-- The last byte of a character is one of ASCII just if it is the whole character. -/
theorem byteAt?_last_iff {d : Char} (hd : d.toNat < 0x80) :
    byteAt? (front ++ c :: rest) (byteLength (front ++ [c]) - 1) = some d.toUInt8 ↔ c = d := by
  have hpos := c.utf8Size_pos
  have hlength : byteLength (front ++ [c]) - 1 = (utf8 front).length + (c.utf8Size - 1) := by
    rw [length_utf8, byteLength_append, byteLength_cons, byteLength_nil]
    omega
  have hbyte : byteAt? (front ++ c :: rest) (byteLength (front ++ [c]) - 1) =
      (String.utf8EncodeChar c)[c.utf8Size - 1]? := by
    have hlt : c.utf8Size - 1 < (String.utf8EncodeChar c).length := by
      rw [String.length_utf8EncodeChar]
      omega
    rw [byteAt?, hlength, utf8_append, utf8_cons, List.getElem?_append_right (Nat.le_add_right _ _),
      Nat.add_sub_cancel_left, List.getElem?_append_left hlt]
  rw [hbyte]
  by_cases hc : c.toNat < 0x80
  · rw [utf8EncodeChar_ascii hc, utf8Size_ascii hc, ← lead_ascii hc]
    simpa using lead_eq_iff hd
  · constructor
    · intro h
      have hle := le_of_mem_utf8EncodeChar (Nat.not_lt.mp hc) (List.mem_of_getElem? h)
      rw [← lead_ascii hd, UInt8.le_iff_toNat_le, toNat_lead, leadByte, if_pos hd] at hle
      have h80 : (0x80 : UInt8).toNat = 0x80 := rfl
      omega
    · rintro rfl
      exact absurd hd hc

/-- A byte of ASCII stands before an offset just where its character does. -/
theorem byteBefore?_eq_some_iff {d : Char} (hd : d.toNat < 0x80) :
    byteBefore? (front ++ rest) (byteLength front) = some d.toUInt8 ↔ front.getLast? = some d := by
  cases front using List.reverseRecOn with
  | nil => simp [byteBefore?]
  | append_singleton front c =>
    have hpos := c.utf8Size_pos
    have hne : byteLength (front ++ [c]) ≠ 0 := by
      rw [byteLength_append, byteLength_cons]
      omega
    rw [byteBefore?, if_neg hne, List.append_assoc, List.singleton_append, byteAt?_last_iff hd]
    simp

end

theorem At.bytesFrom?_eq (h : At text pos s) : bytesFrom? text pos = some (utf8 s) := by
  have hle : pos ≤ (utf8 text).length := by
    rw [length_utf8, h.byteLength_eq]
    exact Nat.le_add_right _ _
  rw [bytesFrom?, if_pos hle, h.drop_utf8]

theorem At.passOver_eq {test : UInt8 → Bool} {pass : Char → Bool} (h : At text pos s)
    (ht : Agree test pass) : passOver test text pos = pos + byteLength (s.takeWhile pass) := by
  rw [passOver, h.drop_utf8, takeWhile_utf8 ht, length_utf8]

theorem At.dropWhile {test : UInt8 → Bool} {pass : Char → Bool} (h : At text pos s)
    (ht : Agree test pass) : At text (passOver test text pos) (s.dropWhile pass) := by
  rw [h.passOver_eq ht]
  rw [← List.takeWhile_append_dropWhile (p := pass) (l := s)] at h
  exact h.append

/-- Between two cursors the text can be cut. -/
theorem At.slice?_eq {start stop : Nat} {piece rest : List Char} (h : At text start (piece ++ rest))
    (hr : At text stop rest) : slice? start stop text = some piece := by
  have hstart := h.append.byteLength_eq
  have hstop := hr.byteLength_eq
  obtain ⟨front, rfl, rfl⟩ := h
  exact slice?_eq_some_iff.mpr ⟨front, rest, by simp, rfl, by rw [byteLength_append]; omega⟩

theorem At.slice?_add (h : At text pos s) (n : Nat) :
    slice? pos (pos + n) text = (takeBytes? n s).map Prod.fst := by
  obtain ⟨front, rfl, rfl⟩ := h
  rw [slice?, if_pos (Nat.le_add_right _ _), takeBytes?_append, Nat.add_sub_cancel_left]
  rfl

/-- A word of ASCII is found in the bytes of a text just where it is found in the text. -/
theorem isPrefixOf_utf8 {word : List Char} (h : word.all (·.toNat < 0x80) = true) (s : List Char) :
    (utf8 word).isPrefixOf (utf8 s) = (after? word s).isSome := by
  induction word generalizing s with
  | nil => rfl
  | cons a word ih =>
    obtain ⟨ha, hword⟩ : a.toNat < 0x80 ∧ word.all (·.toNat < 0x80) = true := by simpa using h
    rw [utf8_cons, utf8EncodeChar_ascii ha]
    cases s with
    | nil => rfl
    | cons c s =>
      by_cases hc : a = c
      · subst hc
        rw [utf8_cons, utf8EncodeChar_ascii ha, after?_cons, if_pos rfl]
        simpa using ih hword s
      · obtain ⟨tail, ht⟩ := exists_cons_utf8EncodeChar c
        have hne : (a.toUInt8 == lead c) = false := by
          rw [beq_eq_false_iff_ne]
          exact fun he => hc ((lead_eq_iff ha).mp he.symm).symm
        rw [utf8_cons, ht, after?_cons, if_neg hc, List.singleton_append, List.cons_append,
          List.isPrefixOf, hne]
        rfl

end ModuleLoader.Text
