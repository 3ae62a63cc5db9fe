import ModuleLoader.CommonJs.Wrapper
import ModuleLoader.Json.Printer
import ModuleLoader.Proofs.Json.Printed
import ModuleLoader.Proofs.Json.Values

/-! Printing and reading. What is printed for a tree is a text of the grammar that means the tree,
so it is read as the tree. -/

namespace ModuleLoader.Json

open Grammar Text

/-! ## Strings -/

/-- A character below the space has a high digit of its escape that is zero or one. -/
theorem hexUnit_control {n : Nat} (hn : n < 0x20) :
    HexUnit '0' '0' (Nat.digitChar (n / 16)) (Nat.digitChar (n % 16)) n := by
  refine ⟨0, 0, n / 16, n % 16, by decide, by decide, ⟨by omega, .inl rfl⟩, ⟨by omega, .inl rfl⟩,
    ?_⟩
  simp only [Nat.ofDigits_cons, Nat.ofDigits_nil]
  omega

/-- The escape of a character spells it, whatever it stands in front of. -/
theorem spells_escapeChar (c : Char) {s : List Char} {elements : List Element}
    (h : Spells s elements) :
    ∃ e, Spells (escapeChar c ++ s) (e :: elements) ∧
      decode (e :: elements) = c :: decode elements := by
  have hchar : decode (.char c :: elements) = c :: decode elements := by rw [decode]
  unfold escapeChar
  split_ifs with hquote hslash hb hf hn hr ht hc
  · exact ⟨.char c, .escape (hquote ▸ .quote) h, hchar⟩
  · exact ⟨.char c, .escape (hslash ▸ .backslash) h, hchar⟩
  · exact ⟨.char c, .escape (hb ▸ .backspace) h, hchar⟩
  · exact ⟨.char c, .escape (hf ▸ .formFeed) h, hchar⟩
  · exact ⟨.char c, .escape (hn ▸ .lineFeed) h, hchar⟩
  · exact ⟨.char c, .escape (hr ▸ .carriageReturn) h, hchar⟩
  · exact ⟨.char c, .escape (ht ▸ .tab) h, hchar⟩
  · -- The unit of a control is no surrogate, so it stands alone.
    have hhigh : ¬IsHigh c.toNat := fun hi => by
      have := hi.1
      omega
    have hlow : ¬IsLow c.toNat := fun hl => by
      have := hl.1
      omega
    refine ⟨.unit c.toNat, .unit (hexUnit_control hc) h, ?_⟩
    rw [decode_unit fun hi => absurd hi hhigh, unitChar_eq, if_neg (not_or.mpr ⟨hhigh, hlow⟩),
      Char.ofNat_toNat]
  · exact ⟨.char c, .plain (Nat.not_lt.mp hc) hquote hslash h, hchar⟩

theorem exists_spells_escape (s : List Char) :
    ∃ elements, Spells (escape s) elements ∧ decode elements = s := by
  induction s with
  | nil => exact ⟨[], .nil, by rw [decode]⟩
  | cons c s ih =>
    obtain ⟨elements, hs, hd⟩ := ih
    obtain ⟨e, he, hc⟩ := spells_escapeChar c hs
    exact ⟨e :: elements, he, by rw [hc, hd]⟩

theorem stringText_quote (s : String) : StringText (quote s).toList s := by
  obtain ⟨elements, hs, hd⟩ := exists_spells_escape s.toList
  have h := StringText.quoted hs
  rwa [hd, String.ofList_toList, ← toList_quote] at h

/-! ## Lists -/

theorem padded_of_item {α : Type} {Item : List Char → α → Prop} {s : List Char} {a : α}
    (h : Item s a) : Padded Item s a := by
  have hnone : Blanks [] := by simp [Blanks]
  have hp := Padded.mk hnone h hnone
  rwa [List.append_nil, List.nil_append] at hp

theorem member_of_value {Item : List Char → Json → Prop} {s : List Char} {value : Json}
    (key : String) (h : Item s value) : Member Item ((quote key).toList ++ ':' :: s) (key, value) :=
  .mk (padded_of_item (stringText_quote key)) (padded_of_item h)

theorem separated_renderItems {Item : List Char → Json → Prop} {items : List Json}
    (hne : items ≠ []) (h : ∀ v ∈ items, Item v.render.toList v) :
    Separated (Padded Item) (renderItems items).toList items := by
  induction items with
  | nil => exact absurd rfl hne
  | cons v rest ih =>
    have hv := padded_of_item (h v List.mem_cons_self)
    cases rest with
    | nil =>
      rw [renderItems]
      exact .one hv
    | cons w rest =>
      have hrest := ih (by simp) fun u hu => h u (List.mem_cons_of_mem _ hu)
      have hs := Separated.cons hv hrest
      rw [renderItems]
      · simpa using hs
      · simp

theorem separated_renderMembers {Item : List Char → Json → Prop} {entries : List (String × Json)}
    (hne : entries ≠ []) (h : ∀ e ∈ entries, Item e.2.render.toList e.2) :
    Separated (Member Item) (renderMembers entries).toList entries := by
  induction entries with
  | nil => exact absurd rfl hne
  | cons e rest ih =>
    obtain ⟨key, value⟩ := e
    have hv := member_of_value key (h (key, value) List.mem_cons_self)
    cases rest with
    | nil =>
      rw [renderMembers]
      simpa using Separated.one hv
    | cons w rest =>
      have hrest := ih (by simp) fun u hu => h u (List.mem_cons_of_mem _ hu)
      have hs := Separated.cons hv hrest
      rw [renderMembers]
      · simpa using hs
      · simp

/-! ## Trees -/

/-- A tree of finite numbers and of objects built by insertion, in which arrays and objects nest at
most `depth` deep. -/
inductive Fits : Nat → Json → Prop where
  | null (depth : Nat) : Fits depth .null
  | bool (depth : Nat) (b : Bool) : Fits depth (.bool b)
  | number (depth : Nat) {x : Binary64} (hx : x.isFinite = true) : Fits depth (.number x)
  | string (depth : Nat) (s : String) : Fits depth (.string s)
  | array {depth : Nat} {items : List Json} (h : ∀ v ∈ items, Fits depth v) :
    Fits (depth + 1) (.array items)
  | object {depth : Nat} {pairs : List (String × Json)}
    (h : ∀ e ∈ (Members.ofList pairs).entries, Fits depth e.2) :
    Fits (depth + 1) (.object (Members.ofList pairs))

/-- What is printed for a tree means the tree. -/
theorem valueText_render {depth : Nat} {v : Json} (h : Fits depth v) :
    ValueText depth v.render.toList v := by
  induction h with
  | null depth =>
    rw [render]
    exact value_of_scalar .null
  | bool depth b =>
    cases b with
    | true =>
      rw [render]
      exact value_of_scalar .true
    | false =>
      rw [render]
      exact value_of_scalar .false
  | number depth hx =>
    rw [render, if_pos hx]
    exact value_of_scalar (.number (number_toText hx))
  | string depth s =>
    rw [render]
    exact value_of_scalar (.string (stringText_quote s))
  | @array depth items h ih =>
    have hrender : (render (.array items)).toList = '[' :: (renderItems items).toList ++ [']'] := by
      rw [render]
      simp
    refine .inr (.inl ?_)
    rw [hrender]
    rcases items.eq_nil_or_concat with rfl | ⟨_, _, rfl⟩
    · exact .empty (by simp [renderItems, Blanks])
    · exact .items (separated_renderItems (by simp) ih)
  | @object depth pairs h ih =>
    have hcollects := Members.collects_ofList (Members.ofList pairs).entries
    rw [Members.ofList_entries_ofList] at hcollects
    generalize Members.ofList pairs = members at h ih hcollects ⊢
    obtain ⟨entries⟩ := members
    have hrender : (render (.object ⟨entries⟩)).toList =
        '\x7b' :: (renderMembers entries).toList ++ ['\x7d'] := by
      rw [render]
      simp
    refine .inr (.inr ?_)
    rw [hrender]
    by_cases hne : entries = []
    · subst hne
      exact .empty (by simp [renderMembers, Blanks])
    · exact .members (separated_renderMembers hne ih) hcollects

theorem parse_of_valueText {text : String} {v : Json} (h : ValueText depthLimit text.toList v) :
    parse text = .ok v := by
  rw [parse, (readDocument_eq_ok_iff text.toList v).mpr (padded_of_item h)]

theorem parse_quote (s : String) : parse (quote s) = .ok (.string s) :=
  parse_of_valueText (value_of_scalar (.string (stringText_quote s)))

theorem jsonText?_jsonScript (text : String) :
    CommonJs.jsonText? (CommonJs.jsonScript text) = some text := by
  have hafter : after? "JSON.parse(".toList (CommonJs.jsonScript text).toList =
      some ((quote text).toList ++ [')']) := by
    refine after?_eq_some_iff.mpr ?_
    simp [CommonJs.jsonScript]
  rw [CommonJs.jsonText?, hafter]
  simp [parse_quote]

/-- What is printed for a tree is read as the tree, and a string literal as the string. So the
script of a JSON module carries the module's text as it is. -/
theorem parse_render :
    (∀ v : Json, v.Fits 512 → parse v.render = .ok v) ∧
      (∀ s : String, parse (quote s) = .ok (.string s)) ∧
      ∀ text : String, ∃ literal : String,
        CommonJs.jsonScript text = "JSON.parse(" ++ literal ++ ")" ∧
        parse literal = .ok (.string text) ∧
        CommonJs.jsonText? (CommonJs.jsonScript text) = some text :=
  ⟨fun _ h => parse_of_valueText (valueText_render h), parse_quote,
    fun text => ⟨quote text, rfl, parse_quote text, jsonText?_jsonScript text⟩⟩

/-- Members with the double nearest to a tenth, a control and a character of two surrogates. -/
def sampleMembers : List (String × Json) :=
  [("a", .array [.number ⟨0x3FB999999999999A⟩, .null]),
    ("b", .string (String.ofList ['\x01', Char.ofNat 0x1F600]))]

theorem parse_render_sample :
    Fits 512 (.object (Members.ofList sampleMembers)) ∧
      parse (render (.object (Members.ofList sampleMembers))) = .ok (.object ⟨sampleMembers⟩) := by
  have hitems : Fits 511 (.array [.number ⟨0x3FB999999999999A⟩, .null]) := by
    refine .array ?_
    rintro v (_ | ⟨_, _ | ⟨_, _ | _⟩⟩)
    · exact .number 510 (by decide)
    · exact .null 510
  have hfits : Fits 512 (.object (Members.ofList sampleMembers)) := by
    refine .object ?_
    rintro e (_ | ⟨_, _ | ⟨_, _ | _⟩⟩)
    · exact hitems
    · exact .string 511 _
  exact ⟨hfits, parse_render.1 _ hfits⟩

example : render (.object ⟨sampleMembers⟩) =
    "\x7b\"a\":[0.1,null],\"b\":\"\\u0001" ++ String.ofList [Char.ofNat 0x1F600] ++ "\"\x7d" := by
  decide +kernel

end ModuleLoader.Json
