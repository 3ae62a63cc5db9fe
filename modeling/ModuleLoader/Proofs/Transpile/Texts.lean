import Mathlib.Data.List.Basic
import ModuleLoader.Proofs.Text.Pieces
import ModuleLoader.Transpile.Statement

/-! The texts of statements. Whatever a statement says is taken from the line that it is recognized
in: each character of its specifiers, names and declarations is one of the line. -/

namespace ModuleLoader

open List (Subset.trans)

namespace Text

variable {s rest : List Char}

theorem trimStart_subset (s : List Char) : trimStart s ⊆ s := (List.dropWhile_sublist _).subset

theorem trimEnd_subset (s : List Char) : trimEnd s ⊆ s := fun _ hc =>
  List.mem_reverse.mp ((List.dropWhile_sublist _).subset (List.mem_reverse.mp hc))

theorem trim_subset (s : List Char) : trim s ⊆ s :=
  Subset.trans (trimEnd_subset _) (trimStart_subset s)

theorem subset_of_after? {lead : List Char} (h : after? lead s = some rest) : rest ⊆ s := by
  rw [after?_eq_some_iff.mp h]
  exact List.subset_append_right lead rest

theorem subset_of_cutAt? {needle before : List Char} (h : cutAt? needle s = some (before, rest)) :
    before ⊆ s ∧ rest ⊆ s := by
  rw [eq_of_cutAt?_eq_some h]
  exact ⟨fun c hc => by simp [hc], fun c hc => by simp [hc]⟩

theorem subset_of_takeName? {name : List Char} (h : takeName? s = some (name, rest)) :
    name ⊆ s ∧ rest ⊆ s := by
  rw [eq_append_of_takeName? h]
  exact ⟨List.subset_append_left name rest, List.subset_append_right name rest⟩

end Text

namespace Transpile

open Text

variable {s rest : List Char} {specifier : String}

/-! ## Pieces of statements -/

theorem subset_of_blanks? (h : blanks? s = some rest) : rest ⊆ s := by
  cases s with
  | nil => cases h
  | cons c r =>
    simp only [blanks?, Option.ite_none_right_eq_some, Option.some.injEq] at h
    exact h.2 ▸ trimStart_subset _

theorem subset_of_specifier? (h : specifier? s = some (specifier, rest)) :
    specifier.toList ⊆ s ∧ rest ⊆ s := by
  cases s with
  | nil => cases h
  | cons c r =>
    simp only [specifier?, Option.ite_none_right_eq_some] at h
    obtain ⟨-, h⟩ := h
    split at h
    · next d text q _ ht hd =>
      cases h
      have hfront : r.takeWhile (!isQuoteMark ·) ⊆ r := (List.takeWhile_sublist _).subset
      have hback : r.dropWhile (!isQuoteMark ·) ⊆ r := (List.dropWhile_sublist _).subset
      rw [ht] at hfront
      rw [hd] at hback
      rw [String.toList_ofList]
      exact ⟨Subset.trans hfront (List.subset_cons_self c r),
        Subset.trans (List.subset_cons_self q _) (Subset.trans hback (List.subset_cons_self c r))⟩
    · cases h

theorem subset_of_finalSpecifier? (h : finalSpecifier? s = some specifier) :
    specifier.toList ⊆ s := by
  obtain ⟨⟨text, rest⟩, ht, hr⟩ := Option.bind_eq_some_iff.mp h
  simp only [Option.ite_none_right_eq_some, Option.some.injEq] at hr
  obtain ⟨-, rfl⟩ := hr
  exact Subset.trans (subset_of_specifier? ht).1 (trimStart_subset s)

theorem subset_of_fromSpecifier? (h : fromSpecifier? s = some specifier) :
    specifier.toList ⊆ s := by
  obtain ⟨r, hr, hs⟩ := Option.bind_eq_some_iff.mp h
  exact Subset.trans (subset_of_finalSpecifier? hs)
    (Subset.trans (subset_of_after? hr) (trimStart_subset s))

theorem subset_of_braced? {list : List Char} (h : braced? s = some (list, rest)) :
    list ⊆ s ∧ rest ⊆ s := by
  unfold braced? at h
  have hs := trimStart_subset s
  split at h
  · next r hr =>
    rw [hr] at hs
    have hr : r ⊆ s := Subset.trans (List.subset_cons_self _ r) hs
    split at h
    · next c _ hd =>
      cases h
      have hback : r.dropWhile isNotBrace ⊆ r := (List.dropWhile_sublist _).subset
      rw [hd] at hback
      exact ⟨Subset.trans (List.takeWhile_sublist _).subset hr,
        Subset.trans (List.subset_cons_self c _) (Subset.trans hback hr)⟩
    · cases h
  · cases h

/-! ## Lists -/

def ListEntry.texts (e : ListEntry) : List String := [e.source, e.asName]

theorem listEntry_texts_subset (entry : List Char) :
    ∀ t ∈ (listEntry entry).texts, t.toList ⊆ entry := by
  unfold listEntry
  split
  · next source asName hc =>
    obtain ⟨hs, ha⟩ := subset_of_cutAt? hc
    simp only [ListEntry.texts, List.forall_mem_cons, String.toList_ofList]
    exact ⟨Subset.trans (trim_subset source) hs, Subset.trans (trim_subset asName) ha,
      fun _ hm => absurd hm List.not_mem_nil⟩
  · simp [ListEntry.texts]

theorem listEntries_texts_subset (list : List Char) :
    ∀ t ∈ (listEntries list).flatMap ListEntry.texts, t.toList ⊆ list := by
  intro t ht
  obtain ⟨e, he, ht⟩ := List.mem_flatMap.mp ht
  obtain ⟨entry, hm, rfl⟩ := List.mem_map.mp he
  obtain ⟨piece, hp, rfl⟩ := List.mem_map.mp (List.mem_of_mem_filter hm)
  exact Subset.trans (listEntry_texts_subset _ t ht)
    (Subset.trans (trim_subset piece) (infix_of_mem_splitOn hp).subset)

/-! ## Imports -/

def ImportClause.texts : ImportClause → List String
  | .types => []
  | .bindings main whole named =>
    main.toList ++ whole.toList ++ (named.getD []).flatMap ListEntry.texts

theorem subset_of_defaultName? {main : Option String} (h : defaultName? s = some (main, rest)) :
    (∀ t ∈ main.toList, t.toList ⊆ s) ∧ rest ⊆ s := by
  unfold defaultName? at h
  split at h
  · cases h
    exact ⟨fun t ht => absurd ht List.not_mem_nil, List.Subset.refl s⟩
  · cases hc : cutAt? [','] s with
    | none =>
      simp only [hc, Option.ite_none_right_eq_some, Option.some.injEq, Prod.mk.injEq] at h
      obtain ⟨-, rfl, rfl⟩ := h
      simp
    | some cut =>
      obtain ⟨name, after⟩ := cut
      obtain ⟨hn, ha⟩ := subset_of_cutAt? hc
      simp only [hc, Option.ite_none_right_eq_some, Option.some.injEq, Prod.mk.injEq] at h
      obtain ⟨-, rfl, rfl⟩ := h
      simpa using ⟨Subset.trans (trim_subset name) hn, Subset.trans (trim_subset after) ha⟩

theorem bindings?_texts_subset {main : Option String} {clause : ImportClause}
    (hm : ∀ t ∈ main.toList, t.toList ⊆ s) (hr : rest ⊆ s)
    (h : bindings? main rest = some clause) : ∀ t ∈ clause.texts, t.toList ⊆ s := by
  intro t ht
  unfold bindings? at h
  split at h
  · cases h
    simp only [ImportClause.texts, Option.toList_none, Option.getD_none, List.flatMap_nil,
      List.append_nil] at ht
    exact hm t ht
  · next r =>
    obtain ⟨name, ha, hn⟩ := Option.bind_eq_some_iff.mp h
    simp only [Option.ite_none_right_eq_some, Option.some.injEq] at hn
    obtain ⟨-, rfl⟩ := hn
    have hafter : r ⊆ s := Subset.trans (List.subset_cons_self _ r) hr
    have hname : trim name ⊆ s := Subset.trans (trim_subset name)
      (Subset.trans (subset_of_after? ha) (Subset.trans (trimStart_subset r) hafter))
    simp only [ImportClause.texts, Option.getD_none, List.flatMap_nil, List.append_nil,
      List.mem_append, Option.toList_some, List.mem_singleton] at ht
    rcases ht with ht | rfl
    · exact hm t ht
    · rwa [String.toList_ofList]
  · next r =>
    simp only [Option.ite_none_right_eq_some, Option.some.injEq] at h
    obtain ⟨-, rfl⟩ := h
    have hlist : r.dropLast ⊆ s :=
      Subset.trans (List.dropLast_subset r) (Subset.trans (List.subset_cons_self _ r) hr)
    simp only [ImportClause.texts, Option.toList_none, List.append_nil, Option.getD_some,
      List.mem_append] at ht
    rcases ht with ht | ht
    · exact hm t ht
    · exact Subset.trans (listEntries_texts_subset _ t ht) hlist
  · cases h

theorem importClause?_texts_subset {clause : ImportClause} (h : importClause? s = some clause) :
    ∀ t ∈ clause.texts, t.toList ⊆ s := by
  unfold importClause? at h
  dsimp only at h
  split at h
  · cases h
    exact fun t ht => absurd ht List.not_mem_nil
  · obtain ⟨⟨main, rest⟩, hd, hb⟩ := Option.bind_eq_some_iff.mp h
    obtain ⟨hm, hr⟩ := subset_of_defaultName? hd
    intro t ht
    exact Subset.trans (bindings?_texts_subset hm hr hb t ht) (trim_subset s)

theorem subset_of_clauseBeforeFrom? {clause : List Char}
    (h : clauseBeforeFrom? s = some (clause, specifier)) :
    clause ⊆ s ∧ specifier.toList ⊆ s := by
  induction s generalizing clause with
  | nil => cases h
  | cons c r ih =>
    unfold clauseBeforeFrom? at h
    split at h
    · next hf =>
      cases h
      exact ⟨by simp, Subset.trans (subset_of_fromSpecifier? hf) (List.subset_cons_self c r)⟩
    · obtain ⟨⟨clause', specifier'⟩, hc, he⟩ := Option.map_eq_some_iff.mp h
      cases he
      obtain ⟨hclause, hspecifier⟩ := ih hc
      exact ⟨List.cons_subset_cons c hclause, Subset.trans hspecifier (List.subset_cons_self c r)⟩

/-! ## Declarations -/

theorem subset_of_mem_splitTopFrom {sep : Char} {n : Nesting} {piece : List Char}
    (h : piece ∈ splitTopFrom sep n s) : piece ⊆ s := by
  induction s generalizing n piece with
  | nil =>
    obtain rfl := List.mem_singleton.mp h
    exact List.Subset.refl []
  | cons c r ih =>
    rw [splitTopFrom] at h
    split at h
    · rcases List.mem_cons.mp h with rfl | h
      · exact List.nil_subset _
      · exact Subset.trans (ih h) (List.subset_cons_self c r)
    · split at h
      · obtain rfl := List.mem_singleton.mp h
        simp
      · next first others hp =>
        rcases List.mem_cons.mp h with rfl | h
        · exact List.cons_subset_cons c (ih (hp ▸ List.mem_cons_self))
        · exact Subset.trans (ih (hp ▸ List.mem_cons_of_mem _ h)) (List.subset_cons_self c r)

theorem subset_of_cutTopFrom? {ch : Char} {n : Nesting} {before : Option Char} {front : List Char}
    (h : cutTopFrom? ch n before s = some (front, rest)) : front ⊆ s ∧ rest ⊆ s := by
  induction s generalizing n before front with
  | nil => cases h
  | cons c r ih =>
    rw [cutTopFrom?] at h
    split at h
    · cases h
      exact ⟨List.nil_subset _, List.subset_cons_self c _⟩
    · obtain ⟨⟨front', rest'⟩, hc, he⟩ := Option.map_eq_some_iff.mp h
      cases he
      obtain ⟨hf, hr⟩ := ih hc
      exact ⟨List.cons_subset_cons c hf, Subset.trans hr (List.subset_cons_self c r)⟩

theorem beforeTop_subset (ch : Char) (s : List Char) : beforeTop ch s ⊆ s := by
  unfold beforeTop
  split
  · next hc => exact (subset_of_cutTopFrom? hc).1
  · exact List.Subset.refl s

theorem afterTop_subset (ch : Char) (s : List Char) : afterTop ch s ⊆ s := by
  unfold afterTop
  split
  · next hc => exact (subset_of_cutTopFrom? hc).2
  · exact List.Subset.refl s

theorem dropDots_subset (s : List Char) : dropDots s ⊆ s := by
  fun_induction dropDots s with
  | case1 rest ih => exact Subset.trans ih fun c hc => by simp [hc]
  | case2 s => exact List.Subset.refl s

theorem subset_of_mem_plainName {name : List Char} (h : name ∈ plainName s) : name ⊆ s := by
  unfold plainName at h
  dsimp only at h
  split at h
  · obtain rfl := List.mem_singleton.mp h
    exact (List.takeWhile_sublist _).subset
  · cases h

theorem insideBrackets_subset (close : Char) (s : List Char) : insideBrackets close s ⊆ s := by
  unfold insideBrackets
  dsimp only
  split
  · exact Subset.trans (List.dropLast_subset _) (trimEnd_subset s)
  · exact List.Subset.refl s

/-- The elements of a pattern, and their targets and keys without defaults. -/
theorem subset_of_mem_elements {close c : Char} {r element : List Char}
    (hr : c :: r ⊆ s) (he : element ∈ splitTop ',' (insideBrackets close r)) :
    withoutDefault element ⊆ s :=
  calc withoutDefault element
    _ ⊆ trim element := beforeTop_subset _ _
    _ ⊆ element := trim_subset element
    _ ⊆ insideBrackets close r := subset_of_mem_splitTopFrom he
    _ ⊆ r := insideBrackets_subset close r
    _ ⊆ c :: r := List.subset_cons_self c r
    _ ⊆ s := hr

theorem subset_of_mem_bindingNames {fuel : Nat} {name : List Char}
    (h : name ∈ bindingNames fuel s) : name ⊆ s := by
  induction fuel generalizing s with
  | zero => cases h
  | succ fuel ih =>
    have hs : dropDots (trim s) ⊆ s := Subset.trans (dropDots_subset _) (trim_subset s)
    obtain ⟨r, hr⟩ | ⟨r, hr⟩ | hplain := pattern_cases (dropDots (trim s))
    · rw [bindingNames_object hr] at h
      rw [hr] at hs
      obtain ⟨element, he, hn⟩ := List.mem_flatMap.mp h
      exact Subset.trans (ih hn) (Subset.trans (afterTop_subset _ _) (subset_of_mem_elements hs he))
    · rw [bindingNames_array hr] at h
      rw [hr] at hs
      obtain ⟨element, he, hn⟩ := List.mem_flatMap.mp h
      exact Subset.trans (ih hn) (subset_of_mem_elements hs he)
    · rw [bindingNames_plain hplain] at h
      exact Subset.trans (subset_of_mem_plainName h) hs

theorem subset_of_mem_declaredNames {name : List Char} (h : name ∈ declaredNames s) :
    name ⊆ s := by
  obtain ⟨declarator, hd, hn⟩ := List.mem_flatMap.mp h
  calc name
    _ ⊆ beforeTop '=' declarator := subset_of_mem_bindingNames hn
    _ ⊆ declarator := beforeTop_subset _ _
    _ ⊆ dropSemicolons s := subset_of_mem_splitTopFrom hd
    _ ⊆ trimEnd s := fun _ hc =>
      List.mem_reverse.mp ((List.dropWhile_sublist _).subset (List.mem_reverse.mp hc))
    _ ⊆ s := trimEnd_subset s

theorem subset_of_keyword? {word : List Char} (h : keyword? word s = some rest) : rest ⊆ s := by
  obtain ⟨r, hr, h⟩ := Option.bind_eq_some_iff.mp h
  split at h
  · split at h
    · cases h
    · cases h
      exact subset_of_after? hr
  · cases h
    exact List.nil_subset s

/-- The name that follows `function`, with or without a star between them. -/
theorem subset_of_starredName? {name : List Char}
    (h : takeName? (match trimStart s with | '*' :: r => trimStart r | r => r) =
      some (name, rest)) :
    name ⊆ s := by
  refine Subset.trans (subset_of_takeName? h).1 ?_
  have hs := trimStart_subset s
  split
  · next r hr =>
    rw [hr] at hs
    exact Subset.trans (trimStart_subset r) (Subset.trans (List.subset_cons_self _ r) hs)
  · exact hs

theorem subset_of_functionName? {name : List Char} (h : functionName? s = some name) :
    name ⊆ s := by
  unfold functionName? at h
  dsimp only at h
  split at h
  · next r ha =>
    obtain ⟨t, ht, h⟩ := Option.bind_eq_some_iff.mp h
    obtain ⟨u, hu, h⟩ := Option.bind_eq_some_iff.mp h
    obtain ⟨⟨n, rest⟩, hn, h⟩ := Option.bind_eq_some_iff.mp h
    cases h
    exact Subset.trans (subset_of_starredName? hn) (Subset.trans (subset_of_keyword? hu)
      (Subset.trans (subset_of_blanks? ht) (subset_of_after? ha)))
  · rw [Option.bind_eq_bind, Option.bind_some] at h
    obtain ⟨u, hu, h⟩ := Option.bind_eq_some_iff.mp h
    obtain ⟨⟨n, rest⟩, hn, h⟩ := Option.bind_eq_some_iff.mp h
    cases h
    exact Subset.trans (subset_of_starredName? hn) (subset_of_keyword? hu)

theorem subset_of_className? {name : List Char} (h : className? s = some name) : name ⊆ s := by
  obtain ⟨r, hr, h⟩ := Option.bind_eq_some_iff.mp h
  obtain ⟨t, ht, h⟩ := Option.bind_eq_some_iff.mp h
  obtain ⟨⟨n, rest⟩, hn, h⟩ := Option.bind_eq_some_iff.mp h
  cases h
  exact Subset.trans (subset_of_takeName? hn).1
    (Subset.trans (subset_of_blanks? ht) (subset_of_after? hr))

theorem subset_of_declarators? {declarators : List Char} (h : declarators? s = some declarators) :
    declarators ⊆ s := by
  obtain ⟨-, word, -, -, hw, -⟩ := List.findSome?_eq_some_iff.mp h
  obtain ⟨r, hr, hd⟩ := Option.bind_eq_some_iff.mp hw
  exact Subset.trans (subset_of_blanks? hd) (subset_of_after? hr)

theorem subset_of_declarationNames? {names : List (List Char)}
    (h : declarationNames? s = some names) : ∀ name ∈ names, name ⊆ s := by
  intro name hn
  unfold declarationNames? at h
  rcases Option.or_eq_some_iff.mp h with h | ⟨-, h⟩
  · obtain ⟨n, hf, rfl⟩ := Option.map_eq_some_iff.mp h
    obtain rfl := List.mem_singleton.mp hn
    exact subset_of_functionName? hf
  · rcases Option.or_eq_some_iff.mp h with h | ⟨-, h⟩
    · obtain ⟨n, hc, rfl⟩ := Option.map_eq_some_iff.mp h
      obtain rfl := List.mem_singleton.mp hn
      exact subset_of_className? hc
    · obtain ⟨d, hd, rfl⟩ := Option.map_eq_some_iff.mp h
      exact Subset.trans (subset_of_mem_declaredNames hn) (subset_of_declarators? hd)

/-! ## Statements -/

def Statement.texts : Statement → List String
  | .importOnly specifier => [specifier]
  | .importFrom clause specifier => specifier :: clause.texts
  | .exportAllAs name specifier => [name, specifier]
  | .exportAll specifier => [specifier]
  | .exportListFrom entries specifier => specifier :: entries.flatMap ListEntry.texts
  | .exportList entries => entries.flatMap ListEntry.texts
  | .exportDefaultFunction name text => [name, text]
  | .exportDefaultClass name text => [name, text]
  | .exportDefault expression => [expression]
  | .exportDeclaration names text => text :: names

variable {st : Statement}

theorem importStatement?_texts_subset (h : importStatement? s = some st) :
    ∀ t ∈ st.texts, t.toList ⊆ s := by
  unfold importStatement? at h
  split at h
  · next hs =>
    cases h
    simpa [Statement.texts] using subset_of_finalSpecifier? hs
  · obtain ⟨r, hr, h⟩ := Option.bind_eq_some_iff.mp h
    obtain ⟨⟨text, specifier⟩, hf, h⟩ := Option.bind_eq_some_iff.mp h
    obtain ⟨clause, hc, h⟩ := Option.bind_eq_some_iff.mp h
    cases h
    have hs := subset_of_blanks? hr
    obtain ⟨htext, hspecifier⟩ := subset_of_clauseBeforeFrom? hf
    refine List.forall_mem_cons.mpr ⟨Subset.trans hspecifier hs, fun t ht => ?_⟩
    exact Subset.trans (importClause?_texts_subset hc t ht) (Subset.trans htext hs)

theorem exportAll?_texts_subset (h : exportAll? s = some st) : ∀ t ∈ st.texts, t.toList ⊆ s := by
  have hs := trimStart_subset s
  unfold exportAll? at h
  split at h
  · next r hr =>
    rw [hr] at hs
    have hr : r ⊆ s := Subset.trans (List.subset_cons_self _ r) hs
    rcases Option.or_eq_some_iff.mp h with h | ⟨-, h⟩
    · obtain ⟨u, hu, h⟩ := Option.bind_eq_some_iff.mp h
      obtain ⟨v, hv, h⟩ := Option.bind_eq_some_iff.mp h
      obtain ⟨⟨name, rest⟩, hn, h⟩ := Option.bind_eq_some_iff.mp h
      obtain ⟨w, hw, h⟩ := Option.bind_eq_some_iff.mp h
      obtain ⟨specifier, hf, h⟩ := Option.bind_eq_some_iff.mp h
      cases h
      have hv : v ⊆ s := Subset.trans (subset_of_blanks? hv)
        (Subset.trans (subset_of_after? hu) (Subset.trans (trimStart_subset r) hr))
      obtain ⟨hname, hrest⟩ := subset_of_takeName? hn
      have hspecifier : specifier.toList ⊆ s := Subset.trans (subset_of_fromSpecifier? hf)
        (Subset.trans (subset_of_blanks? hw) (Subset.trans hrest hv))
      simpa [Statement.texts] using ⟨Subset.trans hname hv, hspecifier⟩
    · obtain ⟨specifier, hf, rfl⟩ := Option.map_eq_some_iff.mp h
      simpa [Statement.texts] using Subset.trans (subset_of_fromSpecifier? hf) hr
  · cases h

/-- The list of an export is another module's if a specifier stands behind it. -/
theorem exists_of_exportList? (h : exportList? s = some st) : ∃ list rest,
    braced? s = some (list, rest) ∧ ((∃ specifier, fromSpecifier? rest = some specifier ∧
      st = .exportListFrom (listEntries list) specifier) ∨
        endsStatement rest = true ∧ st = .exportList (listEntries list)) := by
  obtain ⟨⟨list, rest⟩, hb, h⟩ := Option.bind_eq_some_iff.mp h
  refine ⟨list, rest, hb, ?_⟩
  dsimp only at h
  split at h
  · next specifier hf =>
    cases h
    exact .inl ⟨specifier, hf, rfl⟩
  · split at h
    · next hends =>
      cases h
      exact .inr ⟨hends, rfl⟩
    · cases h

theorem exportList?_texts_subset (h : exportList? s = some st) : ∀ t ∈ st.texts, t.toList ⊆ s := by
  obtain ⟨list, rest, hb, hst⟩ := exists_of_exportList? h
  obtain ⟨hlist, hrest⟩ := subset_of_braced? hb
  have hentries : ∀ t ∈ (listEntries list).flatMap ListEntry.texts, t.toList ⊆ s := fun t ht =>
    Subset.trans (listEntries_texts_subset list t ht) hlist
  rcases hst with ⟨specifier, hf, rfl⟩ | ⟨-, rfl⟩
  · exact List.forall_mem_cons.mpr ⟨Subset.trans (subset_of_fromSpecifier? hf) hrest, hentries⟩
  · exact hentries

theorem exportDefault?_texts_subset (h : exportDefault? s = some st) :
    ∀ t ∈ st.texts, t.toList ⊆ s := by
  obtain ⟨r, hr, h⟩ := Option.bind_eq_some_iff.mp h
  obtain ⟨u, hu, h⟩ := Option.bind_eq_some_iff.mp h
  obtain ⟨value, hv, h⟩ := Option.bind_eq_some_iff.mp h
  have hvalue : value ⊆ s :=
    Subset.trans (subset_of_blanks? hv) (Subset.trans (subset_of_after? hu) (subset_of_blanks? hr))
  dsimp only at h
  split at h
  · next name hn =>
    cases h
    simpa [Statement.texts] using ⟨Subset.trans (subset_of_functionName? hn) hvalue, hvalue⟩
  · split at h
    · next name hn =>
      cases h
      have hname := subset_of_className? (Option.filter_eq_some_iff.mp hn).1
      simpa [Statement.texts] using ⟨Subset.trans hname hvalue, hvalue⟩
    · cases h
      simpa [Statement.texts] using hvalue

theorem exportDeclaration?_texts_subset (h : exportDeclaration? s = some st) :
    ∀ t ∈ st.texts, t.toList ⊆ s := by
  obtain ⟨text, ht, h⟩ := Option.bind_eq_some_iff.mp h
  obtain ⟨names, hn, h⟩ := Option.bind_eq_some_iff.mp h
  cases h
  have htext := subset_of_blanks? ht
  refine List.forall_mem_cons.mpr ⟨by rwa [String.toList_ofList], fun t hm => ?_⟩
  obtain ⟨name, hname, rfl⟩ := List.mem_map.mp hm
  rw [String.toList_ofList]
  exact Subset.trans (subset_of_declarationNames? hn name hname) htext

theorem recognize?_texts_subset (h : Statement.recognize? s = some st) :
    ∀ t ∈ st.texts, t.toList ⊆ s := by
  intro t ht
  unfold Statement.recognize? at h
  split at h
  · next ha => exact Subset.trans (importStatement?_texts_subset h t ht) (subset_of_after? ha)
  · obtain ⟨r, hr, h⟩ := Option.bind_eq_some_iff.mp h
    refine Subset.trans ?_ (subset_of_after? hr)
    rcases Option.or_eq_some_iff.mp h with h | ⟨-, h⟩
    · exact exportAll?_texts_subset h t ht
    · rcases Option.or_eq_some_iff.mp h with h | ⟨-, h⟩
      · exact exportList?_texts_subset h t ht
      · rcases Option.or_eq_some_iff.mp h with h | ⟨-, h⟩
        · exact exportDefault?_texts_subset h t ht
        · exact exportDeclaration?_texts_subset h t ht

end Transpile

end ModuleLoader
