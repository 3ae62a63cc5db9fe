import ModuleLoader.Proofs.Path.Names

/-! Paths below a path. Names that are joined to a path one by one stand behind its pieces, and taking
the components of the path off the front leaves these names. -/

namespace ModuleLoader.Path

open Text

/-- What is put between a path and a relative one behind it. -/
def glue (p : Path) : String :=
  if p.text.toList = [] || p.text.toList.getLast? = some '/' then "" else "/"

theorem join_of_relative {q : Path} (hq : q.isAbsolute = false) (p : Path) :
    p.join q = ⟨p.text ++ p.glue ++ q.text⟩ := by
  rw [join, if_neg (by simp [hq]), glue]
  split
  · rw [String.append_empty]
  · rfl

theorem glue_append {q : Path} (hq : q.text ≠ "") (front : String) :
    glue ⟨front ++ q.text⟩ = q.glue := by
  have hne : q.text.toList ≠ [] := by simpa using hq
  simp only [glue, String.toList_append, List.append_eq_nil_iff, hne, and_false,
    List.getLast?_append_of_ne_nil _ hne]

theorem join_assoc (p : Path) {q : Path} (hq : q.text ≠ "") (r : Path) :
    (p.join q).join r = p.join (q.join r) := by
  by_cases hr : r.isAbsolute = true
  · simp [join, hr]
  · have hr' : r.isAbsolute = false := by simpa using hr
    have hqr : (q.join r).isAbsolute = q.isAbsolute := isAbsolute_join_of_relative hr' q
    by_cases hqa : q.isAbsolute = true
    · rw [join.eq_def p q, if_pos hqa, join.eq_def p, if_pos (hqr.trans hqa)]
    · have hqa' : q.isAbsolute = false := by simpa using hqa
      rw [join_of_relative hqa', join_of_relative hr', glue_append hq,
        join_of_relative (hqr.trans hqa'), join_of_relative hr']
      simp only [String.append_assoc]

theorem absolutize_join {p q : Path} (hp : p.text ≠ "") (hq : q.isAbsolute = false) (base : Path) :
    absolutize base (p.join q) = (absolutize base p).join q := by
  rw [absolutize, absolutize, isAbsolute_join_of_relative hq]
  split
  · rfl
  · exact (join_assoc base hp q).symm

theorem text_absolutize_ne_empty {p : Path} (hp : p.text ≠ "") (base : Path) :
    (absolutize base p).text ≠ "" := by
  unfold absolutize
  by_cases ha : p.isAbsolute = true
  · rwa [if_pos ha]
  · rw [if_neg ha, join_of_relative (by simpa using ha)]
    simp [hp]

/-! ## Names behind a path -/

/-- The path that names lead to from `p`. -/
def descend (p : Path) (names : List String) : Path := names.foldl joinText p

variable {names : List String}

theorem text_ofNames_ne_empty (hne : names ≠ []) (h : ∀ name ∈ names, IsName name) :
    (ofNames false names).text ≠ "" := by
  rw [Ne, text_eq_empty_iff, components_ofNames false h]
  simpa using hne

/-- By induction on the names, the last one first. -/
theorem descend_eq_join (p : Path) (hne : names ≠ []) (h : ∀ name ∈ names, IsName name) :
    p.descend names = p.join (ofNames false names) := by
  induction names using List.reverseRecOn with
  | nil => exact absurd rfl hne
  | append_singleton names last ih =>
    have hnames : ∀ name ∈ names, IsName name := fun name hm => h name (List.mem_append_left _ hm)
    have hlast : (ofNames false names).joinText last = ofNames false (names ++ [last]) :=
      joinText_ofNames false hnames (h last (by simp))
    have hstep : p.descend (names ++ [last]) = (p.descend names).joinText last := by
      simp [descend]
    rw [hstep]
    by_cases hn : names = []
    · subst hn
      simp [descend, joinText, ofNames]
    · rw [ih hn hnames, joinText, join_assoc p (text_ofNames_ne_empty hn hnames), ← hlast, joinText]

theorem components_descend {p : Path} (hp : p.text ≠ "") (h : ∀ name ∈ names, IsName name) :
    (p.descend names).components = p.components ++ names.map .name := by
  by_cases hne : names = []
  · simp [hne, descend]
  · rw [descend_eq_join p hne h, components_join_of_relative (isAbsolute_ofNames false h) hp,
      inner_ofNames false h]

/-! ## Taking components off -/

/-- Pieces that mean nothing may stay in front of what is left. -/
theorem exists_piecesAfter? (rest tail : List (List Char)) :
    ∃ idle, (∀ segment ∈ idle, isIdle segment = true) ∧
      piecesAfter? (rest.filterMap innerComponent?) (rest ++ tail) = some (idle ++ tail) := by
  induction rest with
  | nil => exact ⟨[], by simp, by simp [piecesAfter?]⟩
  | cons segment rest ih =>
    cases hc : (segment :: rest).filterMap innerComponent? with
    | nil =>
      refine ⟨segment :: rest, fun s hs => ?_, rfl⟩
      rw [isIdle, List.filterMap_eq_nil_iff.mp hc s hs]
      rfl
    | cons c components =>
      cases hs : innerComponent? segment with
      | none =>
        rw [List.filterMap_cons_none hs] at hc
        obtain ⟨idle, hidle, hrest⟩ := ih
        refine ⟨idle, hidle, ?_⟩
        simpa [piecesAfter?, hs, hc] using hrest
      | some d =>
        rw [List.filterMap_cons_some hs] at hc
        obtain ⟨rfl, rfl⟩ := List.cons.inj hc
        obtain ⟨idle, hidle, hrest⟩ := ih
        refine ⟨idle, hidle, ?_⟩
        simpa [piecesAfter?, hs] using hrest

theorem isIdle_of_isName {name : String} (h : IsName name) : isIdle name.toList = false := by
  rw [isIdle, h.2]
  rfl

theorem ofSegments_map_toList (names : List String) :
    ofSegments (names.map String.toList) = ofNames false names := by
  have ht : (ofSegments (names.map String.toList)).text.toList =
      (ofNames false names).text.toList := by
    rw [ofSegments, String.toList_ofList, toList_ofNames]
    rfl
  exact congrArg Path.mk (String.toList_inj.mp ht)

theorem dropWhile_isIdle (idle : List (List Char)) (hidle : ∀ segment ∈ idle, isIdle segment = true)
    (hne : names ≠ []) (h : ∀ name ∈ names, IsName name) :
    (idle ++ names.map String.toList).dropWhile isIdle = names.map String.toList := by
  obtain ⟨first, rest, rfl⟩ := List.exists_cons_of_ne_nil hne
  rw [List.dropWhile_append_of_pos hidle, List.map_cons,
    List.dropWhile_cons_of_neg (by simp [isIdle_of_isName (h first List.mem_cons_self)])]

theorem relativeTo?_descend {p : Path} (hp : p.text ≠ "") (hne : names ≠ [])
    (h : ∀ name ∈ names, IsName name) :
    p.relativeTo? (p.descend names) = some (ofNames false names) := by
  obtain ⟨first, rest, c, hjoin, -, hc, hcomponents⟩ := exists_segments_join hp
  have hsegments : (p.descend names).segments = first :: (rest ++ names.map String.toList) := by
    rw [descend_eq_join p hne h, hjoin _ (isAbsolute_ofNames false h),
      segments_ofNames hne fun name hm => (h name hm).1]
    rfl
  have hlast : (rest ++ names.map String.toList).isEmpty = false := by simp [hne]
  obtain ⟨idle, hidle, hafter⟩ := exists_piecesAfter? rest (names.map String.toList)
  have hreverse : ((names.map String.toList).reverse.dropWhile isIdle).reverse =
      names.map String.toList := by
    have hr : (names.reverse.map String.toList).dropWhile isIdle = names.reverse.map String.toList :=
      dropWhile_isIdle [] (by simp) (by simpa using hne) (by simpa using h)
    rw [List.map_reverse] at hr
    rw [hr, List.reverse_reverse]
  simp only [relativeTo?, hcomponents, hsegments, hlast, hc, hafter, if_true, Option.map_some,
    dropWhile_isIdle idle hidle hne h, hreverse, ofSegments_map_toList]

end ModuleLoader.Path
