import ModuleLoader.Proofs.Path.Spelling

/-! Normal forms. Settling goes component by component, and the path of settled names has these names
as its components, so that normalizing it again changes nothing. -/

namespace ModuleLoader.Path

open Text

/-- Whether a text stands for one name below a directory. -/
def IsName (text : String) : Prop :=
  '/' ∉ text.toList ∧ innerComponent? text.toList = some (.name text)

theorem innerComponent?_eq_some_name {segment : List Char} {text : String}
    (h : innerComponent? segment = some (.name text)) : segment = text.toList := by
  unfold innerComponent? at h
  split at h
  · simp at h
  · split at h
    · simp at h
    · simp only [Option.some.injEq, Component.name.injEq] at h
      simp [← h]

theorem isName_of_innerComponent? {segment : List Char} {text : String} (hs : '/' ∉ segment)
    (h : innerComponent? segment = some (.name text)) : IsName text := by
  have he := innerComponent?_eq_some_name h
  subst he
  exact ⟨hs, h⟩

theorem isName_of_mem_inner {p : Path} {text : String} (h : .name text ∈ p.inner) :
    IsName text := by
  obtain ⟨segment, hm, hs⟩ := List.mem_filterMap.mp h
  exact isName_of_innerComponent? (notMem_of_mem_splitOn hm) hs

theorem mem_text_of_mem_name {p : Path} {text : String} (h : .name text ∈ p.inner) {c : Char}
    (hc : c ∈ text.toList) : c ∈ p.text.toList := by
  obtain ⟨segment, hm, hs⟩ := List.mem_filterMap.mp h
  rw [← innerComponent?_eq_some_name hs] at hc
  exact (infix_of_mem_splitOn hm).subset hc

theorem isName_of_mem_components {p : Path} {text : String} (h : .name text ∈ p.components) :
    IsName text := by
  have hi : Component.name text ∈ p.inner := by
    rw [inner_eq]
    exact List.mem_filter.mpr ⟨h, rfl⟩
  exact isName_of_mem_inner hi

theorem isName_iff {text : String} :
    IsName text ↔ '/' ∉ text.toList ∧ text ≠ "" ∧ text ≠ "." ∧ text ≠ ".." := by
  have hempty : text = "" ↔ text.toList.isEmpty = true := by simp
  have hdot : text = "." ↔ isDot text.toList = true := by
    rw [isDot, beq_iff_eq, ← String.toList_inj]
    rfl
  have hdots : text = ".." ↔ isDotDot text.toList = true := by
    rw [isDotDot, beq_iff_eq, ← String.toList_inj]
    rfl
  unfold IsName innerComponent?
  rw [Ne, hempty, Ne, hdot, Ne, hdots]
  cases text.toList.isEmpty <;> cases isDot text.toList <;> cases isDotDot text.toList <;> simp

instance (text : String) : Decidable (IsName text) := decidable_of_iff _ isName_iff.symm

theorem isName_of_length {text : String} (hs : '/' ∉ text.toList) (h : 2 < text.toList.length) :
    IsName text := by
  refine isName_iff.mpr ⟨hs, ?_, ?_, ?_⟩
  all_goals
    rintro rfl
    exact absurd h (by decide)

/-! ## Settling -/

theorem settle_append (rooted : Bool) (front back : List Component) (kept : List String) :
    settle rooted (front ++ back) kept =
      (settle rooted front kept).bind fun names => settle rooted back names.reverse := by
  induction front generalizing kept with
  | nil => simp [settle]
  | cons c rest ih =>
    cases c with
    | root => exact ih kept
    | here => exact ih kept
    | name text => exact ih (text :: kept)
    | up =>
      cases kept with
      | nil =>
        by_cases hr : rooted = true
        · simp only [List.cons_append, settle, hr, if_true]
          simpa only [hr] using ih []
        · simp [settle, hr]
      | cons name kept => exact ih kept

theorem settle_map_name (rooted : Bool) (names kept : List String) :
    settle rooted (names.map .name) kept = some (kept.reverse ++ names) := by
  induction names generalizing kept with
  | nil => simp [settle]
  | cons name rest ih => simp [settle, ih]

theorem mem_of_settle_eq_some {rooted : Bool} {components : List Component}
    {kept names : List String} (h : settle rooted components kept = some names) {name : String}
    (hm : name ∈ names) : name ∈ kept ∨ .name name ∈ components := by
  induction components generalizing kept with
  | nil =>
    simp only [settle, Option.some.injEq] at h
    exact .inl (by simpa [← h] using hm)
  | cons c rest ih =>
    cases c with
    | root => exact (ih h).imp_right (List.mem_cons_of_mem _)
    | here => exact (ih h).imp_right (List.mem_cons_of_mem _)
    | name text =>
      rcases ih h with hk | hr
      · rcases List.mem_cons.mp hk with rfl | hk
        · exact .inr List.mem_cons_self
        · exact .inl hk
      · exact .inr (List.mem_cons_of_mem _ hr)
    | up =>
      cases kept with
      | nil =>
        by_cases hr : rooted = true
        · simp only [settle, hr, if_true] at h
          exact (ih (by simpa only [hr] using h)).imp_right (List.mem_cons_of_mem _)
        · simp [settle, hr] at h
      | cons first kept =>
        have hh : name ∈ kept ∨ .name name ∈ rest := ih h
        exact hh.imp (List.mem_cons_of_mem _) (List.mem_cons_of_mem _)

/-- Below the root every `..` can be settled. -/
theorem exists_settle_true (steps : List Component) (kept : List String) :
    ∃ names, settle true steps kept = some names := by
  induction steps generalizing kept with
  | nil => exact ⟨_, rfl⟩
  | cons c rest ih =>
    cases c with
    | root => exact ih kept
    | here => exact ih kept
    | name text => exact ih (text :: kept)
    | up =>
      cases kept with
      | nil => exact ih []
      | cons name kept => exact ih kept

/-- Without `..` nothing that was kept is given up. -/
theorem reverse_isPrefix_of_settle {rooted : Bool} {components : List Component}
    {kept names : List String} (hup : .up ∉ components)
    (h : settle rooted components kept = some names) : kept.reverse <+: names := by
  induction components generalizing kept with
  | nil =>
    simp only [settle, Option.some.injEq] at h
    exact h ▸ List.prefix_rfl
  | cons c rest ih =>
    have hrest : .up ∉ rest := fun hm => hup (List.mem_cons_of_mem _ hm)
    cases c with
    | root => exact ih hrest h
    | here => exact ih hrest h
    | name text =>
      have hk : (text :: kept).reverse <+: names := ih hrest h
      rw [List.reverse_cons] at hk
      exact (List.prefix_append _ _).trans hk
    | up => exact absurd List.mem_cons_self hup

/-! ## The path of names -/

theorem toList_ofNames (rooted : Bool) (names : List String) :
    (ofNames rooted names).text.toList =
      (if rooted then ['/'] else []) ++ ['/'].intercalate (names.map String.toList) := by
  have hs : ("/" : String).toList = ['/'] := by decide
  rw [ofNames, String.toList_append, String.toList_intercalate, hs]
  cases rooted <;> rfl

theorem segments_ofNames {names : List String} (hne : names ≠ [])
    (h : ∀ name ∈ names, '/' ∉ name.toList) (rooted : Bool) :
    (ofNames rooted names).segments =
      (if rooted then [[]] else []) ++ names.map String.toList := by
  have hpieces : ∀ piece ∈ names.map String.toList, '/' ∉ piece := by
    intro piece hm
    obtain ⟨name, hn, rfl⟩ := List.mem_map.mp hm
    exact h name hn
  have hsplit : (['/'].intercalate (names.map String.toList)).splitOn '/' = names.map String.toList :=
    List.splitOn_intercalate _ hpieces (by simpa using hne)
  rw [segments, toList_ofNames]
  cases rooted with
  | false => simpa using hsplit
  | true => simp [splitOn_cons_self, hsplit]

theorem components_ofNames (rooted : Bool) {names : List String} (h : ∀ name ∈ names, IsName name) :
    (ofNames rooted names).components =
      (if rooted then [.root] else []) ++ names.map .name := by
  cases names with
  | nil => cases rooted <;> decide
  | cons first rest =>
    have hs := segments_ofNames (List.cons_ne_nil first rest) (fun name hm => (h name hm).1) rooted
    have hfirst := (h first List.mem_cons_self).2
    have hrest : (rest.map String.toList).filterMap innerComponent? = rest.map .name := by
      rw [List.filterMap_map, ← List.filterMap_eq_map]
      exact List.filterMap_congr fun name hm => (h name (List.mem_cons_of_mem _ hm)).2
    have hne : first.toList.isEmpty = false := by
      cases he : first.toList.isEmpty with
      | false => rfl
      | true => simp [innerComponent?, he] at hfirst
    have hdot : isDot first.toList = false := by
      cases hd : isDot first.toList with
      | false => rfl
      | true => simp [innerComponent?, hd] at hfirst
    cases rooted with
    | true =>
      rw [if_pos rfl, List.singleton_append, List.map_cons] at hs
      rw [components_eq hs, List.filterMap_cons, hfirst, hrest]
      simp [firstComponent?]
    | false =>
      rw [if_neg (by simp), List.nil_append, List.map_cons] at hs
      rw [components_eq hs, hrest]
      simp [firstComponent?, hne, hdot, hfirst]

theorem ofNames_append (rooted : Bool) (names : List String) (last suffix : String) :
    (ofNames rooted (names ++ [last])).append suffix = ofNames rooted (names ++ [last ++ suffix]) := by
  have ht : ((ofNames rooted (names ++ [last])).append suffix).text.toList =
      (ofNames rooted (names ++ [last ++ suffix])).text.toList := by
    have hj := intercalate_concat '/' (names.map String.toList) last.toList suffix.toList
    simp only [append, String.toList_append, toList_ofNames, List.append_assoc]
    simp [hj]
  exact congrArg Path.mk (String.toList_inj.mp ht)

theorem normalize?_eq (p : Path) :
    p.normalize? = (settle p.isAbsolute p.inner []).map (ofNames p.isAbsolute) := by
  rw [normalize?, inner_eq, settle_filter_isStep]

/-! ## Joining -/

theorem inner_join_of_relative {q : Path} (hq : q.isAbsolute = false) (p : Path) :
    (p.join q).inner = p.inner ++ q.inner := by
  have hqi : q.inner.filter Component.isStep = q.inner :=
    List.filter_eq_self.mpr fun c hc => isStep_of_mem_filterMap hc
  rw [inner_eq (p.join q), components_join, hq, Bool.false_or]
  by_cases hp : p.components.isEmpty = true
  · have he : p.components = [] := by simpa using hp
    rw [if_pos hp, ← inner_eq q, inner_eq p, he]
    rfl
  · rw [if_neg hp, List.filter_append, hqi, ← inner_eq p]

theorem isAbsolute_join_of_relative {q : Path} (hq : q.isAbsolute = false) (p : Path) :
    (p.join q).isAbsolute = p.isAbsolute := by
  rw [isAbsolute_eq (p.join q), components_join, hq, Bool.false_or]
  by_cases hp : p.components = []
  · have he : p.isAbsolute = false := by rw [isAbsolute_eq, hp]; rfl
    simp [hp, he, ← isAbsolute_eq q, hq]
  · have hpe : p.components.isEmpty = false := by simpa using hp
    obtain ⟨c, rest, hc⟩ := List.exists_cons_of_ne_nil hp
    simp [isAbsolute_eq p, hc]

theorem components_of_isName {text : String} (h : IsName text) :
    (Path.mk text).components = [.name text] := by
  have hp : Path.mk text = ofNames false [text] := by simp [ofNames]
  rw [hp, components_ofNames false (by simpa using h)]
  rfl

theorem components_joinText_of_isName {text : String} (h : IsName text) (p : Path) :
    (p.joinText text).components = p.components ++ [.name text] := by
  have hc := components_of_isName h
  have ha : (Path.mk text).isAbsolute = false := by rw [isAbsolute_eq, hc]; rfl
  have hi : (Path.mk text).inner = [.name text] := by rw [inner_eq, hc]; rfl
  rw [joinText, components_join, ha, hc, hi]
  cases p.components <;> rfl

theorem isAbsolute_absolutize_join {q : Path} (hq : q.isAbsolute = false) (base p : Path) :
    (absolutize base (p.join q)).isAbsolute = (absolutize base p).isAbsolute := by
  have hj := isAbsolute_join_of_relative hq p
  unfold absolutize
  by_cases hp : p.isAbsolute = true
  · simp [hj, hp]
  · have hp' : p.isAbsolute = false := by simpa using hp
    have hpq : (p.join q).isAbsolute = false := hj.trans hp'
    simp [hp', hpq, isAbsolute_join_of_relative]

theorem inner_absolutize_join {q : Path} (hq : q.isAbsolute = false) (base p : Path) :
    (absolutize base (p.join q)).inner = (absolutize base p).inner ++ q.inner := by
  have hj := isAbsolute_join_of_relative hq p
  unfold absolutize
  by_cases hp : p.isAbsolute = true
  · simp [hj, hp, inner_join_of_relative hq]
  · have hp' : p.isAbsolute = false := by simpa using hp
    have hpq : (p.join q).isAbsolute = false := hj.trans hp'
    simp [hp', hpq, inner_join_of_relative, hq]

end ModuleLoader.Path
