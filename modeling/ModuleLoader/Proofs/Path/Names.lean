import ModuleLoader.Proofs.Path.Normal

/-! Paths of names, text by text. Below the root and below a relative start they are joined and
taken apart alike, and only a slash in front tells them apart. -/

namespace ModuleLoader.Path

open Text

variable {rooted : Bool} {names : List String}

theorem getLast?_toList_ofNames (rooted : Bool) (names : List String) {last : String}
    (h : IsName last) :
    (ofNames rooted (names ++ [last])).text.toList.getLast? ≠ some '/' ∧
      (ofNames rooted (names ++ [last])).text.toList ≠ [] := by
  obtain ⟨c, r, hc⟩ : ∃ c r, last.toList = c :: r := by
    refine List.exists_cons_of_ne_nil fun he => ?_
    exact (isName_iff.mp h).2.1 (by simpa using he)
  have hj : ['/'].intercalate ((names ++ [last]).map String.toList) =
      ['/'].intercalate (names.map String.toList ++ [[]]) ++ last.toList := by
    rw [List.map_append, ← intercalate_concat]
    rfl
  rw [toList_ofNames, hj, ← List.append_assoc]
  refine ⟨fun hl => ?_, by simp [hc]⟩
  rw [List.getLast?_append_of_ne_nil _ (by simp [hc])] at hl
  exact h.1 (List.mem_of_getLast? hl)

theorem joinText_ofNames (rooted : Bool) (hn : ∀ name ∈ names, IsName name) {text : String}
    (h : IsName text) :
    (ofNames rooted names).joinText text = ofNames rooted (names ++ [text]) := by
  have hrel : (Path.mk text).isAbsolute = false := by
    rw [isAbsolute_eq, components_of_isName h]
    rfl
  rw [joinText, join, hrel, if_neg (by simp)]
  cases names using List.reverseRecOn with
  | nil => cases rooted <;> simp [ofNames]
  | append_singleton names last =>
    obtain ⟨hlast, hne⟩ := getLast?_toList_ofNames rooted names (hn last (by simp))
    have hj : ['/'].intercalate ((names ++ [last] ++ [text]).map String.toList) =
        ['/'].intercalate ((names ++ [last]).map String.toList) ++ '/' :: text.toList := by
      rw [List.map_append, intercalate_append (by simp) (by simp), List.map_singleton,
        List.intercalate_singleton]
    have ht : ((ofNames rooted (names ++ [last])).text ++ "/" ++ text).toList =
        (ofNames rooted (names ++ [last] ++ [text])).text.toList := by
      rw [String.toList_append, String.toList_append, toList_ofNames, toList_ofNames, hj]
      simp
    rw [if_neg (by simp [hlast, hne])]
    exact congrArg Path.mk (String.toList_inj.mp ht)

theorem notMem_ofNames (rooted : Bool) {c : Char} (hc : c ≠ '/')
    (h : ∀ name ∈ names, c ∉ name.toList) : c ∉ (ofNames rooted names).text.toList := by
  rw [toList_ofNames]
  intro hm
  rcases List.mem_append.mp hm with hm | hm
  · cases rooted <;> simp [hc] at hm
  · obtain hs | ⟨piece, hp, hm⟩ := mem_intercalate hm
    · exact hc hs
    · obtain ⟨name, hname, rfl⟩ := List.mem_map.mp hp
      exact h name hname hm

theorem inner_ofNames (rooted : Bool) (h : ∀ name ∈ names, IsName name) :
    (ofNames rooted names).inner = names.map .name := by
  have hs : (names.map Component.name).filter Component.isStep = names.map .name :=
    List.filter_eq_self.mpr fun c hm => by
      obtain ⟨name, -, rfl⟩ := List.mem_map.mp hm
      rfl
  rw [inner_eq, components_ofNames rooted h, List.filter_append, hs]
  cases rooted <;> rfl

theorem isAbsolute_ofNames (rooted : Bool) (h : ∀ name ∈ names, IsName name) :
    (ofNames rooted names).isAbsolute = rooted := by
  rw [isAbsolute_eq, components_ofNames rooted h]
  cases rooted with
  | true => rfl
  | false => cases names <;> simp

theorem normalize?_ofNames (rooted : Bool) (h : ∀ name ∈ names, IsName name) :
    (ofNames rooted names).normalize? = some (ofNames rooted names) := by
  rw [normalize?_eq, inner_ofNames rooted h, isAbsolute_ofNames rooted h, settle_map_name]
  rfl

/-! ## Directories above -/

theorem dropIdle_of_isName {name : String} (h : IsName name) (rest : List (List Char)) :
    dropIdle (name.toList :: rest) = name.toList :: rest := by
  have hi : ¬(name.toList.isEmpty || isDot name.toList) = true := fun hc =>
    absurd (innerComponent?_eq_none_iff.mpr hc) (by simp [h.2])
  cases rest with
  | nil => rfl
  | cons next rest => rw [dropIdle_cons (by simp), if_neg hi]

theorem parent?_ofNames_nil (rooted : Bool) : (ofNames rooted []).parent? = none := by
  cases rooted <;> decide

theorem parent?_ofNames (rooted : Bool) {last : String}
    (h : ∀ name ∈ names ++ [last], IsName name) :
    (ofNames rooted (names ++ [last])).parent? = some (ofNames rooted names) := by
  have hlast : IsName last := h last (by simp)
  have hs := segments_ofNames (by simp) (fun name hm => (h name hm).1) rooted
  have hrev : (ofNames rooted (names ++ [last])).segments.reverse =
      last.toList :: ((if rooted then [[]] else []) ++ names.map String.toList).reverse := by
    rw [hs]
    simp
  unfold parent?
  rw [hrev, dropIdle_of_isName hlast]
  cases names using List.reverseRecOn with
  | nil =>
    have hne : last.toList.isEmpty = false := by
      have hempty := (isName_iff.mp hlast).2.1
      simpa using hempty
    cases rooted <;> simp [hne, dropIdle, ofNames]
  | append_singleton names next =>
    have hnext : IsName next := h next (by simp)
    have hne : next.toList ≠ [] := fun he => (isName_iff.mp hnext).2.1 (by simpa using he)
    have hr : ((if rooted then [[]] else []) ++ (names ++ [next]).map String.toList).reverse =
        next.toList :: ((if rooted then [[]] else []) ++ names.map String.toList).reverse := by simp
    rw [hr]
    dsimp only
    rw [dropIdle_of_isName hnext]
    have ht : (ofSegments ((if rooted then [[]] else []) ++
        (names ++ [next]).map String.toList)).text.toList =
        (ofNames rooted (names ++ [next])).text.toList := by
      rw [toList_ofNames, ofSegments, String.toList_ofList]
      cases rooted with
      | false => rfl
      | true => exact intercalate_append (List.cons_ne_nil _ _) (by simp)
    split
    · next he => exact absurd (List.cons.inj he).1 hne
    · rw [← hr, List.reverse_reverse]
      exact congrArg some (congrArg Path.mk (String.toList_inj.mp ht))

theorem ancestorsFrom_ofNames (h : ∀ name ∈ names, IsName name) {fuel : Nat}
    (hl : names.length ≤ fuel) :
    ancestorsFrom fuel (ofNames rooted names) = names.inits.reverse.map (ofNames rooted) := by
  induction names using List.reverseRecOn generalizing fuel with
  | nil => cases fuel <;> simp [ancestorsFrom, parent?_ofNames_nil]
  | append_singleton names last ih =>
    obtain ⟨fuel, rfl⟩ : ∃ n, fuel = n + 1 := ⟨fuel - 1, by simp at hl; omega⟩
    have hup : ancestorsFrom fuel (ofNames rooted names) =
        names.inits.reverse.map (ofNames rooted) :=
      ih (fun name hm => h name (List.mem_append_left _ hm)) (by simp at hl; omega)
    simp [ancestorsFrom, parent?_ofNames rooted h, hup, List.inits_append]

theorem ancestors_ofNames (rooted : Bool) (h : ∀ name ∈ names, IsName name) :
    (ofNames rooted names).ancestors = names.inits.reverse.map (ofNames rooted) := by
  refine ancestorsFrom_ofNames h ?_
  cases names with
  | nil => exact Nat.zero_le _
  | cons first rest =>
    rw [segments_ofNames (List.cons_ne_nil first rest) fun name hm => (h name hm).1]
    simp

theorem mem_tail_ancestors_ofNames {last : String} (h : ∀ name ∈ names ++ [last], IsName name)
    {p : Path} : p ∈ (ofNames rooted (names ++ [last])).ancestors.tail ↔
      ∃ above, above <+: names ∧ ofNames rooted above = p := by
  simp [ancestors_ofNames rooted h, List.inits_append]

theorem extension?_ofNames (h : ∀ name ∈ names, IsName name) :
    (ofNames true names).extension? = (ofNames false names).extension? := by
  unfold extension? fileName?
  rw [components_ofNames true h, components_ofNames false h]
  cases names using List.reverseRecOn with
  | nil => rfl
  | append_singleton names last =>
    simp only [List.map_append, List.map_cons, List.map_nil, ← List.append_assoc,
      List.getLast?_concat]

theorem eq_of_components_ofNames {other : List String} (h : ∀ name ∈ names, IsName name)
    (ho : ∀ name ∈ other, IsName name)
    (he : (ofNames rooted names).components = (ofNames rooted other).components) :
    names = other := by
  rw [components_ofNames rooted h, components_ofNames rooted ho] at he
  exact List.map_injective_iff.mpr (fun a b hab => Component.name.inj hab)
    (List.append_cancel_left he)

/-! ## From the root -/

/-- Whether a path that is taken from the root, with or without slashes in front, never climbs above
it. -/
def staysBelow (p : Path) : Bool :=
  (Path.mk (String.ofList (p.text.toList.dropWhile (· == '/')))).normalize?.isSome

theorem staysBelow_iff {p : Path} :
    p.staysBelow = true ↔ ∃ below, settle false p.inner [] = some below := by
  have hinner : (Path.mk (String.ofList (p.text.toList.dropWhile (· == '/')))).inner = p.inner := by
    rw [inner, segments, String.toList_ofList, Bundle.filterMap_dropWhile_slash]
    rfl
  rw [staysBelow, normalize?_of_relative (Bundle.isAbsolute_dropWhile_slash _), hinner,
    Option.isSome_map, Option.isSome_iff_exists]

/-- What does not climb above a relative start does not do so below the root either. -/
theorem settle_true_of_settle_false {steps : List Component} {kept below : List String}
    (h : settle false steps kept = some below) : settle true steps kept = some below := by
  induction steps generalizing kept with
  | nil => exact h
  | cons c rest ih =>
    cases c with
    | root => exact ih h
    | here => exact ih h
    | name text => exact ih h
    | up =>
      cases kept with
      | nil => simp [settle] at h
      | cons name kept => exact ih h

/-- Text is joined to both kinds of start with the same steps. -/
theorem inner_joinText_ofNames (h : ∀ name ∈ names, IsName name) (text : String) :
    ((ofNames true names).joinText text).inner = ((ofNames false names).joinText text).inner := by
  by_cases ha : (Path.mk text).isAbsolute = true
  · simp [joinText, join, ha]
  · have hr : (Path.mk text).isAbsolute = false := by simpa using ha
    rw [joinText, joinText, inner_join_of_relative hr, inner_join_of_relative hr,
      inner_ofNames true h, inner_ofNames false h]

end ModuleLoader.Path
