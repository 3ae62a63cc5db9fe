import Mathlib.Data.List.TakeWhile
import ModuleLoader.Package.Name
import ModuleLoader.Proofs.Path.Names

/-! Names of packages. A bare specifier is cut into a name and what is asked of the package without
loss, and the name is one part or a scope and a part, so that it leads down from every directory
unless the part below a scope is `.` or `..`. -/

namespace ModuleLoader

open ModuleLoader.Path Text

namespace Path

/-- Whether a path leads down from a directory, by one name at least. -/
def IsStrictlyBelow (p dir : Path) : Prop :=
  ∃ names : List String, names ≠ [] ∧ (∀ name ∈ names, IsName name) ∧
    p.components = dir.components ++ names.map .name

theorem isStrictlyBelow_join_ofNames {names : List String} (hne : names ≠ [])
    (h : ∀ name ∈ names, IsName name) (dir : Path) :
    (dir.join (ofNames false names)).IsStrictlyBelow dir := by
  refine ⟨names, hne, h, ?_⟩
  rw [components_join, isAbsolute_ofNames false h, inner_ofNames false h, components_ofNames false h]
  cases dir.components <;> rfl

end Path

namespace BareSpecifier

/-! ## Cutting at slashes -/

/-- What may follow a part: nothing, or something behind a slash. -/
def IsRest (rest : List Char) : Prop := rest = [] ∨ rest.head? = some '/'

theorem cut_eq_iff {s part rest : List Char} :
    s.takeWhile notSlash = part ∧ s.dropWhile notSlash = rest ↔
      s = part ++ rest ∧ '/' ∉ part ∧ IsRest rest := by
  constructor
  · rintro ⟨rfl, rfl⟩
    refine ⟨List.takeWhile_append_dropWhile.symm, fun hm => ?_, ?_⟩
    · exact absurd (List.mem_takeWhile_imp hm) (by decide)
    · have hhead := List.head?_dropWhile_not notSlash s
      cases hd : s.dropWhile notSlash with
      | nil => exact .inl rfl
      | cons c rest =>
        rw [hd] at hhead
        exact .inr (by simpa [notSlash] using hhead)
  · rintro ⟨rfl, hpart, hrest⟩
    have hp : ∀ c ∈ part, notSlash c = true := by
      intro c hc
      have hne : c ≠ '/' := fun he => hpart (he ▸ hc)
      simpa [notSlash] using hne
    rw [List.takeWhile_append_of_pos hp, List.dropWhile_append_of_pos hp]
    rcases hrest with rfl | hrest
    · simp
    · obtain ⟨below, rfl⟩ := List.head?_eq_some_iff.mp hrest
      have hs : ¬notSlash '/' = true := by decide
      rw [List.takeWhile_cons_of_neg hs, List.dropWhile_cons_of_neg hs, List.append_nil]
      exact ⟨rfl, rfl⟩

theorem splitName?_of_plain {s : List Char} (h : s.head? ≠ some '@') :
    splitName? s = some (s.takeWhile notSlash, s.takeWhile notSlash, s.dropWhile notSlash) := by
  have hs : ¬startsWith ['@'] s = true := by
    rw [startsWith_singleton, beq_iff_eq]
    exact h
  exact if_neg hs

theorem splitName?_of_scoped (s : List Char) :
    splitName? ('@' :: s) =
      match s.dropWhile notSlash with
      | [] => none
      | slash :: below =>
        if s.takeWhile notSlash = [] then none
        else some ('@' :: s.takeWhile notSlash ++ slash :: below.takeWhile notSlash,
          below.takeWhile notSlash, below.dropWhile notSlash) := by
  have hs : startsWith ['@'] ('@' :: s) = true := by simp [startsWith_singleton]
  have hat : notSlash '@' = true := by decide
  unfold splitName?
  rw [List.takeWhile_cons_of_pos hat, List.dropWhile_cons_of_pos hat, if_pos hs]
  cases s.dropWhile notSlash <;> simp

theorem splitName?_plain_eq_some_iff {s name last rest : List Char} (h : s.head? ≠ some '@') :
    splitName? s = some (name, last, rest) ↔
      s = name ++ rest ∧ '/' ∉ name ∧ IsRest rest ∧ name = last := by
  rw [splitName?_of_plain h, Option.some.injEq, Prod.mk.injEq, Prod.mk.injEq]
  constructor
  · rintro ⟨hname, rfl, hrest⟩
    obtain ⟨hs, hslash, hr⟩ := cut_eq_iff.mp ⟨hname, hrest⟩
    exact ⟨hs, hslash, hr, hname.symm⟩
  · rintro ⟨hs, hslash, hr, rfl⟩
    obtain ⟨hname, hrest⟩ := cut_eq_iff.mpr ⟨hs, hslash, hr⟩
    exact ⟨hname, hname, hrest⟩

/-- The scope is never empty. The part below it may still be. -/
theorem splitName?_scoped_eq_some_iff {s name last rest : List Char} :
    splitName? ('@' :: s) = some (name, last, rest) ↔
      ∃ scope, s = scope ++ '/' :: (last ++ rest) ∧ scope ≠ [] ∧ '/' ∉ scope ∧ '/' ∉ last ∧
        IsRest rest ∧ name = '@' :: scope ++ '/' :: last := by
  rw [splitName?_of_scoped]
  constructor
  · intro h
    split at h
    · cases h
    · next slash below hbelow =>
      obtain ⟨hs, hscope, hslash⟩ := cut_eq_iff.mp ⟨rfl, hbelow⟩
      obtain rfl : slash = '/' := by simpa [IsRest] using hslash
      split at h
      · cases h
      · next hne =>
        simp only [Option.some.injEq, Prod.mk.injEq] at h
        obtain ⟨rfl, hlast, hrest⟩ := h
        obtain ⟨rfl, hl, hr⟩ := cut_eq_iff.mp ⟨hlast, hrest⟩
        exact ⟨s.takeWhile notSlash, hs, hne, hscope, hl, hr, by rw [hlast]⟩
  · rintro ⟨scope, hs, hne, hscope, hl, hr, rfl⟩
    obtain ⟨htake, hdrop⟩ := cut_eq_iff.mpr ⟨hs, hscope, .inr rfl⟩
    obtain ⟨hlast, hrest⟩ := cut_eq_iff.mpr ⟨rfl, hl, hr⟩
    rw [hdrop, htake]
    dsimp only
    rw [if_neg hne, hlast, hrest]

/-! ## What a specifier is cut into -/

/-- Whether a text is something between slashes. -/
def IsPart (text : String) : Prop := text ≠ "" ∧ '/' ∉ text.toList

/-- Whether a text names a package: a part, or a scope and a part below it. -/
inductive IsPackageName : String → Prop
  | plain {part : String} : IsPart part → part.toList.head? ≠ some '@' → IsPackageName part
  | inScope {scope part : String} : IsPart scope → IsPart part →
      IsPackageName ("@" ++ scope ++ "/" ++ part)

theorem isPart_ofList {s : List Char} : IsPart (String.ofList s) ↔ s ≠ [] ∧ '/' ∉ s := by
  rw [IsPart, String.toList_ofList, Ne, ← String.toList_inj, String.toList_ofList]
  rfl

theorem isValidName_iff {name last : List Char} :
    isValidName name last = true ↔
      name ≠ [] ∧ last ≠ [] ∧ name.head? ≠ some '.' ∧ '\\' ∉ name ∧ '%' ∉ name := by
  simp [isValidName, startsWith_singleton, and_assoc]

theorem toList_ne_nil_of_isPackageName {package : String} (h : IsPackageName package) :
    package.toList ≠ [] := by
  cases h with
  | plain hpart _ => simpa using hpart.1
  | inScope _ _ => simp

theorem isPackageName_of_splitName? {s name last rest : List Char}
    (h : splitName? s = some (name, last, rest)) (hne : last ≠ []) :
    s = name ++ rest ∧ IsRest rest ∧ IsPackageName (String.ofList name) := by
  by_cases hs : s.head? = some '@'
  · obtain ⟨s, rfl⟩ := List.head?_eq_some_iff.mp hs
    obtain ⟨scope, rfl, hscope, hslash, hlast, hrest, rfl⟩ := splitName?_scoped_eq_some_iff.mp h
    have hname : String.ofList ('@' :: scope ++ '/' :: last) =
        "@" ++ String.ofList scope ++ "/" ++ String.ofList last := by
      simp [← String.toList_inj]
    refine ⟨by simp, hrest, hname ▸ ?_⟩
    exact .inScope (isPart_ofList.mpr ⟨hscope, hslash⟩) (isPart_ofList.mpr ⟨hne, hlast⟩)
  · obtain ⟨rfl, hslash, hrest, rfl⟩ := (splitName?_plain_eq_some_iff hs).mp h
    refine ⟨rfl, hrest, .plain (isPart_ofList.mpr ⟨hne, hslash⟩) ?_⟩
    rwa [String.toList_ofList, ← List.head?_append_of_ne_nil _ hne]

theorem exists_splitName?_of_isPackageName {package : String} (h : IsPackageName package)
    {rest : List Char} (hr : IsRest rest) :
    ∃ last, last ≠ [] ∧
      splitName? (package.toList ++ rest) = some (package.toList, last, rest) := by
  cases h with
  | plain hpart hat =>
    have hne : package.toList ≠ [] := by simpa using hpart.1
    have hhead : (package.toList ++ rest).head? = package.toList.head? :=
      List.head?_append_of_ne_nil _ hne
    rw [← hhead] at hat
    exact ⟨_, hne, (splitName?_plain_eq_some_iff hat).mpr ⟨rfl, hpart.2, hr, rfl⟩⟩
  | @inScope scope part hscope hpart =>
    have hsplit := splitName?_scoped_eq_some_iff.mpr ⟨scope.toList, rfl, by simpa using hscope.1,
      hscope.2, hpart.2, hr, rfl⟩
    exact ⟨part.toList, by simpa using hpart.1, by simpa using hsplit⟩

theorem subpathOf_eq (rest : String) :
    String.ofList (subpathOf rest.toList) =
      if rest = "" ∨ rest = "/" then "." else "." ++ rest := by
  have hslash : rest = "/" ↔ rest.toList = ['/'] := by rw [← String.toList_inj]; rfl
  by_cases h : rest = "" ∨ rest = "/"
  · have hl : (rest.toList.isEmpty || rest.toList == ['/']) = true := by simpa [hslash] using h
    rw [subpathOf, if_pos hl, if_pos h]
  · have hl : ¬(rest.toList.isEmpty || rest.toList == ['/']) = true := by simpa [hslash] using h
    rw [subpathOf, if_neg hl, if_neg h, ← String.toList_inj]
    simp

/-- Exactly the names that do not start with a dot and have no backslash and no percent sign are
taken, with whatever follows them. -/
theorem parse?_eq_some_iff {specifier : String} {bare : BareSpecifier} :
    parse? specifier = some bare ↔
      IsPackageName bare.package ∧ bare.package.toList.head? ≠ some '.' ∧
        '\\' ∉ bare.package.toList ∧ '%' ∉ bare.package.toList ∧
        ∃ rest, specifier = bare.package ++ rest ∧ IsRest rest.toList ∧
          bare.subpath = if rest = "" ∨ rest = "/" then "." else "." ++ rest := by
  unfold parse?
  constructor
  · intro h
    split at h
    · cases h
    · next name last rest hsplit =>
      split at h
      · next hv =>
        obtain ⟨-, hlast, hdot, hback, hpercent⟩ := isValidName_iff.mp hv
        obtain ⟨hs, hr, hname⟩ := isPackageName_of_splitName? hsplit hlast
        obtain rfl : _ = bare := Option.some.inj h
        dsimp only
        rw [String.toList_ofList]
        refine ⟨hname, hdot, hback, hpercent, String.ofList rest, ?_, ?_, ?_⟩
        · simp [← String.toList_inj, hs]
        · rwa [String.toList_ofList]
        · rw [← subpathOf_eq, String.toList_ofList]
      · cases h
  · rintro ⟨hname, hdot, hback, hpercent, rest, rfl, hr, hsub⟩
    obtain ⟨last, hlast, hsplit⟩ := exists_splitName?_of_isPackageName hname hr
    have hne := toList_ne_nil_of_isPackageName hname
    rw [String.toList_append, hsplit]
    dsimp only
    rw [if_pos (isValidName_iff.mpr ⟨hne, hlast, hdot, hback, hpercent⟩), subpathOf_eq, ← hsub,
      String.ofList_toList]

/-! ## Where a name leads -/

theorem isName_of_isPart {text : String} (h : IsPart text) (hdot : text.toList.head? ≠ some '.') :
    IsName text := by
  refine isName_iff.mpr ⟨h.2, h.1, ?_, ?_⟩
  all_goals
    rintro rfl
    exact hdot (by decide)

/-- Only the part below a scope may be no name of a directory. -/
theorem exists_names_of_isPackageName {package : String} (h : IsPackageName package)
    (hdot : package.toList.head? ≠ some '.')
    (hlast : ∀ scope, package ≠ "@" ++ scope ++ "/." ∧ package ≠ "@" ++ scope ++ "/..") :
    ∃ names : List String, names ≠ [] ∧ (∀ name ∈ names, IsName name) ∧
      package = (ofNames false names).text := by
  cases h with
  | plain hpart _ =>
    have hname := isName_of_isPart hpart hdot
    exact ⟨[package], List.cons_ne_nil _ _, by simpa using hname, by simp [ofNames]⟩
  | @inScope scope part hscope hpart =>
    have hfirst : IsName ("@" ++ scope) :=
      isName_of_isPart ⟨by simp, by simpa using hscope.2⟩ (by simp)
    have hsecond : IsName part := by
      refine isName_iff.mpr ⟨hpart.2, hpart.1, ?_, ?_⟩
      · rintro rfl
        exact (hlast scope).1 (by simp [← String.toList_inj])
      · rintro rfl
        exact (hlast scope).2 (by simp [← String.toList_inj])
    refine ⟨["@" ++ scope, part], List.cons_ne_nil _ _, by simp [hfirst, hsecond], ?_⟩
    simp [ofNames]

/-- What a bare specifier is cut into. Nothing is lost, the name has one part or a scope and a part,
and it leads strictly down from every directory unless its part below a scope is `.` or `..`. -/
theorem package_split {specifier : String} {bare : BareSpecifier}
    (h : parse? specifier = some bare) :
    (∃ rest, specifier = bare.package ++ rest ∧ (rest = "" ∨ rest.toList.head? = some '/') ∧
      bare.subpath = if rest = "" ∨ rest = "/" then "." else "." ++ rest) ∧
    (specifier.toList.head? ≠ some '@' → bare.package ≠ "" ∧ '/' ∉ bare.package.toList) ∧
    (specifier.toList.head? = some '@' → ∃ scope part, bare.package = "@" ++ scope ++ "/" ++ part ∧
      IsPart scope ∧ IsPart part) ∧
    ((∀ scope, bare.package ≠ "@" ++ scope ++ "/." ∧ bare.package ≠ "@" ++ scope ++ "/..") →
      (∀ segment ∈ bare.package.toList.splitOn '/', segment ≠ ['.'] ∧ segment ≠ ['.', '.']) ∧
      ∀ dir : Path, (dir.joinText bare.package).IsStrictlyBelow dir) := by
  obtain ⟨hname, hdot, -, -, rest, hs, hr, hsub⟩ := parse?_eq_some_iff.mp h
  have hrest : rest = "" ∨ rest.toList.head? = some '/' := by simpa [IsRest] using hr
  have hne := toList_ne_nil_of_isPackageName hname
  have hhead : specifier.toList.head? = bare.package.toList.head? := by
    rw [hs, String.toList_append, List.head?_append_of_ne_nil _ hne]
  refine ⟨⟨rest, hs, hrest, hsub⟩, fun hat => ?_, fun hat => ?_, fun hlast => ?_⟩
  · rw [hhead] at hat
    generalize bare.package = package at hname hat
    cases hname with
    | plain hpart _ => exact hpart
    | inScope _ _ => exact absurd (by simp) hat
  · rw [hhead] at hat
    generalize bare.package = package at hname hat
    cases hname with
    | plain _ hplain => exact absurd hat hplain
    | inScope hscope hpart => exact ⟨_, _, rfl, hscope, hpart⟩
  · obtain ⟨names, hne, hnames, hp⟩ := exists_names_of_isPackageName hname hdot hlast
    refine ⟨fun segment hm => ?_, fun dir => ?_⟩
    · have hsegments := segments_ofNames hne (fun name hn => (hnames name hn).1) false
      rw [segments, ← hp] at hsegments
      rw [hsegments] at hm
      obtain ⟨name, hn, rfl⟩ : ∃ name ∈ names, name.toList = segment := by simpa using hm
      obtain ⟨-, -, hdot, hdots⟩ := isName_iff.mp (hnames name hn)
      exact ⟨fun he => hdot (String.toList_inj.mp he), fun he => hdots (String.toList_inj.mp he)⟩
    · rw [joinText, hp]
      exact isStrictlyBelow_join_ofNames hne hnames dir

theorem package_split_non_ascii :
    parse? "@ß/é//m/" = some ⟨"@ß/é", ".//m/"⟩ ∧
      (∃ scope part, "@ß/é" = "@" ++ scope ++ "/" ++ part ∧ IsPart scope ∧ IsPart part) ∧
      ∀ dir : Path, (dir.joinText "@ß/é").IsStrictlyBelow dir := by
  have hp : parse? "@ß/é//m/" = some ⟨"@ß/é", ".//m/"⟩ := by decide
  have hlast (scope : String) : "@ß/é" ≠ "@" ++ scope ++ "/." ∧ "@ß/é" ≠ "@" ++ scope ++ "/.." := by
    constructor
    all_goals
      intro he
      have hl := congrArg (fun s => s.toList.reverse.head?) he
      simp at hl
  obtain ⟨-, -, hscope, hdown⟩ := package_split hp
  exact ⟨hp, hscope (by decide), (hdown hlast).2⟩

/-- The part below a scope is only looked at for being empty. As `..` it leads back to the directory
of the packages. -/
theorem package_climbs_below_scope :
    parse? "@s/.." = some ⟨"@s/..", "."⟩ ∧
      ['.', '.'] ∈ ("@s/.." : String).toList.splitOn '/' ∧
      ((Path.mk "node_modules").joinText "@s/..").normalize? = some ⟨"node_modules"⟩ ∧
      ¬((Path.mk "node_modules").joinText "@s/..").IsStrictlyBelow ⟨"node_modules"⟩ := by
  refine ⟨by decide, by decide, by decide, ?_⟩
  rintro ⟨names, -, hnames, hc⟩
  have hcomponents : ((Path.mk "node_modules").joinText "@s/..").components =
      [.name "node_modules", .name "@s", .up] := by decide
  have hup : Component.up ∈ (Path.mk "node_modules").components ++ names.map .name := by
    rw [← hc, hcomponents]
    simp
  simp [show (Path.mk "node_modules").components = [.name "node_modules"] by decide] at hup

end BareSpecifier

end ModuleLoader
