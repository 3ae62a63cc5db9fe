import ModuleLoader.Proofs.Package.Leaves
import ModuleLoader.Proofs.Text.Pieces

/-! Maps of subpaths. A subpath that is a key is decided by this key alone, and any other one by the
first pattern that it matches. -/

namespace ModuleLoader.Target

open Text

variable {conditions : List String} {field : TargetField} {subpath key capture : String}

/-! ## Patterns -/

/-- Whether a key with one `*` is the subpath where the capture, which is not empty, stands for the
`*`. -/
def Captures (key subpath capture : String) : Prop :=
  ∃ front tail, '*' ∉ front ∧ '*' ∉ tail ∧ key.toList = front ++ '*' :: tail ∧
    subpath.toList = front ++ capture.toList ++ tail ∧ capture ≠ ""

theorem exists_of_count_eq_one {s : List Char} (h : s.count '*' = 1) :
    ∃ front tail, s = front ++ '*' :: tail ∧ '*' ∉ front ∧ '*' ∉ tail := by
  have hm : '*' ∈ s := List.count_pos_iff.mp (by omega)
  obtain ⟨front, tail, rfl, hf⟩ := List.eq_append_cons_of_mem hm
  refine ⟨front, tail, rfl, hf, ?_⟩
  rw [List.count_append, List.count_cons_self, List.count_eq_zero.mpr hf] at h
  exact List.count_eq_zero.mp (by omega)

theorem matchPattern?_eq_some_iff {front tail : List Char} (hf : '*' ∉ front)
    (hk : key.toList = front ++ '*' :: tail) :
    matchPattern? key subpath = some capture ↔
      subpath.toList = front ++ capture.toList ++ tail ∧ capture ≠ "" := by
  rw [matchPattern?, hk, cutAt?_of_notMem hf]
  dsimp only
  constructor
  · intro h
    split at h
    · cases h
    · next rest hrest =>
      split at h
      · cases h
      · next found hfound =>
        rw [after?_eq_some_iff] at hrest hfound
        by_cases he : found.isEmpty = true
        · simp [he] at h
        · obtain rfl : String.ofList found.reverse = capture := by simpa [he] using h
          have hr : rest = found.reverse ++ tail := by
            simpa using congrArg List.reverse hfound
          have hne : found ≠ [] := by simpa using he
          exact ⟨by simp [hrest, hr], by simpa using hne⟩
  · rintro ⟨hs, hne⟩
    have hrest : after? front subpath.toList = some (capture.toList ++ tail) :=
      after?_eq_some_iff.mpr (by simp [hs])
    have hfound : after? tail.reverse (capture.toList ++ tail).reverse =
        some capture.toList.reverse := after?_eq_some_iff.mpr (by simp)
    have he : capture.toList ≠ [] := fun h => hne (String.toList_eq_nil_iff.mp h)
    rw [hrest]
    dsimp only
    rw [hfound]
    simp [he]

theorem pattern_eq_some_iff :
    (if starCount key = 1 then matchPattern? key subpath else none) = some capture ↔
      Captures key subpath capture := by
  by_cases hc : starCount key = 1
  · obtain ⟨front, tail, hk, hf, ht⟩ := exists_of_count_eq_one hc
    rw [if_pos hc, matchPattern?_eq_some_iff hf hk]
    constructor
    · rintro ⟨hs, hne⟩
      exact ⟨front, tail, hf, ht, hk, hs, hne⟩
    · rintro ⟨front', tail', hf', -, hk', hs, hne⟩
      have hcut := cutAt?_of_notMem hf tail
      rw [← hk, hk', cutAt?_of_notMem hf' tail'] at hcut
      obtain ⟨rfl, rfl⟩ := Prod.mk.inj (Option.some.inj hcut)
      exact ⟨hs, hne⟩
  · rw [if_neg hc]
    constructor
    · nofun
    · rintro ⟨front, tail, hf, ht, hk, -, -⟩
      refine absurd ?_ hc
      simp [starCount, hk, List.count_eq_zero.mpr hf, List.count_eq_zero.mpr ht]

/-- The target with the capture in the place of each `*`. -/
def filled (target capture : String) : String :=
  String.ofList (target.toList.flatMap fun c => if c = '*' then capture.toList else [c])

theorem flatMap_of_notMem {s : List Char} (h : '*' ∉ s) (capture : List Char) :
    (s.flatMap fun c => if c = '*' then capture else [c]) = s := by
  induction s with
  | nil => rfl
  | cons c s ih =>
    obtain ⟨hc, hs⟩ := not_or.mp (List.mem_cons.not.mp h)
    simp [Ne.symm hc, ih hs]

theorem substituteStar_eq (target capture : String) :
    substituteStar target capture =
      if 2 ≤ starCount target then .error (.unsupportedPattern target)
      else .ok (filled target capture) := by
  by_cases h0 : starCount target = 0
  · have hn : '*' ∉ target.toList := List.count_eq_zero.mp h0
    simp [substituteStar, h0, filled, flatMap_of_notMem hn]
  · by_cases h1 : starCount target = 1
    · obtain ⟨front, tail, hk, hf, ht⟩ := exists_of_count_eq_one h1
      have hfilled : filled target capture = String.ofList (front ++ capture.toList ++ tail) := by
        simp [filled, hk, flatMap_of_notMem hf, flatMap_of_notMem ht]
      simp [substituteStar, h1, hk, cutAt?_of_notMem hf, hfilled]
    · have h2 : 2 ≤ starCount target := by omega
      rw [if_pos h2, substituteStar]
      split
      · omega
      · omega
      · rfl

theorem hasParentSegment_iff {target : String} :
    hasParentSegment target = true ↔ ['.', '.'] ∈ target.toList.splitOn '/' := by
  simp [hasParentSegment, Path.isDotDot]

/-! ## Selection -/

/-- What a key that is the subpath gives, with the outcome of its tree. -/
def exactOutcome (key : String) (outcome : Outcome) : Except TargetError (Option TargetMatch) :=
  outcome.map (·.map fun leaf => ⟨leaf.target, key, leaf.condition⟩)

/-- What a pattern gives, with the outcome of its tree and the text that its `*` stands for. -/
def patternOutcome (key capture : String) : Outcome → Except TargetError (Option TargetMatch)
  | .error e => .error e
  | .ok none => .ok none
  | .ok (some leaf) =>
    let target := filled leaf.target capture
    if 2 ≤ starCount leaf.target then .error (.unsupportedPattern leaf.target)
    else if ['.', '.'] ∈ target.toList.splitOn '/' then .error (.invalid target)
    else .ok (some ⟨target, key, leaf.condition⟩)

theorem selectPattern_cons_of_captures {value : Json} (hc : Captures key subpath capture)
    (rest : List (String × Json)) :
    selectPattern conditions field subpath ((key, value) :: rest) =
      patternOutcome key capture (evaluate conditions field "." value) := by
  rw [selectPattern, pattern_eq_some_iff.mpr hc]
  dsimp only
  cases evaluate conditions field "." value with
  | error e => rfl
  | ok leaf? =>
    cases leaf? with
    | none => rfl
    | some leaf =>
      show (substituteStar leaf.target capture >>= fun target =>
        if hasParentSegment target = true then Except.error (.invalid target)
        else .ok (some (TargetMatch.mk target key leaf.condition))) = _
      rw [substituteStar_eq, patternOutcome]
      by_cases h2 : 2 ≤ starCount leaf.target
      · rw [if_pos h2, if_pos h2]
        rfl
      · rw [if_neg h2, if_neg h2]
        by_cases hup : hasParentSegment (filled leaf.target capture) = true
        · rw [if_pos (hasParentSegment_iff.mp hup)]
          simp only [bind, Except.bind, if_pos hup]
        · rw [if_neg (hasParentSegment_iff.not.mp hup)]
          simp only [bind, Except.bind, if_neg hup]

theorem selectPattern_append {front : List (String × Json)}
    (hf : ∀ entry ∈ front, ∀ c, ¬Captures entry.1 subpath c) (back : List (String × Json)) :
    selectPattern conditions field subpath (front ++ back) =
      selectPattern conditions field subpath back := by
  induction front with
  | nil => rfl
  | cons entry front ih =>
    obtain ⟨key, value⟩ := entry
    have hnone : (if starCount key = 1 then matchPattern? key subpath else none) = none := by
      refine Option.eq_none_iff_forall_ne_some.mpr fun c hc => ?_
      exact hf (key, value) List.mem_cons_self c (pattern_eq_some_iff.mp hc)
    rw [List.cons_append, selectPattern, hnone]
    exact ih fun entry hm => hf entry (List.mem_cons_of_mem _ hm)

theorem selectPattern_of_forall {entries : List (String × Json)}
    (hf : ∀ entry ∈ entries, ∀ c, ¬Captures entry.1 subpath c) :
    selectPattern conditions field subpath entries = .ok none := by
  rw [← List.append_nil entries, selectPattern_append hf]
  rfl

theorem selectPattern_eq {front back : List (String × Json)} {value : Json}
    (hf : ∀ entry ∈ front, ∀ c, ¬Captures entry.1 subpath c) (hc : Captures key subpath capture) :
    selectPattern conditions field subpath (front ++ (key, value) :: back) =
      patternOutcome key capture (evaluate conditions field "." value) := by
  rw [selectPattern_append hf, selectPattern_cons_of_captures hc]

theorem selectSubpath_of_get?_eq_some {members : Members Json} {value : Json}
    (h : members.get? subpath = some value) :
    selectSubpath conditions field subpath members =
      exactOutcome subpath (evaluate conditions field "." value) := by
  rw [selectSubpath, h]
  dsimp only
  cases evaluate conditions field "." value <;> rfl

theorem selectSubpath_of_get?_eq_none {members : Members Json}
    (h : members.get? subpath = none) :
    selectSubpath conditions field subpath members =
      selectPattern conditions field subpath members.entries := by
  rw [selectSubpath, h]

theorem selectPattern_cases (entries : List (String × Json)) :
    selectPattern conditions field subpath entries = .ok none ∨
      ∃ key value capture, Captures key subpath capture ∧
        selectPattern conditions field subpath entries =
          patternOutcome key capture (evaluate conditions field "." value) := by
  induction entries with
  | nil => exact .inl rfl
  | cons entry rest ih =>
    obtain ⟨key, value⟩ := entry
    by_cases h : ∃ capture, Captures key subpath capture
    · obtain ⟨capture, hc⟩ := h
      exact .inr ⟨key, value, capture, hc, selectPattern_cons_of_captures hc rest⟩
    · have hskip : selectPattern conditions field subpath ([(key, value)] ++ rest) =
          selectPattern conditions field subpath rest :=
        selectPattern_append (by simpa using h) rest
      rw [List.singleton_append] at hskip
      rwa [hskip]

/-- One tree decides, as it stands or with a capture filled in, unless nothing does. -/
theorem select_cases (tree : Json) :
    select conditions field subpath tree = .ok none ∨
      (∃ key subpath' tree', select conditions field subpath tree =
        exactOutcome key (evaluate conditions field subpath' tree')) ∨
      ∃ key value capture, Captures key subpath capture ∧
        select conditions field subpath tree =
          patternOutcome key capture (evaluate conditions field "." value) := by
  have hshorthand : (do
      let leaf? ← evaluate conditions field subpath tree
      return leaf?.map fun leaf => ⟨leaf.target, ".", leaf.condition⟩ :
        Except TargetError (Option TargetMatch)) =
      exactOutcome "." (evaluate conditions field subpath tree) := by
    cases evaluate conditions field subpath tree <;> rfl
  cases tree with
  | object members =>
    by_cases h : members.keys.any isSubpathKey = true
    · have hs : select conditions field subpath (.object members) =
          selectSubpath conditions field subpath members := if_pos h
      rw [hs]
      cases hv : members.get? subpath with
      | some value => exact .inr (.inl ⟨_, _, _, selectSubpath_of_get?_eq_some hv⟩)
      | none =>
        rw [selectSubpath_of_get?_eq_none hv]
        rcases @selectPattern_cases conditions field subpath members.entries with hn | hp
        · exact .inl hn
        · exact .inr (.inr hp)
    · exact .inr (.inl ⟨_, _, _, (if_neg h).trans hshorthand⟩)
  | _ => exact .inr (.inl ⟨_, _, _, hshorthand⟩)

/-- A map of subpaths decides by one key. A key that is the subpath comes before all patterns, and
gives nothing if its tree has no leaf. Otherwise the first pattern that the subpath matches decides,
whatever other keys stand before it that do not match, or after it. If there is none, there is no
target. -/
theorem subpath_selected (conditions : List String) (field : TargetField) (subpath : String)
    (members : Members Json) :
    (members.keys.any isSubpathKey = true →
      select conditions field subpath (.object members) =
        selectSubpath conditions field subpath members) ∧
    (∀ value, members.get? subpath = some value →
      selectSubpath conditions field subpath members =
        exactOutcome subpath (evaluate conditions field "." value) ∧
      (leaves conditions none value = [] →
        selectSubpath conditions field subpath members = .ok none)) ∧
    (members.get? subpath = none →
      (∀ front key value back capture, members.entries = front ++ (key, value) :: back →
        (∀ entry ∈ front, ∀ c, ¬Captures entry.1 subpath c) → Captures key subpath capture →
        selectSubpath conditions field subpath members =
          patternOutcome key capture (evaluate conditions field "." value) ∧
        ∀ front' back', (∀ entry ∈ front', ∀ c, ¬Captures entry.1 subpath c) →
          (Members.mk (front' ++ (key, value) :: back')).get? subpath = none →
          selectSubpath conditions field subpath ⟨front' ++ (key, value) :: back'⟩ =
            selectSubpath conditions field subpath members) ∧
      ((∀ entry ∈ members.entries, ∀ c, ¬Captures entry.1 subpath c) →
        selectSubpath conditions field subpath members = .ok none)) := by
  refine ⟨fun h => ?_, fun value h => ?_, fun h => ⟨?_, fun hf => ?_⟩⟩
  · rw [select]
    exact if_pos h
  · have hexact : selectSubpath conditions field subpath members =
        exactOutcome subpath (evaluate conditions field "." value) :=
      selectSubpath_of_get?_eq_some h
    refine ⟨hexact, fun hl => ?_⟩
    rw [hexact, evaluate_eq_firstPermitted, answering, hl]
    rfl
  · intro front key value back capture he hf hc
    have hpattern : selectSubpath conditions field subpath members =
        patternOutcome key capture (evaluate conditions field "." value) := by
      rw [selectSubpath_of_get?_eq_none h, he, selectPattern_eq hf hc]
    refine ⟨hpattern, fun front' back' hf' h' => ?_⟩
    rw [hpattern, selectSubpath_of_get?_eq_none h', selectPattern_eq hf' hc]
  · rw [selectSubpath_of_get?_eq_none h, selectPattern_of_forall hf]

theorem not_captures (h : (if starCount key = 1 then matchPattern? key subpath else none) = none)
    (c : String) : ¬Captures key subpath c := by
  intro hc
  rw [pattern_eq_some_iff.mpr hc] at h
  cases h

/-- A key that is null hides the pattern after it. A pattern decides as before when the keys after it
go and the ones before it change. -/
theorem subpath_selected_map :
    let tree : Json := .object ⟨[("import", .string "./esm/*.mjs"), ("default", .null)]⟩
    let members : Members Json := ⟨[("./lib/x.js", .null), ("./lib/*.js", tree),
      ("./*", .string "./*")]⟩
    let members' : Members Json := ⟨[("./lib/*/*", .string "./b/*"), ("./lib/*.js", tree)]⟩
    selectSubpath ["import"] .exports "./lib/x.js" members = .ok none ∧
      selectSubpath ["import"] .exports "./lib/x/y.js" members' =
        .ok (some ⟨"./esm/x/y.mjs", "./lib/*.js", some "import"⟩) := by
  intro tree members members'
  have hexact := (subpath_selected ["import"] .exports "./lib/x.js" members).2.1 .null rfl
  have hcaptures : Captures "./lib/*.js" "./lib/x/y.js" "x/y" :=
    pattern_eq_some_iff.mp (by decide +kernel)
  have hfront : ∀ entry ∈ [("./lib/x.js", Json.null)], ∀ c, ¬Captures entry.1 "./lib/x/y.js" c := by
    simpa using not_captures (by decide +kernel)
  have hfront' : ∀ entry ∈ [("./lib/*/*", Json.string "./b/*")],
      ∀ c, ¬Captures entry.1 "./lib/x/y.js" c := by
    simpa using not_captures (by decide +kernel)
  obtain ⟨hpattern, hsame⟩ := ((subpath_selected ["import"] .exports "./lib/x/y.js" members).2.2
    (by decide +kernel)).1 [("./lib/x.js", .null)] "./lib/*.js" tree [("./*", .string "./*")] "x/y"
    rfl hfront hcaptures
  have hselected := (hsame [("./lib/*/*", .string "./b/*")] [] hfront' (by decide +kernel)).trans
    hpattern
  exact ⟨hexact.2 rfl, hselected.trans (by decide +kernel)⟩

end ModuleLoader.Target
