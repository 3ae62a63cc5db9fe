import Mathlib.Data.List.Basic
import ModuleLoader.CommonJs.Exports

/-! Scans that take one match after the other, each behind the end of the one before. A match is
missed only if it starts within one that is taken, and what is appended to a text takes no match
away from it. -/

namespace ModuleLoader.CommonJs

/-- What the matches of `find?` in a text give, and how long a match is. The first `skip` characters
are taken already. -/
def scanFrom {α : Type} (find? : List Char → Option (List α × Nat)) : Nat → List Char → List α
  | _, [] => []
  | skip + 1, _ :: r => scanFrom find? skip r
  | 0, c :: r =>
    match find? (c :: r) with
    | some (found, length) => found ++ scanFrom find? (length - 1) r
    | none => scanFrom find? 0 r

section

variable {α : Type} {find? : List Char → Option (List α × Nat)} {found : List α} {length : Nat}
  {front rest more : List Char}

theorem scanFrom_of_match {c : Char} {r : List Char} (h : find? (c :: r) = some (found, length)) :
    scanFrom find? 0 (c :: r) = found ++ scanFrom find? (length - 1) r := by
  rw [scanFrom, h]

theorem scanFrom_of_no_match {c : Char} {r : List Char} (h : find? (c :: r) = none) :
    scanFrom find? 0 (c :: r) = scanFrom find? 0 r := by
  rw [scanFrom, h]

/-- A match behind `front` is taken, unless it starts within an earlier one. -/
theorem scanFrom_finds {skip : Nat} (hrest : rest ≠ []) (hfind : find? rest = some (found, length))
    (hskip : skip ≤ front.length) : found ⊆ scanFrom find? skip (front ++ rest) ∨
      ∃ front' rest' found' length', front ++ rest = front' ++ rest' ∧
        find? rest' = some (found', length') ∧ found' ⊆ scanFrom find? skip (front ++ rest) ∧
        front'.length < front.length ∧ front.length < front'.length + length' := by
  induction front generalizing skip with
  | nil =>
    obtain rfl := Nat.le_zero.mp hskip
    obtain ⟨c, r, rfl⟩ := List.exists_cons_of_ne_nil hrest
    rw [List.nil_append, scanFrom_of_match hfind]
    exact .inl (List.subset_append_left _ _)
  | cons c front ih =>
    -- One character further nothing changes but the place of the match.
    have hnext {skip' : Nat} (hle : skip' ≤ front.length)
        (hsub : scanFrom find? skip' (front ++ rest) ⊆ scanFrom find? skip (c :: front ++ rest)) :
        found ⊆ scanFrom find? skip (c :: front ++ rest) ∨
          ∃ front' rest' found' length', c :: front ++ rest = front' ++ rest' ∧
            find? rest' = some (found', length') ∧
            found' ⊆ scanFrom find? skip (c :: front ++ rest) ∧
            front'.length < (c :: front).length ∧
            (c :: front).length < front'.length + length' := by
      obtain hin | ⟨front', rest', found', length', hs, hf, hin, hlo, hhi⟩ := ih hle
      · exact .inl (List.Subset.trans hin hsub)
      · refine .inr ⟨c :: front', rest', found', length', ?_, hf, List.Subset.trans hin hsub, ?_, ?_⟩
        · rw [List.cons_append, hs, List.cons_append]
        · exact Nat.succ_lt_succ hlo
        · rw [List.length_cons, List.length_cons]
          omega
    cases skip with
    | succ skip => exact hnext (Nat.le_of_succ_le_succ hskip) (List.Subset.refl _)
    | zero =>
      cases hc : find? (c :: (front ++ rest)) with
      | none => exact hnext (Nat.zero_le _) (by rw [List.cons_append, scanFrom_of_no_match hc]; simp)
      | some match' =>
        obtain ⟨found', length'⟩ := match'
        have hscan := scanFrom_of_match hc
        by_cases hlen : length' - 1 ≤ front.length
        · exact hnext hlen (by rw [List.cons_append, hscan]; exact List.subset_append_right _ _)
        · refine .inr ⟨[], c :: front ++ rest, found', length', rfl, hc, ?_, Nat.zero_lt_succ _, ?_⟩
          · rw [List.cons_append, hscan]
            exact List.subset_append_left _ _
          · rw [List.length_cons, List.length_nil]
            omega

/-- More text leaves the matches as they are, if a match does not depend on what follows it, and if
the text that a further one starts in has no match of its own from there on. -/
theorem scanFrom_subset_append {s : List Char}
    (hkeep : ∀ s, ∀ m ∈ find? s, find? (s ++ more) = some m)
    (hnew : ∀ c r, find? (c :: r) = none → find? (c :: r ++ more) ≠ none → scanFrom find? 0 r = [])
    (skip : Nat) : scanFrom find? skip s ⊆ scanFrom find? skip (s ++ more) := by
  induction s generalizing skip with
  | nil =>
    rw [scanFrom]
    exact List.nil_subset _
  | cons c r ih =>
    cases skip with
    | succ skip => exact ih skip
    | zero =>
      cases hc : find? (c :: r) with
      | some m =>
        obtain ⟨found, length⟩ := m
        have hk : find? (c :: (r ++ more)) = some (found, length) := hkeep (c :: r) _ hc
        rw [scanFrom_of_match hc, List.cons_append, scanFrom_of_match hk]
        exact List.append_subset.mpr ⟨List.subset_append_left _ _,
          List.Subset.trans (ih (length - 1)) (List.subset_append_right _ _)⟩
      | none =>
        rw [scanFrom_of_no_match hc]
        by_cases hn : find? (c :: (r ++ more)) = none
        · rw [List.cons_append, scanFrom_of_no_match hn]
          exact ih 0
        · rw [hnew c r hc hn]
          exact List.nil_subset _

theorem scanFrom_eq_nil {s : List Char} (skip : Nat)
    (h : ∀ front rest, s = front ++ rest → rest ≠ [] → find? rest = none) :
    scanFrom find? skip s = [] := by
  induction s generalizing skip with
  | nil => rw [scanFrom]
  | cons c r ih =>
    have hr := fun skip => ih skip fun front rest hs =>
      h (c :: front) rest (by rw [hs, List.cons_append])
    cases skip with
    | succ skip => exact hr skip
    | zero => rw [scanFrom_of_no_match (h [] (c :: r) rfl (List.cons_ne_nil c r)), hr 0]

end

/-! ## The scans of the program -/

/-- An assignment behind a character that is apart from it. -/
def assignedAfter? : List Char → Option (List (List Char) × Nat)
  | [] => none
  | c :: r =>
    if isApart c then (assignedName? r).map fun (name, length) => ([name], length + 1) else none

theorem assignedNamesFrom_eq (skip : Nat) (s : List Char) :
    assignedNamesFrom skip s = scanFrom assignedAfter? skip s := by
  induction s generalizing skip with
  | nil => rw [assignedNamesFrom, scanFrom]
  | cons c r ih =>
    cases skip with
    | succ skip => exact ih skip
    | zero =>
      rw [assignedNamesFrom, scanFrom, assignedAfter?]
      by_cases hc : isApart c = true
      · rw [if_pos hc, if_pos hc]
        cases assignedName? r with
        | none => exact ih 0
        | some m => exact congrArg (m.1 :: ·) (ih m.2)
      · rw [if_neg hc, if_neg hc]
        exact ih 0

/-- The start of a text is like a line feed in front of it. -/
theorem assignedNames_eq (s : List Char) :
    assignedNames s = scanFrom assignedAfter? 0 ('\n' :: s) := by
  have hapart : isApart '\n' = true := by decide
  rw [← assignedNamesFrom_eq, assignedNames, assignedNamesFrom, if_pos hapart]

def keysOfObject? (s : List Char) : Option (List (List Char) × Nat) :=
  (exportedObject? s).map fun (inside, length) =>
    ((inside.splitOn ',').filterMap objectKey?, length)

theorem objectKeysFrom_eq (skip : Nat) (s : List Char) :
    objectKeysFrom skip s = scanFrom keysOfObject? skip s := by
  induction s generalizing skip with
  | nil => rw [objectKeysFrom, scanFrom]
  | cons c r ih =>
    cases skip with
    | succ skip => exact ih skip
    | zero =>
      rw [objectKeysFrom, scanFrom, keysOfObject?]
      cases exportedObject? (c :: r) with
      | none => exact ih 0
      | some m => exact congrArg (_ ++ ·) (ih (m.2 - 1))

end ModuleLoader.CommonJs
