import Mathlib.Data.String.Basic
import ModuleLoader.Proofs.Source.Places

/-! Walks through trees. Where every directory can be opened, a walk finds each file once, in
increasing order of the names that lead to it. -/

namespace ModuleLoader

open ModuleLoader.Path Text

/-! ## The order of entries -/

variable {α β : Type} {entries : List (String × α)}

theorem mem_sortByName {entry : String × α} : entry ∈ sortByName entries ↔ entry ∈ entries :=
  List.mem_mergeSort

theorem sortByName_map (f : String × α → β) (entries : List (String × α)) :
    sortByName (entries.map fun entry => (entry.1, f entry)) =
      (sortByName entries).map fun entry => (entry.1, f entry) := by
  have h := List.map_mergeSort (r := fun a b => !(b.1 < a.1)) (s := fun a b => !(b.1 < a.1))
    (f := fun entry => (entry.1, f entry)) (l := entries) fun _ _ _ _ => rfl
  exact h.symm

theorem pairwise_sortByName (h : (entries.map Prod.fst).Nodup) :
    (sortByName entries).Pairwise fun a b => a.1 < b.1 := by
  have hperm : (sortByName entries).Perm entries := List.mergeSort_perm _ _
  have hle : (sortByName entries).Pairwise fun a b => a.1 ≤ b.1 := by
    refine (List.pairwise_mergeSort (fun a b c hab hbc => ?_) (fun a b => ?_) entries).imp
      fun hab => not_lt.mp (by simpa only [Bool.not_eq_true', decide_eq_false_iff_not] using hab)
    · simp only [Bool.not_eq_true', decide_eq_false_iff_not, not_lt] at hab hbc ⊢
      exact le_trans hab hbc
    · simp only [Bool.or_eq_true, Bool.not_eq_true', decide_eq_false_iff_not, not_lt]
      exact le_total a.1 b.1
  have hne : (sortByName entries).Pairwise fun a b => a.1 ≠ b.1 :=
    List.pairwise_map.mp ((hperm.map Prod.fst).nodup_iff.mpr h)
  exact (hle.and hne).imp fun hab => lt_of_le_of_ne hab.1 hab.2

/-! ## Induction on trees -/

namespace Node

/-- A tree is a directory of trees or something without entries. -/
@[elab_as_elim]
theorem induction {motive : Node → Prop}
    (directory : ∀ entries, (∀ entry ∈ entries, motive entry.2) → motive (directory entries))
    (leaf : ∀ node, (∀ entries, node ≠ .directory entries) → motive node) : ∀ node, motive node
  | .directory entries => directory entries fun entry _ => induction directory leaf entry.2
  | .file content => leaf (.file content) nofun
  | .lockedFile => leaf .lockedFile nofun
  | .lockedDirectory => leaf .lockedDirectory nofun
  | .link target => leaf (.link target) nofun
  | .socket => leaf .socket nofun
termination_by node => sizeOf node
decreasing_by
  next hm =>
    have hlt := List.sizeOf_lt_of_mem hm
    obtain ⟨name, child⟩ := entry
    simp at hlt ⊢
    omega

variable {p : Path} {root node : Node} {names front : List String} {entries : List (String × Node)}

theorem entryVisits_eq (p : Path) (entries : List (String × Node)) :
    entryVisits p entries =
      entries.map fun entry => (entry.1, entry.2.visits (p.joinText entry.1)) := by
  induction entries with
  | nil => rfl
  | cons entry rest ih => rw [entryVisits, ih, List.map_cons, visits]

theorem visitsBelow_of_long (h : pathLimit ≤ byteLength p.text.toList) :
    (directory entries).visitsBelow p = [.error (.atEntry p .nameTooLong)] := by
  rw [visitsBelow, if_pos h]

theorem visitsBelow_directory (h : byteLength p.text.toList < pathLimit) :
    (directory entries).visitsBelow p =
      (sortByName entries).flatMap fun entry => entry.2.visits (p.joinText entry.1) := by
  rw [visitsBelow, if_neg (not_le.mpr h), entryVisits_eq, sortByName_map, List.flatMap_map]

/-! ## Files by their names -/

mutual

/-- The names that lead to each file, in the order of a walk. -/
def fileNames : Node → List (List String)
  | file _ => [[]]
  | lockedFile => [[]]
  | directory entries => (sortByName (entryFileNames entries)).flatMap Prod.snd
  | _ => []

def entryFileNames : List (String × Node) → List (String × List (List String))
  | [] => []
  | (name, node) :: rest => (name, (fileNames node).map (name :: ·)) :: entryFileNames rest

end

theorem fileNames_directory (entries : List (String × Node)) : (directory entries).fileNames =
    (sortByName entries).flatMap fun entry => entry.2.fileNames.map (entry.1 :: ·) := by
  have he : entryFileNames entries =
      entries.map fun entry => (entry.1, entry.2.fileNames.map (entry.1 :: ·)) := by
    induction entries with
    | nil => rfl
    | cons entry rest ih => rw [entryFileNames, ih, List.map_cons]
  rw [fileNames, he, sortByName_map, List.flatMap_map]

/-- Whether names lead to a file. -/
def HasFile (root : Node) (names : List String) : Prop :=
  ∃ node, root.at? names = some node ∧ node.isFile = true

theorem fileNames_leaf (h : ∀ entries, node ≠ directory entries) :
    node.fileNames = if node.isFile then [[]] else [] := by
  cases node with
  | directory entries => exact absurd rfl (h entries)
  | _ => rfl

theorem hasFile_cons_iff (h : (directory entries).IsWellNamed) {name : String} :
    (directory entries).HasFile (name :: names) ↔
      ∃ node, (name, node) ∈ entries ∧ node.HasFile names := by
  constructor
  · rintro ⟨file, hat, hfile⟩
    obtain ⟨entries', child, he, hl, hrest⟩ := exists_directory_of_at? hat
    cases he
    exact ⟨child, h.lookup_eq_some_iff.mp hl, file, hrest, hfile⟩
  · rintro ⟨child, hm, file, hat, hfile⟩
    exact ⟨file, by rw [Node.at?, h.lookup_eq_some_iff.mpr hm]; exact hat, hfile⟩

theorem mem_fileNames_iff (h : root.IsWellNamed) : names ∈ root.fileNames ↔ root.HasFile names := by
  induction root using induction generalizing names with
  | leaf node hleaf =>
    rw [fileNames_leaf hleaf]
    cases names with
    | nil => simp [HasFile, Node.at?]
    | cons name names =>
      have hnone : ¬node.HasFile (name :: names) := by
        rintro ⟨file, hat, -⟩
        obtain ⟨entries, -, rfl, -, -⟩ := exists_directory_of_at? hat
        exact hleaf entries rfl
      simp only [hnone, iff_false]
      split <;> simp
  | directory entries ih =>
    rw [fileNames_directory, List.mem_flatMap]
    cases names with
    | nil => simp [HasFile, Node.at?, isFile]
    | cons name names =>
      rw [hasFile_cons_iff h]
      constructor
      · rintro ⟨⟨other, node⟩, hm, hn⟩
        obtain ⟨below, hb, he⟩ := List.mem_map.mp hn
        obtain ⟨rfl, rfl⟩ := List.cons.inj he
        have hentry := mem_sortByName.mp hm
        exact ⟨node, hentry, (ih _ hentry (h.entry hentry)).mp hb⟩
      · rintro ⟨node, hm, hn⟩
        exact ⟨(name, node), mem_sortByName.mpr hm,
          List.mem_map_of_mem ((ih _ hm (h.entry hm)).mpr hn)⟩

/-- Depth first with siblings in order is increasing order, name by name. -/
theorem pairwise_fileNames (h : root.IsWellNamed) : root.fileNames.Pairwise (· < ·) := by
  induction root using induction with
  | leaf node hleaf =>
    rw [fileNames_leaf hleaf]
    split <;> simp
  | directory entries ih =>
    rw [fileNames_directory, List.pairwise_flatMap]
    constructor
    · intro entry hm
      have hentry := mem_sortByName.mp hm
      rw [List.pairwise_map]
      exact (ih entry hentry (h.entry hentry)).imp fun hlt =>
        List.cons_lt_cons_iff.mpr (.inr ⟨rfl, hlt⟩)
    · refine (pairwise_sortByName (h.distinct (at?_nil _))).imp fun {a b} hab => ?_
      intro x hx y hy
      obtain ⟨below, -, rfl⟩ := List.mem_map.mp hx
      obtain ⟨below', -, rfl⟩ := List.mem_map.mp hy
      exact List.cons_lt_cons_iff.mpr (.inl hab)

/-! ## Walking -/

theorem Opens.short (h : (directory entries).Opens p) : byteLength p.text.toList < pathLimit :=
  (h [] _ rfl rfl).2

theorem Opens.entry (h : (directory entries).Opens p) (hn : (directory entries).IsWellNamed)
    {entry : String × Node} (hm : entry ∈ entries) : entry.2.Opens (p.joinText entry.1) :=
  ((everywhere_directory hn).mp h).2 entry hm

end Node

namespace Walk

open Node

variable {root : Path} {front back : Walk} {found more : List (String × Path)}

theorem files_append (hfront : files root front = .ok found) (hback : files root back = .ok more) :
    files root (front ++ back) = .ok (found ++ more) := by
  induction front generalizing found with
  | nil =>
    obtain rfl : [] = found := Except.ok.inj hfront
    exact hback
  | cons step rest ih =>
    cases step with
    | error e => cases hfront
    | ok visit =>
      rw [List.cons_append]
      unfold files at hfront ⊢
      split at hfront
      · next hk => rw [if_pos hk]; exact ih hfront
      · next hk =>
        rw [if_neg hk]
        split at hfront
        · next hr => exact ih hfront
        · next name hr =>
          cases ho : files root rest with
          | error e =>
            rw [ho] at hfront
            cases hfront
          | ok others =>
            rw [ho] at hfront
            obtain rfl := Except.ok.inj hfront
            rw [ih ho]
            rfl

theorem files_flatMap {α : Type} {parts : List α} {walk : α → Walk}
    {found : α → List (String × Path)}
    (h : ∀ part ∈ parts, files root (walk part) = .ok (found part)) :
    files root (parts.flatMap walk) = .ok (parts.flatMap found) := by
  induction parts with
  | nil => rfl
  | cons part rest ih =>
    exact files_append (h part List.mem_cons_self) (ih fun p hm => h p (List.mem_cons_of_mem _ hm))

theorem exists_files_eq_error {walk : Walk} {e : ReadError} (h : .error e ∈ walk) :
    ∃ e', files root walk = .error e' := by
  induction walk with
  | nil => cases h
  | cons step rest ih =>
    cases step with
    | error e' => exact ⟨e', rfl⟩
    | ok visit =>
      obtain ⟨e', he⟩ := ih (by simpa using h)
      unfold files
      split
      · exact ⟨e', he⟩
      · split
        · exact ⟨e', he⟩
        · rw [he]
          exact ⟨e', rfl⟩

end Walk

/-- How a file below `p` is listed. -/
def listed (p : Path) (names : List String) : String × Path :=
  ("/".intercalate names, p.descend names)

namespace Node

variable {p : Path} {root node : Node} {names front : List String} {entries : List (String × Node)}

theorem display_ofNames (h : ∀ name ∈ names, IsPlainName name) :
    (ofNames false names).display = "/".intercalate names := by
  have hb : '\\' ∉ (ofNames false names).text.toList :=
    notMem_ofNames false (by decide) fun name hm => (h name hm).noBackslash
  rw [display, forwardSlashes_eq_self hb]
  simp [ofNames]

theorem files_cons_of_ne {visit : Visit} (h : visit.kind ≠ .file) (root : Path) (walk : Walk) :
    Walk.files root (.ok visit :: walk) = Walk.files root walk := by
  rw [Walk.files, if_pos h]

/-- By induction on the tree: what a walk finds in a directory is what it finds in the entries. -/
theorem files_visits (hp : p.text ≠ "") (front : List String)
    (hfront : ∀ name ∈ front, IsPlainName name)
    (hne : front ≠ [] ∨ node.isDirectory = true) (hn : node.IsWellNamed)
    (ho : node.Opens (p.descend front)) :
    Walk.files p (node.visits (p.descend front)) =
      .ok (node.fileNames.map fun names => listed p (front ++ names)) := by
  induction node using induction generalizing front with
  | leaf node hleaf =>
    have hfile (hf : node.isDirectory = false) :
        Walk.files p [.ok ⟨p.descend front, .file⟩] = .ok [listed p (front ++ [])] := by
      have hrelative := relativeTo?_descend hp (hne.resolve_right (by simp [hf]))
        fun name hm => (hfront name hm).isName
      simp only [Walk.files, hrelative, display_ofNames hfront, List.append_nil]
      rfl
    cases node with
    | directory entries => exact absurd rfl (hleaf entries)
    | lockedDirectory =>
      obtain ⟨⟨entries, he⟩, -⟩ := ho [] _ rfl rfl
      cases he
    | file content => exact hfile rfl
    | lockedFile => exact hfile rfl
    | link target => rfl
    | socket => rfl
  | directory entries ih =>
    rw [visits, files_cons_of_ne (by simp [kind]), visitsBelow_directory ho.short,
      fileNames_directory, List.map_flatMap]
    refine Walk.files_flatMap fun entry hm => ?_
    have hentry := mem_sortByName.mp hm
    have hdescend : (p.descend front).joinText entry.1 = p.descend (front ++ [entry.1]) := by
      simp [descend]
    have hplain : ∀ name ∈ front ++ [entry.1], IsPlainName name :=
      List.forall_mem_append.mpr ⟨hfront, by simpa using hn.plain (at?_nil _) entry hentry⟩
    have hopens := ho.entry hn hentry
    rw [hdescend] at hopens ⊢
    rw [ih entry hentry _ hplain (.inl (by simp)) (hn.entry hentry) hopens, List.map_map]
    congr 2
    funext names
    simp

/-- A directory that cannot be opened leaves an error in the walk. By induction on the names that
lead to it. -/
theorem exists_error_of_closed (hn : root.IsWellNamed) (hat : root.at? names = some node)
    (hdir : node.isDirectory = true)
    (hclosed : (∃ entries, node = directory entries) →
      pathLimit ≤ byteLength (p.descend names).text.toList) :
    ∃ e, .error e ∈ root.visitsBelow p := by
  induction names generalizing root p with
  | nil =>
    obtain rfl : root = node := Option.some.inj hat
    cases root with
    | directory entries =>
      have hlong : pathLimit ≤ byteLength p.text.toList := hclosed ⟨entries, rfl⟩
      rw [visitsBelow_of_long hlong]
      exact ⟨_, List.mem_singleton_self _⟩
    | lockedDirectory => exact ⟨_, List.mem_singleton_self _⟩
    | _ => cases hdir
  | cons name names ih =>
    obtain ⟨entries, child, rfl, hl, hrest⟩ := exists_directory_of_at? hat
    have hm := hn.lookup_eq_some_iff.mp hl
    by_cases hshort : byteLength p.text.toList < pathLimit
    · obtain ⟨e, he⟩ := ih (hn.entry hm) hrest hclosed
      refine ⟨e, ?_⟩
      rw [visitsBelow_directory hshort, List.mem_flatMap]
      exact ⟨(name, child), mem_sortByName.mpr hm, List.mem_cons_of_mem _ he⟩
    · rw [visitsBelow_of_long (not_lt.mp hshort)]
      exact ⟨_, List.mem_singleton_self _⟩

theorem exists_error_of_not_opens (hn : root.IsWellNamed) (ho : ¬root.Opens p) :
    ∃ e, .error e ∈ root.visitsBelow p := by
  unfold Opens Everywhere at ho
  push Not at ho
  obtain ⟨names, node, hat, hdir, hclosed⟩ := ho
  exact exists_error_of_closed hn hat hdir hclosed

end Node

end ModuleLoader
