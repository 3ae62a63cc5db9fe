import ModuleLoader.Proofs.Resolve.Sound

/-! What a lookup says of the `package.json` in the source, with a new cache or after any history. -/

namespace ModuleLoader

namespace FileSource

variable (source : FileSource Id)

/-- The members of a file that can be read as a JSON object. -/
def object? (file : Path) : Option (Members Json) :=
  match Id.run (source.read file) with
  | .error _ => none
  | .ok bytes =>
    match Json.parse (Text.readLossy bytes) with
    | .ok (.object members) => some members
    | _ => none

/-- The members of a directory's `package.json`, if there is one that is an object. -/
def manifest? (dir : Path) : Option (Members Json) :=
  if Id.run (source.existsFile (dir.joinText manifestName)) = true then
    source.object? (dir.joinText manifestName)
  else none

/-- The `main` of a directory, if that is a string which is not empty. -/
def main? (dir : Path) : Option String :=
  match (source.manifest? dir).bind (·.get? "main") with
  | some (.string main) => if main = "" then none else some main
  | _ => none

/-- The `exports` of a directory, if they are not null. -/
def exports? (dir : Path) : Option Json :=
  ((source.manifest? dir).bind (·.get? "exports")).filter (!·.isNull)

variable {source}

theorem RespectsPaths.object?_eq (hr : source.RespectsPaths) {p q : Path}
    (hc : p.components = q.components) : source.object? p = source.object? q := by
  have hread : Except.toOption (Id.run (source.read p)) =
      Except.toOption (Id.run (source.read q)) := hr.read hc
  unfold object?
  generalize Id.run (source.read p) = a at hread ⊢
  generalize Id.run (source.read q) = b at hread ⊢
  cases a with
  | error e =>
    cases b with
    | error f => rfl
    | ok bytes => cases hread
  | ok bytes =>
    cases b with
    | error f => cases hread
    | ok bytes' =>
      obtain rfl : bytes = bytes' := Option.some.inj hread
      rfl

theorem RespectsPaths.manifest?_eq (hr : source.RespectsPaths) {p q : Path}
    (hc : p.components = q.components) : source.manifest? p = source.manifest? q := by
  have hm := Path.joinText_congr hc manifestName
  rw [manifest?, manifest?, hr.existsFile hm, hr.object?_eq hm]

theorem main?_congr {source' : FileSource Id} {p q : Path}
    (h : source.manifest? p = source'.manifest? q) : source.main? p = source'.main? q := by
  rw [main?, main?, h]

theorem exports?_congr {source' : FileSource Id} {p q : Path}
    (h : source.manifest? p = source'.manifest? q) : source.exports? p = source'.exports? q := by
  rw [exports?, exports?, h]

end FileSource

namespace PackageLookup

variable (source : FileSource Id) (dir : Path)

def main? (lookup : PackageLookup) : Option String := lookup.descriptor?.bind PackageDescriptor.main

def exports? (lookup : PackageLookup) : Option Json :=
  lookup.descriptor?.bind PackageDescriptor.exports

theorem descriptor?_ofRead (file : Path) : (ofRead dir (Id.run (source.read file))).descriptor? =
    (source.object? file).bind fun members => PackageDescriptor.ofJson? dir (.object members) := by
  unfold FileSource.object?
  cases Id.run (source.read file) with
  | error e => rfl
  | ok bytes =>
    dsimp only
    rw [ofRead, ofText]
    cases Json.parse (Text.readLossy bytes) with
    | error e => rfl
    | ok value => cases value <;> rfl

theorem descriptor?_read : (read source dir).descriptor? =
    (source.manifest? dir).bind fun members => PackageDescriptor.ofJson? dir (.object members) := by
  rw [read_eq_ite, FileSource.manifest?]
  split
  · exact descriptor?_ofRead source dir _
  · rfl

theorem main?_read : (read source dir).main? = source.main? dir := by
  rw [main?, descriptor?_read, FileSource.main?]
  cases source.manifest? dir with
  | none => rfl
  | some members =>
    have hm : (PackageDescriptor.ofJson? dir (.object members)).bind PackageDescriptor.main =
        ((members.get? "main").bind Json.string?).filter (· ≠ "") := rfl
    rw [Option.bind_some, Option.bind_some, hm]
    cases members.get? "main" with
    | none => rfl
    | some value =>
      cases value
      case string main => by_cases h : main = "" <;> simp [Json.string?, Option.filter, h]
      all_goals rfl

theorem exports?_read : (read source dir).exports? = source.exports? dir := by
  rw [exports?, descriptor?_read, FileSource.exports?]
  cases source.manifest? dir <;> rfl

end PackageLookup

namespace PackageCache

variable {r : Resolver Id} {history : List Query}

/-- The cache of a resolver that was asked some queries. -/
def after (r : Resolver Id) (history : List Query) : PackageCache :=
  ((r.replay history).run PackageCache.empty).2

/-- The lookup of a directory with a given cache. -/
def lookup (source : FileSource Id) (packages : PackageCache) (dir : Path) : PackageLookup :=
  ((load source dir).run packages).1

theorem lookup_eq (source : FileSource Id) (packages : PackageCache) (dir : Path) :
    packages.lookup source dir = (packages.find? dir).getD (PackageLookup.read source dir) := by
  unfold lookup
  cases h : packages.find? dir with
  | some found => rw [run_load_of_eq_some source h]; rfl
  | none => rw [run_load_of_eq_none source h]; rfl

theorem lookup_empty (source : FileSource Id) (dir : Path) :
    lookup source empty dir = PackageLookup.read source dir := lookup_eq source empty dir

/-- Lookups of a directory are those of one with the same manifest. Only spellings may differ. -/
theorem exists_lookup_after (h : history = [] ∨ r.source.RespectsPaths) (dir : Path) :
    ∃ q, r.source.manifest? q = r.source.manifest? dir ∧
      lookup r.source (after r history) dir = PackageLookup.read r.source q := by
  rcases h with rfl | hr
  · exact ⟨dir, rfl, lookup_empty r.source dir⟩
  · obtain ⟨⟨q, hq, hread⟩, -⟩ := (Resolver.faithful_replay hr history).load dir
    exact ⟨q, hr.manifest?_eq hq, hread⟩

theorem main?_lookup_after (h : history = [] ∨ r.source.RespectsPaths) (dir : Path) :
    (lookup r.source (after r history) dir).main? = r.source.main? dir := by
  obtain ⟨q, hq, hl⟩ := exists_lookup_after h dir
  rw [hl, PackageLookup.main?_read]
  exact FileSource.main?_congr hq

theorem exports?_lookup_after (h : history = [] ∨ r.source.RespectsPaths) (dir : Path) :
    (lookup r.source (after r history) dir).exports? = r.source.exports? dir := by
  obtain ⟨q, hq, hl⟩ := exists_lookup_after h dir
  rw [hl, PackageLookup.exports?_read]
  exact FileSource.exports?_congr hq

end PackageCache

end ModuleLoader
