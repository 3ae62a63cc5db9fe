import ModuleLoader.Path

/-! Maps keyed by what a path means, so that all spellings of a path share one entry. An entry keeps
the spelling that it was first made with. -/

namespace ModuleLoader

theorem Path.same_iff {p q : Path} : p.same q = true ↔ p.components = q.components := by
  simp [Path.same]

theorem Path.same_self (p : Path) : p.same p = true := by simp [Path.same]

structure PathMap (α : Type) where
  entries : List (Path × α)

namespace PathMap

variable {α : Type}

def empty : PathMap α := ⟨[]⟩

def find? (m : PathMap α) (p : Path) : Option α :=
  (m.entries.find? fun entry => entry.1.same p).map Prod.snd

def contains (m : PathMap α) (p : Path) : Bool := (m.find? p).isSome

def size (m : PathMap α) : Nat := m.entries.length

def values (m : PathMap α) : List α := m.entries.map Prod.snd

def insertEntry (p : Path) (value : α) : List (Path × α) → List (Path × α)
  | [] => [(p, value)]
  | (q, v) :: rest => if q.same p then (q, value) :: rest else (q, v) :: insertEntry p value rest

def insert (m : PathMap α) (p : Path) (value : α) : PathMap α := ⟨insertEntry p value m.entries⟩

/-- The map with an entry added behind the others. Of two entries for a path the first counts. -/
def push (m : PathMap α) (p : Path) (value : α) : PathMap α := ⟨m.entries ++ [(p, value)]⟩

def erase (m : PathMap α) (p : Path) : PathMap α := ⟨m.entries.filter fun entry => !entry.1.same p⟩

theorem find?_insertEntry_self (p : Path) (value : α) (es : List (Path × α)) :
    ((insertEntry p value es).find? fun entry => entry.1.same p).map Prod.snd = some value := by
  induction es with
  | nil => simp [insertEntry, Path.same_self]
  | cons e es ih =>
    obtain ⟨q, v⟩ := e
    cases h : q.same p with
    | true => simp [insertEntry, h]
    | false => simpa [insertEntry, h] using ih

theorem find?_insert_self (m : PathMap α) (p : Path) (value : α) :
    (m.insert p value).find? p = some value :=
  find?_insertEntry_self p value m.entries

theorem find?_insertEntry_of_not_same {p q : Path} (hpq : p.same q = false) (value : α)
    (es : List (Path × α)) :
    ((insertEntry p value es).find? fun entry => entry.1.same q).map Prod.snd =
      (es.find? fun entry => entry.1.same q).map Prod.snd := by
  induction es with
  | nil => simp [insertEntry, hpq]
  | cons e es ih =>
    obtain ⟨r, v⟩ := e
    cases h : r.same p with
    | true =>
      have hrq : r.same q = false := by
        have hc := Path.same_iff.1 h
        simpa [Path.same, hc] using hpq
      simp [insertEntry, h, hrq]
    | false =>
      cases hq : r.same q with
      | true => simp [insertEntry, h, hq]
      | false => simpa [insertEntry, h, hq] using ih

/-- An insertion is seen at the spellings of its own path only. -/
theorem find?_insert_of_not_same (m : PathMap α) {p q : Path} (h : p.same q = false) (value : α) :
    (m.insert p value).find? q = m.find? q :=
  find?_insertEntry_of_not_same h value m.entries

end PathMap

end ModuleLoader
