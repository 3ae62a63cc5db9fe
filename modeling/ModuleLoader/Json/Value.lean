import ModuleLoader.Decimal.Binary64

/-! JSON trees. An object's members keep the order in which their keys first appeared, and a key
that comes again replaces the value in place. -/

namespace ModuleLoader

/-- Keyed values in the order of first insertion. -/
structure Members (α : Type) where
  entries : List (String × α)

inductive Json where
  | null
  | bool (value : Bool)
  | number (value : Binary64)
  | string (value : String)
  | array (items : List Json)
  | object (members : Members Json)

namespace Members

variable {α : Type}

def empty : Members α := ⟨[]⟩

instance : Inhabited (Members α) := ⟨empty⟩

def insertEntry (key : String) (value : α) : List (String × α) → List (String × α)
  | [] => [(key, value)]
  | (k, v) :: rest => if k = key then (k, value) :: rest else (k, v) :: insertEntry key value rest

def insert (m : Members α) (key : String) (value : α) : Members α :=
  ⟨insertEntry key value m.entries⟩

def get? (m : Members α) (key : String) : Option α := m.entries.lookup key

def contains (m : Members α) (key : String) : Bool := (m.get? key).isSome

def keys (m : Members α) : List String := m.entries.map Prod.fst

def size (m : Members α) : Nat := m.entries.length

def position? (m : Members α) (key : String) : Option Nat :=
  m.keys.findIdx? (· == key)

/-- The object that inserting the pairs one by one builds. -/
def ofList (pairs : List (String × α)) : Members α :=
  pairs.foldl (fun m (k, v) => m.insert k v) empty

theorem lookup_insertEntry_self (key : String) (value : α) (es : List (String × α)) :
    (insertEntry key value es).lookup key = some value := by
  induction es with
  | nil => simp [insertEntry]
  | cons e es ih =>
    obtain ⟨k, v⟩ := e
    by_cases h : k = key
    · simp [insertEntry, h]
    · have h' : (key == k) = false := by simpa using fun e => h e.symm
      simp [insertEntry, h, List.lookup_cons, h', ih]

theorem lookup_insertEntry_of_ne {key other : String} (hne : other ≠ key) (value : α)
    (es : List (String × α)) : (insertEntry key value es).lookup other = es.lookup other := by
  induction es with
  | nil =>
    have h : (other == key) = false := by simpa using hne
    simp [insertEntry, List.lookup_cons, h]
  | cons e es ih =>
    obtain ⟨k, v⟩ := e
    by_cases h : k = key
    · subst h
      have h' : (other == k) = false := by simpa using hne
      simp [insertEntry, List.lookup_cons, h']
    · simp [insertEntry, h, List.lookup_cons, ih]

theorem get?_insert_self (m : Members α) (key : String) (value : α) :
    (m.insert key value).get? key = some value :=
  lookup_insertEntry_self key value m.entries

theorem get?_insert_of_ne (m : Members α) {key other : String} (hne : other ≠ key) (value : α) :
    (m.insert key value).get? other = m.get? other :=
  lookup_insertEntry_of_ne hne value m.entries

end Members

namespace Json

def kind : Json → String
  | null => "null"
  | bool _ => "boolean"
  | number _ => "number"
  | string _ => "string"
  | array _ => "array"
  | object _ => "object"

def isNull : Json → Bool
  | null => true
  | _ => false

def string? : Json → Option String
  | string s => some s
  | _ => none

def bool? : Json → Option Bool
  | bool b => some b
  | _ => none

def number? : Json → Option Binary64
  | number x => some x
  | _ => none

def array? : Json → Option (List Json)
  | array items => some items
  | _ => none

def object? : Json → Option (Members Json)
  | object members => some members
  | _ => none

def get? (v : Json) (key : String) : Option Json := v.object?.bind (·.get? key)

end Json

end ModuleLoader
