import ModuleLoader.Host.Heap

/-! Snapshots: what a value looks like at one moment, as a finite tree. -/

namespace ModuleLoader

inductive Snapshot where
  | undefined
  | bool (value : Bool)
  | number (value : Binary64)
  | string (value : String)
  | object (kind : ObjectKind) (properties : List (String × Snapshot))
  /-- The object that lies the given number of levels further out than the innermost one. -/
  | circular (level : Nat)

namespace Snapshot

/-- The tree of a value inside the objects `around` it, innermost first. Since these are distinct
objects of the heap, `fuel` need not exceed their possible number. -/
def within (heap : Heap) : Nat → List ObjectId → Value → Snapshot
  | _, _, .undefined => .undefined
  | _, _, .bool b => .bool b
  | _, _, .number x => .number x
  | _, _, .string s => .string s
  | 0, _, .object _ => .undefined
  | fuel + 1, around, .object id =>
    match around.findIdx? (· == id), heap.find? id with
    | some level, _ => .circular level
    | none, some o =>
      .object o.kind
        (o.properties.entries.map fun (name, value) => (name, within heap fuel (id :: around) value))
    | none, none => .undefined

def ofValue (heap : Heap) (value : Value) : Snapshot := within heap (heap.size + 1) [] value

end Snapshot

end ModuleLoader
