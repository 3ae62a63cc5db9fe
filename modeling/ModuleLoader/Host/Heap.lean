import ModuleLoader.Host.Value

/-! The objects of scripts and their properties. Objects are never taken away, so a place once given
out stays that of its object. -/

namespace ModuleLoader

structure HeapObject where
  kind : ObjectKind
  properties : Members Value

structure Heap where
  objects : Array HeapObject

namespace Heap

def globalId : ObjectId := 0

def globalObject : Value := .object globalId

def initial : Heap := ⟨#[⟨.plain, Members.empty⟩]⟩

def size (heap : Heap) : Nat := heap.objects.size

def find? (heap : Heap) (id : ObjectId) : Option HeapObject := heap.objects[id]?

def kind? (heap : Heap) : Value → Option ObjectKind
  | .object id => (heap.find? id).map HeapObject.kind
  | _ => none

def allocate (heap : Heap) (kind : ObjectKind) : Value × Heap :=
  (.object heap.size, ⟨heap.objects.push ⟨kind, Members.empty⟩⟩)

/-- A property of an object. A missing property, like any property of a value that is no object, is
undefined. -/
def get (heap : Heap) (value : Value) (name : String) : Value :=
  match value with
  | .object id => ((heap.find? id).bind (·.properties.get? name)).getD .undefined
  | _ => .undefined

/-- The heap with a property of an object set. Values that are no objects have none to set. -/
def set (heap : Heap) (value : Value) (name : String) (property : Value) : Heap :=
  match value with
  | .object id =>
    ⟨heap.objects.modify id fun o => { o with properties := o.properties.insert name property }⟩
  | _ => heap

def setAll (heap : Heap) (value : Value) (properties : List (String × Value)) : Heap :=
  properties.foldl (fun heap (name, property) => heap.set value name property) heap

def allocateWith (heap : Heap) (kind : ObjectKind) (properties : List (String × Value)) :
    Value × Heap :=
  let (value, heap) := heap.allocate kind
  (value, heap.setAll value properties)

mutual

/-- The value that a JSON tree stands for. Arrays are objects with their positions as names. -/
def ofJson (heap : Heap) : Json → Value × Heap
  | .null => (.undefined, heap)
  | .bool b => (.bool b, heap)
  | .number x => (.number x, heap)
  | .string s => (.string s, heap)
  | .array items =>
    let (properties, heap) := ofItems heap 0 items
    heap.allocateWith .plain properties
  | .object ⟨entries⟩ =>
    let (properties, heap) := ofMembers heap entries
    heap.allocateWith .plain properties

def ofItems (heap : Heap) (position : Nat) : List Json → List (String × Value) × Heap
  | [] => ([], heap)
  | item :: rest =>
    let (value, heap) := ofJson heap item
    let (properties, heap) := ofItems heap (position + 1) rest
    ((toString position, value) :: properties, heap)

def ofMembers (heap : Heap) : List (String × Json) → List (String × Value) × Heap
  | [] => ([], heap)
  | (name, item) :: rest =>
    let (value, heap) := ofJson heap item
    let (properties, heap) := ofMembers heap rest
    ((name, value) :: properties, heap)

end

end Heap

/-- How often each object is pinned by the host. A count below zero would be one release too
many. -/
structure Pins where
  counts : List (ObjectId × Int)

namespace Pins

def none : Pins := ⟨[]⟩

def count (pins : Pins) (id : ObjectId) : Int := (pins.counts.lookup id).getD 0

def adjustEntry (id : ObjectId) (change : Int) : List (ObjectId × Int) → List (ObjectId × Int)
  | [] => [(id, change)]
  | (i, n) :: rest => if i = id then (i, n + change) :: rest else (i, n) :: adjustEntry id change rest

/-- The counts after pinning or releasing a value. Only objects are counted. -/
def adjust (pins : Pins) (change : Int) : Value → Pins
  | .object id => ⟨adjustEntry id change pins.counts⟩
  | _ => pins

def protect (pins : Pins) (value : Value) : Pins := pins.adjust 1 value

def release (pins : Pins) (value : Value) : Pins := pins.adjust (-1) value

def total (pins : Pins) : Int := pins.counts.foldr (fun entry sum => entry.2 + sum) 0

theorem count_adjust_object (pins : Pins) (change : Int) (id other : ObjectId) :
    (pins.adjust change (.object id)).count other =
      pins.count other + if other = id then change else 0 := by
  obtain ⟨counts⟩ := pins
  simp only [adjust, count]
  induction counts with
  | nil =>
    by_cases h : other = id
    · simp [adjustEntry, h]
    · have h' : (other == id) = false := by simpa using h
      simp [adjustEntry, List.lookup_cons, h, h']
  | cons e rest ih =>
    obtain ⟨i, n⟩ := e
    by_cases hi : i = id
    · subst hi
      by_cases h : other = i
      · simp [adjustEntry, h]
      · have h' : (other == i) = false := by simpa using h
        simp [adjustEntry, List.lookup_cons, h, h']
    · by_cases h : other = i
      · subst h
        simp [adjustEntry, hi]
      · have h' : (other == i) = false := by simpa using h
        simpa [adjustEntry, hi, List.lookup_cons, h'] using ih

end Pins

end ModuleLoader
