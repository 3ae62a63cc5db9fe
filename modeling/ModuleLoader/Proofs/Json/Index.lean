import Mathlib.Data.Finset.Card
import Mathlib.Data.Finset.Dedup
import Mathlib.Data.List.Nodup
import ModuleLoader.Proofs.Json.Members

/-! Members with an index. An object that looks its keys up in an index of positions, and keeps the
two in step when a value is replaced in place, is at every moment the object that its entries spell. -/

namespace ModuleLoader.Members

variable {α : Type}

/-- Entries in order, and for each key the position of its entry. -/
structure Indexed (α : Type) where
  entries : Array (String × α)
  index : Std.HashMap String Nat

/-- A position at which no entry stands. -/
structure OutOfRange where
  position : Nat

namespace Indexed

def empty : Indexed α := ⟨#[], ∅⟩

/-- The entry at a position that the index gives. -/
def entryAt (o : Indexed α) (i : Nat) : Except OutOfRange (String × α) :=
  match o.entries[i]? with
  | some entry => .ok entry
  | none => .error ⟨i⟩

/-- A key of the index has its value replaced where it stands, any other key is put behind all
entries. -/
def insert (o : Indexed α) (key : String) (value : α) : Except OutOfRange (Indexed α) :=
  match o.index[key]? with
  | some i => (o.entryAt i).map fun entry => ⟨o.entries.setIfInBounds i (entry.1, value), o.index⟩
  | none => .ok ⟨o.entries.push (key, value), o.index.insert key o.entries.size⟩

def get (o : Indexed α) (key : String) : Except OutOfRange (Option α) :=
  match o.index[key]? with
  | some i => (o.entryAt i).map fun entry => some entry.2
  | none => .ok none

def contains (o : Indexed α) (key : String) : Bool := o.index.contains key

def keys (o : Indexed α) : List String := o.entries.toList.map Prod.fst

def size (o : Indexed α) : Nat := o.entries.size

/-- The object that inserting the pairs one by one builds. -/
def ofList (pairs : List (String × α)) : Except OutOfRange (Indexed α) :=
  pairs.foldlM (fun o (key, value) => o.insert key value) empty

def toMembers (o : Indexed α) : Members α := ⟨o.entries.toList⟩

end Indexed

theorem position?_eq_some_iff {m : Members α} (hn : m.keys.Nodup) {key : String} {i : Nat} :
    m.position? key = some i ↔ m.keys[i]? = some key := by
  rw [position?, List.findIdx?_eq_some_iff_getElem, List.getElem?_eq_some_iff]
  constructor
  · rintro ⟨hi, hk, -⟩
    exact ⟨hi, by simpa using hk⟩
  · rintro ⟨hi, hk⟩
    refine ⟨hi, by simpa using hk, fun j hj => ?_⟩
    have hne : m.keys[j] ≠ m.keys[i] := fun he => by
      have := (List.Nodup.getElem_inj_iff hn).mp he
      omega
    simpa [hk] using hne

/-- The value of a key that stands at one position is replaced there. -/
theorem insertEntry_of_getElem? {es : List (String × α)} (hn : (es.map Prod.fst).Nodup) {i : Nat}
    {key : String} (hi : (es.map Prod.fst)[i]? = some key) (value : α) :
    insertEntry key value es = es.set i (key, value) := by
  induction es generalizing i with
  | nil => simp at hi
  | cons e es ih =>
    obtain ⟨k, v⟩ := e
    rw [List.map_cons, List.nodup_cons] at hn
    cases i with
    | zero =>
      obtain rfl : k = key := by simpa using hi
      simp [insertEntry]
    | succ i =>
      have hi' : (es.map Prod.fst)[i]? = some key := by simpa using hi
      have hk : k ≠ key := by
        rintro rfl
        exact hn.1 (List.mem_of_getElem? hi')
      rw [insertEntry, if_neg hk, ih hn.2 hi', List.set_cons_succ]

theorem get?_ofList_eq_some_iff {pairs : List (String × α)} {key : String} {value : α} :
    (ofList pairs).get? key = some value ↔
      ∃ front back, pairs = front ++ (key, value) :: back ∧ key ∉ back.map Prod.fst := by
  rw [get?_ofList, List.lookup_eq_some_iff]
  constructor
  · rintro ⟨back, front, he, hb⟩
    refine ⟨front.reverse, back.reverse, by simpa using congrArg List.reverse he, fun hm => ?_⟩
    obtain ⟨pair, hp, hkey⟩ := List.mem_map.mp hm
    simpa [hkey] using hb pair (List.mem_reverse.mp hp)
  · rintro ⟨front, back, rfl, hb⟩
    refine ⟨back.reverse, front.reverse, by simp, fun pair hp => ?_⟩
    have hne : key ≠ pair.1 := by
      rintro rfl
      exact hb (List.mem_map_of_mem (List.mem_reverse.mp hp))
    simpa using hne

theorem size_ofList (pairs : List (String × α)) :
    (ofList pairs).size = (pairs.map Prod.fst).toFinset.card := by
  have hset : (ofList pairs).keys.toFinset = (pairs.map Prod.fst).toFinset := by
    ext key
    simp only [List.mem_toFinset, keys_ofList, List.mem_eraseDups]
  rw [← hset, List.toFinset_card_of_nodup (nodup_keys_ofList pairs), keys, List.length_map, size]

/-- One more element is found at its own position, behind all others. -/
theorem getElem?_concat_eq_some_iff {l : List String} {a b : String} {i : Nat} :
    (l ++ [a])[i]? = some b ↔ l[i]? = some b ∨ i = l.length ∧ a = b := by
  rw [List.getElem?_append]
  by_cases hi : i < l.length
  · have hne : i ≠ l.length := by omega
    simp [hi, hne]
  · have hnone : l[i]? = none := List.getElem?_eq_none (by omega)
    rw [if_neg hi, hnone, List.getElem?_singleton]
    by_cases he : i = l.length
    · simp [he]
    · have hpos : i - l.length ≠ 0 := by omega
      simp [he, hpos]

/-! ## Objects whose index is in step -/

namespace Indexed

variable {o : Indexed α} {key : String} {i : Nat}

/-- Whether the index gives a key the position of its entry, and no other key a position. -/
def InStep (o : Indexed α) : Prop :=
  ∀ (key : String) (i : Nat), o.index[key]? = some i ↔ o.keys[i]? = some key

theorem keys_toMembers (o : Indexed α) : o.toMembers.keys = o.keys := rfl

theorem inStep_empty : InStep (empty : Indexed α) := fun key i => by simp [empty, keys]

/-- A key has one position, so none is repeated. -/
theorem InStep.nodup_keys (h : o.InStep) : o.keys.Nodup := by
  rw [List.nodup_iff_getElem?_ne_getElem?]
  intro i j hij hj he
  obtain ⟨key, hk⟩ : ∃ key, o.keys[j]? = some key := ⟨_, List.getElem?_eq_getElem hj⟩
  have hi := (h key i).mpr (he.trans hk)
  have hj := (h key j).mpr hk
  have : i = j := Option.some.inj (hi.symm.trans hj)
  omega

theorem InStep.notMem_of_none (h : o.InStep) (hk : o.index[key]? = none) : key ∉ o.keys := by
  intro hm
  obtain ⟨i, hi⟩ := List.mem_iff_getElem?.mp hm
  rw [(h key i).mpr hi] at hk
  cases hk

/-- A position of the index is in range, and the entry that stands there has the key. -/
theorem InStep.entryAt_eq (h : o.InStep) (hk : o.index[key]? = some i) :
    ∃ value, o.entryAt i = .ok (key, value) ∧ o.entries.toList[i]? = some (key, value) := by
  have hi := (h key i).mp hk
  rw [keys, List.getElem?_map, Option.map_eq_some_iff] at hi
  obtain ⟨⟨k, value⟩, he, rfl⟩ := hi
  refine ⟨value, ?_, he⟩
  rw [Array.getElem?_toList] at he
  rw [entryAt, he]

theorem InStep.insert (h : o.InStep) (key : String) (value : α) :
    ∃ o', o.insert key value = .ok o' ∧ o'.InStep ∧ o'.toMembers = o.toMembers.insert key value := by
  cases hk : o.index[key]? with
  | some i =>
    obtain ⟨old, hentry, -⟩ := h.entryAt_eq hk
    have hset : insertEntry key value o.entries.toList = o.entries.toList.set i (key, value) :=
      insertEntry_of_getElem? h.nodup_keys ((h key i).mp hk) value
    have hmembers : (⟨o.entries.setIfInBounds i (key, value), o.index⟩ : Indexed α).toMembers =
        o.toMembers.insert key value := by
      rw [toMembers, Array.toList_setIfInBounds, Members.insert, toMembers, hset]
    refine ⟨⟨o.entries.setIfInBounds i (key, value), o.index⟩, ?_, ?_, hmembers⟩
    · simp [Indexed.insert, hk, hentry, Except.map]
    · have hkeys := keys_insert o.toMembers key value
      rw [← hmembers, keys_toMembers, keys_toMembers,
        if_pos (List.mem_of_getElem? ((h key i).mp hk))] at hkeys
      intro k j
      rw [hkeys]
      exact h k j
  | none =>
    have hnot := h.notMem_of_none hk
    refine ⟨⟨o.entries.push (key, value), o.index.insert key o.entries.size⟩, ?_, ?_, ?_⟩
    · simp [Indexed.insert, hk]
    · have hkeys : (⟨o.entries.push (key, value), o.index.insert key o.entries.size⟩ :
          Indexed α).keys = o.keys ++ [key] := by simp [keys]
      have hsize : o.entries.size = o.keys.length := by simp [keys]
      intro k j
      rw [hkeys, Std.HashMap.getElem?_insert, hsize, getElem?_concat_eq_some_iff]
      by_cases hkk : key = k
      · have hnone : o.keys[j]? ≠ some k := fun hj => hnot (hkk ▸ List.mem_of_getElem? hj)
        simp [hkk, hnone, eq_comm]
      · simp [hkk, h k j]
    · rw [toMembers, Array.toList_push, Members.insert, toMembers, insertEntry_of_notMem hnot]

theorem ofList_concat (pairs : List (String × α)) (key : String) (value : α) :
    ofList (pairs ++ [(key, value)]) = ofList pairs >>= fun o => o.insert key value := by
  simp [ofList]

/-- By induction on the pairs, the last one first. -/
theorem exists_ofList (pairs : List (String × α)) :
    ∃ o, ofList pairs = .ok o ∧ o.InStep ∧ o.toMembers = Members.ofList pairs := by
  induction pairs using List.reverseRecOn with
  | nil => exact ⟨empty, rfl, inStep_empty, rfl⟩
  | append_singleton pairs pair ih =>
    obtain ⟨key, value⟩ := pair
    obtain ⟨o, ho, hstep, hmembers⟩ := ih
    obtain ⟨o', hinsert, hstep', hmembers'⟩ := hstep.insert key value
    refine ⟨o', ?_, hstep', by rw [hmembers', hmembers, Members.ofList_concat]⟩
    rw [ofList_concat, ho]
    exact hinsert

theorem InStep.index_eq (h : o.InStep) (key : String) :
    o.index[key]? = o.toMembers.position? key := by
  have hn : o.toMembers.keys.Nodup := h.nodup_keys
  ext i
  rw [h key i, position?_eq_some_iff hn, keys_toMembers]

theorem InStep.get?_of_some (h : o.InStep) (hk : o.index[key]? = some i) :
    ∃ value, o.entryAt i = .ok (key, value) ∧ o.toMembers.get? key = some value := by
  obtain ⟨value, hentry, hi⟩ := h.entryAt_eq hk
  exact ⟨value, hentry, (lookup_eq_some_iff_mem h.nodup_keys).mpr (List.mem_of_getElem? hi)⟩

theorem InStep.get?_of_none (h : o.InStep) (hk : o.index[key]? = none) :
    o.toMembers.get? key = none :=
  get?_eq_none_iff.mpr (h.notMem_of_none hk)

theorem InStep.get_eq (h : o.InStep) (key : String) :
    o.get key = .ok (o.toMembers.get? key) := by
  cases hk : o.index[key]? with
  | some i =>
    obtain ⟨value, hentry, hvalue⟩ := h.get?_of_some hk
    simp [get, hk, hentry, hvalue, Except.map]
  | none => simp [get, hk, h.get?_of_none hk]

theorem InStep.contains_eq (h : o.InStep) (key : String) :
    o.contains key = o.toMembers.contains key := by
  rw [contains, Std.HashMap.contains_eq_isSome_getElem?, Members.contains]
  cases hk : o.index[key]? with
  | some i =>
    obtain ⟨value, -, hvalue⟩ := h.get?_of_some hk
    rw [hvalue]
    rfl
  | none =>
    rw [h.get?_of_none hk]
    rfl

end Indexed

/-- Insertions keep an object and its index in step, also where a key comes again. No step ever looks
at a position without an entry, and the object with the index is the one that is told by its entries
alone: each key once, in the order in which they came first, with the value that came last. -/
theorem index_in_step (pairs : List (String × α)) :
    let m : Members α := ofList pairs
    ∃ o : Indexed α, Indexed.ofList pairs = .ok o ∧ o.toMembers = m ∧
      (∀ key : String, o.index[key]? = m.position? key) ∧
      (∀ key, o.get key = .ok (m.get? key)) ∧
      (∀ key, o.contains key = m.contains key) ∧
      m.keys.Nodup ∧
      (∀ (key : String) (i : Nat), o.index[key]? = some i ↔ m.keys[i]? = some key) ∧
      (∀ (key : String) (i : Nat), o.index[key]? = some i → i < o.entries.size) ∧
      (∀ key value, m.get? key = some value ↔
        ∃ front back, pairs = front ++ (key, value) :: back ∧ key ∉ back.map Prod.fst) ∧
      (∀ key, m.get? key = none ↔ key ∉ pairs.map Prod.fst) ∧
      (∀ key, m.contains key = true ↔ ∃ value, m.get? key = some value) ∧
      m.keys = (pairs.map Prod.fst).eraseDups ∧
      m.size = (pairs.map Prod.fst).toFinset.card := by
  obtain ⟨o, ho, hstep, hm⟩ := Indexed.exists_ofList pairs
  intro m
  change o.toMembers = m at hm
  have hkeys : o.keys = m.keys := by rw [← hm, Indexed.keys_toMembers]
  refine ⟨o, ho, hm, fun key => hm ▸ hstep.index_eq key, fun key => hm ▸ hstep.get_eq key,
    fun key => hm ▸ hstep.contains_eq key, nodup_keys_ofList pairs, fun key i => hkeys ▸ hstep key i,
    fun key i hi => ?_, fun key value => get?_ofList_eq_some_iff, fun key => ?_, fun key => ?_,
    keys_ofList pairs, size_ofList pairs⟩
  · obtain ⟨hlt, -⟩ := List.getElem?_eq_some_iff.mp ((hstep key i).mp hi)
    simpa [Indexed.keys] using hlt
  · rw [get?_eq_none_iff, keys_ofList, List.mem_eraseDups]
  · rw [contains, Option.isSome_iff_exists]

end ModuleLoader.Members
