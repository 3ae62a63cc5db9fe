import Mathlib.Data.List.Induction
import Mathlib.Data.List.Nodup
import Mathlib.Data.List.Perm.Basic
import ModuleLoader.Proofs.Json.Grammar

/-! Members of objects. Inserting pairs one by one builds what the pairs stand for, and pairs stand
for nothing else. -/

namespace ModuleLoader.Members

open Json.Grammar

variable {α β : Type} {key : String} {value : α}

/-! ## Lookups -/

theorem lookup_map (f : String → α → β) (es : List (String × α)) (key : String) :
    (es.map fun entry => (entry.1, f entry.1 entry.2)).lookup key =
      (es.lookup key).map (f key) := by
  induction es with
  | nil => rfl
  | cons entry rest ih =>
    obtain ⟨other, value⟩ := entry
    by_cases h : key = other
    · simp [h]
    · have hk : (key == other) = false := by simpa using h
      simp [List.lookup_cons, hk, ih]

theorem mem_of_get?_eq_some {m : Members α} (h : m.get? key = some value) :
    (key, value) ∈ m.entries := by
  obtain ⟨front, back, he, -⟩ := List.lookup_eq_some_iff.mp h
  simp [he]

theorem get?_eq_none_iff {m : Members α} : m.get? key = none ↔ key ∉ m.keys := by
  rw [get?, List.lookup_eq_none_iff, keys, List.mem_map]
  constructor
  · rintro h ⟨entry, hm, rfl⟩
    simpa using h entry hm
  · intro h entry hm
    have hne : key ≠ entry.1 := fun he => h ⟨entry, hm, he.symm⟩
    simpa using hne

theorem lookup_eq_some_iff_mem {es : List (String × α)} (hd : (es.map Prod.fst).Nodup) :
    es.lookup key = some value ↔ (key, value) ∈ es := by
  refine ⟨fun h => mem_of_get?_eq_some (m := ⟨es⟩) h, fun h => ?_⟩
  obtain ⟨front, back, rfl⟩ := List.append_of_mem h
  have hfront : ∀ entry ∈ front, (key != entry.1) = true := by
    intro entry hm
    have hne := (List.nodup_append.mp (List.map_append ▸ hd)).2.2 entry.1
      (List.mem_map_of_mem hm) key (by simp)
    simpa using Ne.symm hne
  exact List.lookup_eq_some_iff.mpr ⟨front, back, rfl, hfront⟩

/-- Where no key is repeated, the order of the entries does not matter. -/
theorem lookup_of_perm {es fs : List (String × α)} (hd : (es.map Prod.fst).Nodup)
    (hp : es.Perm fs) (key : String) : es.lookup key = fs.lookup key := by
  have hd' : (fs.map Prod.fst).Nodup := (hp.map Prod.fst).nodup_iff.mp hd
  ext value
  rw [lookup_eq_some_iff_mem hd, lookup_eq_some_iff_mem hd', hp.mem_iff]

/-! ## Insertions -/

theorem map_fst_insertEntry (key : String) (value : α) (es : List (String × α)) :
    (insertEntry key value es).map Prod.fst =
      if key ∈ es.map Prod.fst then es.map Prod.fst else es.map Prod.fst ++ [key] := by
  induction es with
  | nil => simp [insertEntry]
  | cons e es ih =>
    obtain ⟨k, v⟩ := e
    by_cases h : k = key
    · simp [insertEntry, h]
    · have h' : key ≠ k := fun e => h e.symm
      simp only [insertEntry, h, if_false, List.map_cons, ih, List.mem_cons, h', false_or]
      split <;> rfl

theorem keys_insert (m : Members α) (key : String) (value : α) :
    (m.insert key value).keys = if key ∈ m.keys then m.keys else m.keys ++ [key] :=
  map_fst_insertEntry key value m.entries

theorem ofList_concat (pairs : List (String × α)) (key : String) (value : α) :
    ofList (pairs ++ [(key, value)]) = (ofList pairs).insert key value := by
  simp [ofList]

theorem nodup_keys_ofList (pairs : List (String × α)) : (ofList pairs).keys.Nodup := by
  induction pairs using List.reverseRecOn with
  | nil => exact List.nodup_nil
  | append_singleton pairs pair ih =>
    obtain ⟨key, value⟩ := pair
    rw [ofList_concat, keys_insert]
    split
    · exact ih
    · next h => simpa [List.nodup_append] using ⟨ih, fun k hk he => h (he ▸ hk)⟩

theorem insertEntry_of_notMem {key : String} {es : List (String × α)}
    (h : key ∉ es.map Prod.fst) (value : α) : insertEntry key value es = es ++ [(key, value)] := by
  induction es with
  | nil => rfl
  | cons e es ih =>
    obtain ⟨k, v⟩ := e
    rw [List.map_cons, List.mem_cons, not_or] at h
    rw [insertEntry, if_neg fun he => h.1 he.symm, ih h.2, List.cons_append]

/-- Pairs without repeated keys are kept as they are. -/
theorem ofList_of_nodup {es : List (String × α)} (h : (es.map Prod.fst).Nodup) :
    ofList es = ⟨es⟩ := by
  induction es using List.reverseRecOn with
  | nil => rfl
  | append_singleton es e ih =>
    obtain ⟨key, value⟩ := e
    rw [List.map_append, List.nodup_append] at h
    have hkey : key ∉ es.map Prod.fst :=
      fun hm => h.2.2 key hm key (List.mem_singleton_self key) rfl
    rw [ofList_concat, ih h.1, insert, insertEntry_of_notMem hkey]

theorem ofList_entries_ofList (pairs : List (String × α)) :
    ofList (ofList pairs).entries = ofList pairs :=
  ofList_of_nodup (nodup_keys_ofList pairs)

theorem keys_ofList (pairs : List (String × α)) :
    (ofList pairs).keys = (pairs.map Prod.fst).eraseDups := by
  induction pairs using List.reverseRecOn with
  | nil => rfl
  | append_singleton pairs pair ih =>
    obtain ⟨key, value⟩ := pair
    rw [ofList_concat, keys_insert, ih, List.map_append, List.eraseDups_append]
    by_cases h : key ∈ pairs.map Prod.fst
    · have hr : [key].removeAll (pairs.map Prod.fst) = [] := by simp [List.removeAll, h]
      rw [if_pos (List.mem_eraseDups.mpr h), List.map_singleton, hr]
      simp
    · have hr : [key].removeAll (pairs.map Prod.fst) = [key] := by simp [List.removeAll, h]
      rw [if_neg fun hm => h (List.mem_eraseDups.mp hm), List.map_singleton, hr]
      rfl

theorem get?_ofList (pairs : List (String × α)) (key : String) :
    (ofList pairs).get? key = pairs.reverse.lookup key := by
  induction pairs using List.reverseRecOn with
  | nil => rfl
  | append_singleton pairs pair ih =>
    obtain ⟨k, value⟩ := pair
    rw [ofList_concat, List.reverse_append, List.reverse_singleton, List.singleton_append,
      List.lookup_cons]
    by_cases h : key = k
    · rw [h, get?_insert_self, beq_self_eq_true]
    · have hk : (key == k) = false := by simpa using h
      rw [get?_insert_of_ne _ h, ih, hk]

theorem collects_ofList (pairs : List (String × Json)) : Collects pairs (ofList pairs) :=
  ⟨keys_ofList pairs, get?_ofList pairs⟩

/-- Entries without repeated keys are told by their keys and what these are looked up to. -/
theorem entries_ext {es fs : List (String × α)} (hk : es.map Prod.fst = fs.map Prod.fst)
    (hn : (es.map Prod.fst).Nodup) (hl : ∀ key ∈ es.map Prod.fst, es.lookup key = fs.lookup key) :
    es = fs := by
  induction es generalizing fs with
  | nil =>
    cases fs with
    | nil => rfl
    | cons f fs => cases hk
  | cons e es ih =>
    cases fs with
    | nil => cases hk
    | cons f fs =>
      obtain ⟨k, v⟩ := e
      obtain ⟨k', w⟩ := f
      obtain ⟨rfl, hrest⟩ := List.cons.inj hk
      obtain ⟨hnk, hnr⟩ := List.nodup_cons.mp hn
      obtain rfl : v = w := by simpa using hl k List.mem_cons_self
      have hlookup : ∀ key ∈ es.map Prod.fst, es.lookup key = fs.lookup key := by
        intro key hm
        have hne : (key == k) = false := by
          simp only [beq_eq_false_iff_ne]
          rintro rfl
          exact hnk hm
        have h := hl key (List.mem_cons_of_mem _ hm)
        simpa [List.lookup_cons, hne] using h
      rw [ih hrest hnr hlookup]

theorem collects_iff {pairs : List (String × Json)} {members : Members Json} :
    Collects pairs members ↔ members = ofList pairs := by
  constructor
  · intro h
    have ho := collects_ofList pairs
    have hkeys : members.keys = (ofList pairs).keys := h.keys.trans ho.keys.symm
    have hn : members.keys.Nodup := hkeys ▸ nodup_keys_ofList pairs
    have hentries : members.entries = (ofList pairs).entries :=
      entries_ext hkeys hn fun key _ => (h.get? key).trans (ho.get? key).symm
    exact congrArg Members.mk hentries
  · rintro rfl
    exact collects_ofList pairs

end ModuleLoader.Members
