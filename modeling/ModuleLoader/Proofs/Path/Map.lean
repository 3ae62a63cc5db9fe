import Mathlib.Data.List.Basic
import ModuleLoader.PathMap

/-! Laws of maps keyed by paths: which entries there are, where a look finds one, and that no path
has two. -/

namespace ModuleLoader

namespace Path

theorem same_comm (p q : Path) : p.same q = q.same p := by
  simp only [same, Bool.beq_comm]

theorem same_eq_false_iff {p q : Path} : p.same q = false ↔ p.components ≠ q.components := by
  rw [← Bool.not_eq_true, same_iff]

end Path

namespace PathMap

variable {α : Type} {m : PathMap α} {p q : Path} {value : α}

/-- No path has two entries, however they are spelled. -/
def Distinct (m : PathMap α) : Prop := m.entries.Pairwise fun a b => a.1.same b.1 = false

theorem find?_congr (h : p.components = q.components) (m : PathMap α) : m.find? p = m.find? q := by
  have hs : (fun entry : Path × α => entry.1.same p) = fun entry => entry.1.same q := by
    funext entry
    simp [Path.same, h]
  rw [find?, find?, hs]

theorem exists_mem_of_find?_eq_some (h : m.find? p = some value) :
    ∃ r, (r, value) ∈ m.entries ∧ r.components = p.components := by
  obtain ⟨⟨r, v⟩, hf, rfl⟩ := Option.map_eq_some_iff.mp h
  exact ⟨r, List.mem_of_find?_eq_some hf, Path.same_iff.mp (by simpa using List.find?_some hf)⟩

theorem find?_eq_none_iff :
    m.find? p = none ↔ ∀ entry ∈ m.entries, entry.1.components ≠ p.components := by
  simp [find?, List.find?_eq_none, Path.same_iff]

theorem Distinct.find?_eq_some (hd : m.Distinct) {entry : Path × α} (h : entry ∈ m.entries) :
    m.find? entry.1 = some entry.2 := by
  obtain ⟨entries⟩ := m
  simp only [Distinct] at hd h
  simp only [find?]
  induction entries with
  | nil => cases h
  | cons e rest ih =>
    obtain ⟨he, hrest⟩ := List.pairwise_cons.mp hd
    rcases List.mem_cons.mp h with rfl | h
    · simp [Path.same_self]
    · rw [List.find?_cons_of_neg (by simpa using he entry h)]
      exact ih hrest h

/-! ## Pushing -/

theorem find?_push (m : PathMap α) (p q : Path) (value : α) :
    (m.push p value).find? q = (m.find? q).or (if p.same q then some value else none) := by
  simp only [find?, push, List.find?_append, Option.map_or]
  congr 1
  cases h : p.same q <;> simp [h]

theorem find?_push_of_eq_some {v : α} (h : m.find? q = some v) (p : Path) (value : α) :
    (m.push p value).find? q = some v := by
  rw [find?_push, h]
  rfl

theorem Distinct.push (hd : m.Distinct) (h : m.find? p = none) (value : α) :
    (m.push p value).Distinct := by
  refine List.pairwise_append.mpr ⟨hd, by simp, fun a ha b hb => ?_⟩
  obtain rfl : b = (p, value) := by simpa using hb
  exact Path.same_eq_false_iff.mpr (find?_eq_none_iff.mp h a ha)

theorem Distinct.countP_le_one (hd : m.Distinct) (p : Path) :
    m.entries.countP (fun entry => entry.1.same p) ≤ 1 := by
  obtain ⟨entries⟩ := m
  simp only [Distinct] at hd
  induction entries with
  | nil => simp
  | cons e rest ih =>
    obtain ⟨he, hrest⟩ := List.pairwise_cons.mp hd
    rw [List.countP_cons]
    split
    · next hp =>
      have hzero : rest.countP (fun entry => entry.1.same p) = 0 := by
        refine List.countP_eq_zero.mpr fun entry hm hs => ?_
        have hne := Path.same_eq_false_iff.mp (he entry hm)
        exact hne ((Path.same_iff.mp hp).trans (Path.same_iff.mp hs).symm)
      omega
    · exact ih hrest

/-! ## Inserting and erasing -/

theorem insertEntry_of_forall {es : List (Path × α)} (h : ∀ entry ∈ es, entry.1.same p = false) :
    insertEntry p value es = es ++ [(p, value)] := by
  induction es with
  | nil => rfl
  | cons e rest ih =>
    obtain ⟨q, v⟩ := e
    have hq : q.same p = false := h (q, v) List.mem_cons_self
    rw [insertEntry, hq, ih fun entry hm => h entry (List.mem_cons_of_mem _ hm)]
    rfl

theorem insert_of_find?_eq_none (h : m.find? p = none) (value : α) :
    m.insert p value = m.push p value := by
  refine congrArg PathMap.mk (insertEntry_of_forall fun entry hm => ?_)
  exact Path.same_eq_false_iff.mpr (find?_eq_none_iff.mp h entry hm)

theorem mem_insertEntry {es : List (Path × α)} {entry : Path × α}
    (h : entry ∈ insertEntry p value es) : entry.1 = p ∨ ∃ e ∈ es, e.1 = entry.1 := by
  induction es with
  | nil =>
    obtain rfl : entry = (p, value) := by simpa [insertEntry] using h
    exact .inl rfl
  | cons e rest ih =>
    obtain ⟨q, v⟩ := e
    rw [insertEntry] at h
    split at h
    · rcases List.mem_cons.mp h with rfl | h
      · exact .inr ⟨(q, v), List.mem_cons_self, rfl⟩
      · exact .inr ⟨entry, List.mem_cons_of_mem _ h, rfl⟩
    · rcases List.mem_cons.mp h with rfl | h
      · exact .inr ⟨(q, v), List.mem_cons_self, rfl⟩
      · rcases ih h with hp | ⟨e, he, hp⟩
        · exact .inl hp
        · exact .inr ⟨e, List.mem_cons_of_mem _ he, hp⟩

theorem Distinct.insert (hd : m.Distinct) (p : Path) (value : α) : (m.insert p value).Distinct := by
  obtain ⟨entries⟩ := m
  have hp : entries.Pairwise fun a b => a.1.same b.1 = false := hd
  have hi : (insertEntry p value entries).Pairwise fun a b => a.1.same b.1 = false := by
    clear hd
    induction entries with
    | nil => simp [insertEntry]
    | cons e rest ih =>
      obtain ⟨q, v⟩ := e
      obtain ⟨hq, hrest⟩ := List.pairwise_cons.mp hp
      rw [insertEntry]
      split
      · exact List.pairwise_cons.mpr ⟨hq, hrest⟩
      · next hn =>
        refine List.pairwise_cons.mpr ⟨fun entry hm => ?_, ih hrest⟩
        rcases mem_insertEntry hm with he | ⟨e, hm, he⟩
        · rw [he]
          simpa using hn
        · rw [← he]
          exact hq e hm
  exact hi

theorem erase_push (h : m.find? p = none) (value : α) : (m.push p value).erase p = m := by
  have hf : (m.entries ++ [(p, value)]).filter (fun entry => !entry.1.same p) = m.entries := by
    have hm : m.entries.filter (fun entry => !entry.1.same p) = m.entries := by
      refine List.filter_eq_self.mpr fun entry hm => ?_
      have hne := Path.same_eq_false_iff.mpr (find?_eq_none_iff.mp h entry hm)
      simp [hne]
    rw [List.filter_append, hm]
    simp [Path.same_self]
  exact congrArg PathMap.mk hf

/-- Inserting counts one value more, and one less if another one was replaced. -/
theorem count_values_insert [DecidableEq α] (m : PathMap α) (p : Path) (value x : α) :
    (m.insert p value).values.count x + (m.find? p).toList.count x =
      m.values.count x + [value].count x := by
  obtain ⟨entries⟩ := m
  simp only [insert, values, find?]
  induction entries with
  | nil => simp [insertEntry]
  | cons e rest ih =>
    obtain ⟨q, v⟩ := e
    cases hq : q.same p with
    | true =>
      have hi : insertEntry p value ((q, v) :: rest) = (q, value) :: rest := by
        rw [insertEntry, hq]
        rfl
      have hf : ((q, v) :: rest).find? (fun entry => entry.1.same p) = some (q, v) :=
        List.find?_cons_of_pos hq
      rw [hi, hf, List.map_cons, List.map_cons, List.count_cons, List.count_cons]
      simp only [Option.map_some, Option.toList_some, List.count_cons, List.count_nil]
      omega
    | false =>
      have hi : insertEntry p value ((q, v) :: rest) = (q, v) :: insertEntry p value rest := by
        rw [insertEntry, hq]
        rfl
      have hf : ((q, v) :: rest).find? (fun entry => entry.1.same p) =
          rest.find? fun entry => entry.1.same p := List.find?_cons_of_neg (by simp [hq])
      rw [hi, hf, List.map_cons, List.map_cons, List.count_cons, List.count_cons]
      omega

end PathMap

end ModuleLoader
