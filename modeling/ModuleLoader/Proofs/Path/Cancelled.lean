import Mathlib.Data.List.Infix
import Mathlib.Data.List.Sort
import ModuleLoader.Proofs.Path.Names

/-! What normalizing leaves of a path. Each `..` takes back the nearest name before it that is still
there, and a relative path has a normal form unless some `..` finds none. -/

namespace ModuleLoader.Path

def Component.name? : Component → Option String
  | .name text => some text
  | _ => none

@[simp] theorem Component.name?_name (text : String) : (Component.name text).name? = some text := rfl
@[simp] theorem Component.name?_root : Component.root.name? = none := rfl
@[simp] theorem Component.name?_here : Component.here.name? = none := rfl
@[simp] theorem Component.name?_up : Component.up.name? = none := rfl

/-- The name that stands at an index, if one does. -/
def nameAt? (cs : List Component) (i : Nat) : Option String := cs[i]?.bind Component.name?

/-- Whether the component at `j` is a `..` that takes back the name at `i`. It is the nearest name
before `j` that nothing before `j` takes back. -/
def Cancels (cs : List Component) (i j : Nat) : Prop :=
  i < j ∧ cs[j]? = some .up ∧ (nameAt? cs i).isSome = true ∧ (∀ k, ∀ _ : k < j, ¬Cancels cs i k) ∧
    ∀ other, i < other → other < j → (nameAt? cs other).isSome = true →
      ∃ k, ∃ _ : k < j, Cancels cs other k
termination_by j

open Classical in
/-- The names that nothing takes back, in order. -/
noncomputable def survivors (cs : List Component) : List String :=
  (List.range cs.length).filterMap fun i => if ∃ j, Cancels cs i j then none else nameAt? cs i

/-- Whether going from component to component leads above the start: up to some place there are more
`..` than names. -/
def Climbs (cs : List Component) : Prop :=
  ∃ front, front <+: cs ∧ (front.filterMap Component.name?).length < front.count .up

/-! ## Names that still stand -/

section

variable {cs : List Component} {i j n : Nat}

open Classical in
/-- The indices of the names before `n` that nothing before `n` takes back. -/
noncomputable def standing (cs : List Component) (n : Nat) : List Nat :=
  (List.range n).filter fun i => (nameAt? cs i).isSome ∧ ∀ j < n, ¬Cancels cs i j

theorem mem_standing : i ∈ standing cs n ↔
    i < n ∧ (nameAt? cs i).isSome = true ∧ ∀ j < n, ¬Cancels cs i j := by
  simp [standing]

theorem pairwise_standing (cs : List Component) (n : Nat) : (standing cs n).Pairwise (· < ·) :=
  List.pairwise_lt_range.filter _

theorem getLast?_eq_some_iff_of_pairwise {l : List Nat} (h : l.Pairwise (· < ·)) :
    l.getLast? = some i ↔ i ∈ l ∧ ∀ other ∈ l, other ≤ i := by
  cases l using List.reverseRecOn with
  | nil => simp
  | append_singleton front last =>
    have hfront : ∀ a ∈ front, a < last := fun a ha => (List.pairwise_append.mp h).2.2 a ha last (by simp)
    rw [List.getLast?_concat, Option.some.injEq]
    constructor
    · rintro rfl
      refine ⟨by simp, fun other hm => ?_⟩
      rcases List.mem_append.mp hm with hm | hm
      · exact (hfront other hm).le
      · exact (List.mem_singleton.mp hm).le
    · rintro ⟨hm, hall⟩
      rcases List.mem_append.mp hm with hm | hm
      · exact absurd (hfront i hm) (Nat.not_lt.mpr (hall last (by simp)))
      · exact (List.mem_singleton.mp hm).symm

/-- A `..` takes back the last name that still stands. -/
theorem cancels_iff : Cancels cs i j ↔ cs[j]? = some .up ∧ (standing cs j).getLast? = some i := by
  rw [Cancels, getLast?_eq_some_iff_of_pairwise (pairwise_standing cs j), mem_standing]
  constructor
  · rintro ⟨hij, hup, hname, hnone, hbetween⟩
    refine ⟨hup, ⟨hij, hname, hnone⟩, fun other hm => ?_⟩
    obtain ⟨hlt, hother, hstands⟩ := mem_standing.mp hm
    by_contra hcon
    obtain ⟨k, hk, hc⟩ := hbetween other (by omega) hlt hother
    exact hstands k hk hc
  · rintro ⟨hup, ⟨hij, hname, hnone⟩, hlast⟩
    refine ⟨hij, hup, hname, hnone, fun other hi hj hother => ?_⟩
    by_contra hcon
    push Not at hcon
    have hm : other ∈ standing cs j := mem_standing.mpr ⟨hj, hother, fun k hk => hcon k hk⟩
    exact absurd (hlast other hm) (Nat.not_le.mpr hi)

theorem mem_standing_succ : i ∈ standing cs (n + 1) ↔
    (i ∈ standing cs n ∨ i = n ∧ (nameAt? cs n).isSome = true) ∧ ¬Cancels cs i n := by
  have hself : ∀ j ≤ n, ¬Cancels cs n j := fun j hj hc => by
    rw [Cancels] at hc
    omega
  simp only [mem_standing, Nat.lt_succ_iff_lt_or_eq, or_imp, forall_and, forall_eq]
  constructor
  · rintro ⟨hi | rfl, hname, hbefore, hn⟩
    · exact ⟨.inl ⟨hi, hname, hbefore⟩, hn⟩
    · exact ⟨.inr ⟨rfl, hname⟩, hn⟩
  · rintro ⟨⟨hi, hname, hbefore⟩ | ⟨rfl, hname⟩, hn⟩
    · exact ⟨.inl hi, hname, hbefore, hn⟩
    · exact ⟨.inr rfl, hname, fun j hj => hself j hj.le, hn⟩

theorem standing_succ_of_name {text : String} (h : cs[n]? = some (.name text)) :
    standing cs (n + 1) = standing cs n ++ [n] := by
  have hnone : ∀ i, ¬Cancels cs i n := fun i hc => by
    have hup := (cancels_iff.mp hc).1
    simp [h] at hup
  have hsorted : (standing cs n ++ [n]).Pairwise (· < ·) :=
    List.pairwise_append.mpr ⟨pairwise_standing cs n, List.pairwise_singleton _ _, fun a ha b hb => by
      rw [List.mem_singleton.mp hb]
      exact (mem_standing.mp ha).1⟩
  refine (pairwise_standing cs (n + 1)).eq_of_mem_iff hsorted fun i => ?_
  rw [mem_standing_succ]
  simp [hnone, nameAt?, h]

theorem standing_succ_of_up (h : cs[n]? = some .up) :
    standing cs (n + 1) = (standing cs n).dropLast := by
  have hsorted := pairwise_standing cs n
  refine (pairwise_standing cs (n + 1)).eq_of_mem_iff
    (hsorted.sublist (List.dropLast_sublist _)) fun i => ?_
  rw [mem_standing_succ, cancels_iff]
  cases hl : standing cs n using List.reverseRecOn with
  | nil => simp [nameAt?, h]
  | append_singleton front last =>
    rw [hl] at hsorted
    have hfront : last ∉ front := fun hm =>
      absurd ((List.pairwise_append.mp hsorted).2.2 last hm last (by simp)) (lt_irrefl last)
    simp only [nameAt?, h, Option.bind_some, Component.name?_up, Option.isSome_none, Bool.false_eq_true,
      and_false, or_false, true_and, List.getLast?_concat, List.dropLast_concat]
    constructor
    · rintro ⟨hm, hne⟩
      rcases List.mem_append.mp hm with hm | hm
      · exact hm
      · exact absurd (congrArg some (List.mem_singleton.mp hm).symm) hne
    · intro hm
      refine ⟨List.mem_append_left _ hm, fun he => ?_⟩
      exact hfront (Option.some.inj he ▸ hm)

theorem standing_succ_of_idle {c : Component} (h : cs[n]? = some c) (hup : c ≠ .up)
    (hname : c.name? = none) : standing cs (n + 1) = standing cs n := by
  refine (pairwise_standing cs (n + 1)).eq_of_mem_iff (pairwise_standing cs n) fun i => ?_
  rw [mem_standing_succ, cancels_iff]
  simp [nameAt?, h, hname, hup]

/-- What settling keeps on its way are the names that still stand. -/
theorem settle_take {rooted : Bool} {names : List String} (hn : n ≤ cs.length)
    (h : settle rooted (cs.take n) [] = some names) :
    names = (standing cs n).filterMap (nameAt? cs) := by
  induction n generalizing names with
  | zero =>
    obtain rfl : [] = names := by simpa [settle] using h
    simp [standing]
  | succ n ih =>
    obtain ⟨c, hc⟩ : ∃ c, cs[n]? = some c := ⟨_, List.getElem?_eq_getElem (by omega)⟩
    rw [List.take_add_one, hc, settle_append] at h
    obtain ⟨before, hbefore, hlast⟩ := Option.bind_eq_some_iff.mp h
    have hb := ih (by omega) hbefore
    cases c with
    | root =>
      obtain rfl : before = names := by simpa [settle] using hlast
      rw [standing_succ_of_idle hc (by simp) rfl, hb]
    | here =>
      obtain rfl : before = names := by simpa [settle] using hlast
      rw [standing_succ_of_idle hc (by simp) rfl, hb]
    | name text =>
      obtain rfl : before ++ [text] = names := by simpa [settle] using hlast
      simp [standing_succ_of_name hc, hb, nameAt?, hc]
    | up =>
      rw [standing_succ_of_up hc]
      cases hs : standing cs n using List.reverseRecOn with
      | nil =>
        obtain rfl : before = [] := by simpa [hs] using hb
        cases rooted with
        | false => simp [settle] at hlast
        | true => simpa [settle, eq_comm] using hlast
      | append_singleton front last =>
        have hm : last ∈ standing cs n := by simp [hs]
        obtain ⟨text, ht⟩ := Option.isSome_iff_exists.mp (mem_standing.mp hm).2.1
        rw [hs, List.filterMap_append] at hb
        subst hb
        simpa [ht, settle, eq_comm] using hlast

theorem survivors_eq (cs : List Component) :
    survivors cs = (standing cs cs.length).filterMap (nameAt? cs) := by
  rw [survivors, standing, List.filterMap_filter]
  refine List.filterMap_congr fun i hi => ?_
  have hlt {j : Nat} (hc : Cancels cs i j) : j < cs.length := by
    by_contra hcon
    have hup := (cancels_iff.mp hc).1
    rw [List.getElem?_eq_none (Nat.le_of_not_lt hcon)] at hup
    cases hup
  by_cases hc : ∃ j, Cancels cs i j
  · obtain ⟨j, hj⟩ := hc
    have hall : ¬∀ j < cs.length, ¬Cancels cs i j := fun hn => hn j (hlt hj) hj
    rw [if_pos ⟨j, hj⟩]
    simp [hall]
  · have hall : ∀ j < cs.length, ¬Cancels cs i j := fun j _ hj => hc ⟨j, hj⟩
    rw [if_neg hc]
    cases nameAt? cs i with
    | none => simp
    | some text => simpa using hall

theorem eq_survivors_of_settle {rooted : Bool} {names : List String}
    (h : settle rooted cs [] = some names) : names = survivors cs := by
  rw [survivors_eq]
  exact settle_take le_rfl (by rwa [List.take_length])

end

/-! ## Climbing -/

section

variable {cs : List Component} {kept names : List String}

/-- From a relative start, what is kept in the end is what was met less what was taken back. -/
theorem length_of_settle (h : settle false cs kept = some names) :
    names.length + cs.count .up = kept.length + (cs.filterMap Component.name?).length := by
  induction cs generalizing kept with
  | nil =>
    obtain rfl : kept.reverse = names := by simpa [settle] using h
    simp
  | cons c rest ih =>
    cases c with
    | root => simpa [List.filterMap_cons] using ih h
    | here => simpa [List.filterMap_cons] using ih h
    | name text =>
      have hrest : settle false rest (text :: kept) = some names := h
      have hr := ih hrest
      simp at hr ⊢
      omega
    | up =>
      cases kept with
      | nil => simp [settle] at h
      | cons first kept =>
        have hrest : settle false rest kept = some names := h
        have hr := ih hrest
        simp [List.filterMap_cons] at hr ⊢
        omega

theorem exists_climb_of_settle (h : settle false cs kept = none) :
    ∃ front, front <+: cs ∧
      kept.length + (front.filterMap Component.name?).length < front.count .up := by
  induction cs generalizing kept with
  | nil => simp [settle] at h
  | cons c rest ih =>
    cases c with
    | root =>
      obtain ⟨front, hf, hl⟩ := ih h
      exact ⟨_, (List.prefix_cons_inj _).mpr hf, by simpa [List.filterMap_cons] using hl⟩
    | here =>
      obtain ⟨front, hf, hl⟩ := ih h
      exact ⟨_, (List.prefix_cons_inj _).mpr hf, by simpa [List.filterMap_cons] using hl⟩
    | name text =>
      have hrest : settle false rest (text :: kept) = none := h
      obtain ⟨front, hf, hl⟩ := ih hrest
      refine ⟨_, (List.prefix_cons_inj _).mpr hf, ?_⟩
      simp at hl ⊢
      omega
    | up =>
      cases kept with
      | nil => exact ⟨[.up], by simp, by simp⟩
      | cons first kept =>
        have hrest : settle false rest kept = none := h
        obtain ⟨front, hf, hl⟩ := ih hrest
        refine ⟨_, (List.prefix_cons_inj _).mpr hf, ?_⟩
        simp [List.filterMap_cons] at hl ⊢
        omega

theorem settle_eq_none_iff : settle false cs [] = none ↔ Climbs cs := by
  constructor
  · intro h
    obtain ⟨front, hf, hl⟩ := exists_climb_of_settle h
    exact ⟨front, hf, by simpa using hl⟩
  · rintro ⟨front, ⟨back, rfl⟩, hl⟩
    rw [settle_append]
    cases h : settle false front [] with
    | none => rfl
    | some names =>
      have hlen := length_of_settle h
      simp at hlen
      omega

end

theorem normalize?_eq_none_iff {p : Path} :
    p.normalize? = none ↔ p.isAbsolute = false ∧ Climbs p.components := by
  rw [normalize?, Option.map_eq_none_iff]
  cases p.isAbsolute with
  | false => simp [settle_eq_none_iff]
  | true =>
    obtain ⟨names, hnames⟩ := exists_settle_true p.components []
    simp [hnames]

theorem eq_ofNames_of_normalize? {p q : Path} (h : p.normalize? = some q) :
    q = ofNames p.isAbsolute (survivors p.components) ∧
      ∀ name ∈ survivors p.components, .name name ∈ p.components := by
  obtain ⟨names, hsettle, rfl⟩ := Option.map_eq_some_iff.mp h
  obtain rfl := eq_survivors_of_settle hsettle
  exact ⟨rfl, fun name hm => (mem_of_settle_eq_some hsettle hm).resolve_left List.not_mem_nil⟩

/-- What is joined to a path is normalized as it is behind the normal form of the path. -/
theorem normalize?_join_of_normalize? {p q : Path} (h : p.normalize? = some q) (b : Path) :
    (q.join b).normalize? = (p.join b).normalize? := by
  by_cases hb : b.isAbsolute = true
  · simp [join, hb]
  · have hrelative : b.isAbsolute = false := by simpa using hb
    obtain ⟨names, hsettle, rfl⟩ := Option.map_eq_some_iff.mp h
    have hnames : ∀ name ∈ names, IsName name := fun name hm =>
      isName_of_mem_components ((mem_of_settle_eq_some hsettle hm).resolve_left List.not_mem_nil)
    rw [← settle_filter_isStep, ← inner_eq] at hsettle
    rw [normalize?_eq, normalize?_eq, isAbsolute_join_of_relative hrelative,
      isAbsolute_join_of_relative hrelative, inner_join_of_relative hrelative,
      inner_join_of_relative hrelative, isAbsolute_ofNames _ hnames, inner_ofNames _ hnames,
      settle_append, settle_append, settle_map_name, hsettle]
    rfl

/-- Normalizing a path. It fails where a relative path climbs above its start. Otherwise it gives
the names that no `..` takes back, below the root if the path was, and to normalize them again or to
join another path to them first makes no difference. -/
theorem normalize_cancels (a : Path) :
    (a.normalize? = none ↔ a.isAbsolute = false ∧ Climbs a.components) ∧
    ∀ a', a.normalize? = some a' →
      a'.components = (if a.isAbsolute then [.root] else []) ++ (survivors a.components).map .name ∧
      a'.isAbsolute = a.isAbsolute ∧ .here ∉ a'.components ∧ .up ∉ a'.components ∧
      a'.normalize? = some a' ∧ ∀ b, (a'.join b).normalize? = (a.join b).normalize? := by
  refine ⟨normalize?_eq_none_iff, fun a' ha => ?_⟩
  obtain ⟨rfl, hmem⟩ := eq_ofNames_of_normalize? ha
  have hnames : ∀ name ∈ survivors a.components, IsName name := fun name hm =>
    isName_of_mem_components (hmem name hm)
  have hcomponents := components_ofNames a.isAbsolute hnames
  refine ⟨hcomponents, isAbsolute_ofNames _ hnames, ?_, ?_, normalize?_ofNames _ hnames, fun b => ?_⟩
  · rw [hcomponents]
    cases a.isAbsolute <;> simp
  · rw [hcomponents]
    cases a.isAbsolute <;> simp
  · exact normalize?_join_of_normalize? ha b

end ModuleLoader.Path
