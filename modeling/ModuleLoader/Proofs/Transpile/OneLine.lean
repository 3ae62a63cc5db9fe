import ModuleLoader.Proofs.Text.Lines
import ModuleLoader.Proofs.Transpile.Texts
import ModuleLoader.Transpile.Emit

/-! What a statement turns into stays on its line: where its texts have no line feed, the emitted
text and the getters in the header have none either. -/

namespace ModuleLoader.Transpile

open Text

def OneLine (text : String) : Prop := '\n' ∉ text.toList

/-- A literal is a list of characters, which can be looked through as it is. -/
theorem oneLine_ofList {s : List Char} (h : '\n' ∉ s) : OneLine (String.ofList s) := by
  simpa [OneLine] using h

@[simp] theorem oneLine_append {a b : String} : OneLine (a ++ b) ↔ OneLine a ∧ OneLine b := by
  simp [OneLine, not_or]

@[simp] theorem oneLine_quote (s : String) : OneLine (quote s) := notMem_quote s

@[simp] theorem oneLine_temporary (n : Nat) : OneLine (temporary n) := by
  have hd : '\n' ∉ (toString n).toList := by
    intro hm
    have hm' : '\n' ∈ Nat.toDigits 10 n := by simpa using hm
    have hdigit := Nat.isDigit_of_mem_toDigits (by decide) (by decide) hm'
    exact absurd hdigit (by decide)
  unfold temporary
  exact oneLine_append.mpr ⟨oneLine_ofList (by decide), hd⟩

theorem oneLine_intercalate {sep : String} {texts : List String} (hs : OneLine sep)
    (ht : ∀ t ∈ texts, OneLine t) : OneLine (sep.intercalate texts) := by
  induction texts with
  | nil => exact List.not_mem_nil
  | cons t rest ih =>
    cases rest with
    | nil => simpa using ht
    | cons next rest =>
      obtain ⟨hfirst, hrest⟩ := List.forall_mem_cons.mp ht
      rw [String.intercalate_cons_cons, oneLine_append, oneLine_append]
      exact ⟨⟨hfirst, hs⟩, ih hrest⟩

/-! ## Emissions -/

theorem oneLine_requireCall (specifier : String) : OneLine (requireCall specifier) := by
  have h₁ : OneLine "require(" := oneLine_ofList (by decide)
  have h₂ : OneLine ")" := oneLine_ofList (by decide)
  unfold requireCall
  simp [h₁, h₂]

theorem oneLine_defaultOf {temp : String} (ht : OneLine temp) : OneLine (defaultOf temp) := by
  have h₁ : OneLine " && " := oneLine_ofList (by decide)
  have h₂ : OneLine ".__esModule ? " := oneLine_ofList (by decide)
  have h₃ : OneLine ".default : " := oneLine_ofList (by decide)
  unfold defaultOf
  simp [ht, h₁, h₂, h₃]

theorem oneLine_constText {pattern value : String} (hp : OneLine pattern) (hv : OneLine value) :
    OneLine (constText pattern value) := by
  have h₁ : OneLine "const " := oneLine_ofList (by decide)
  have h₂ : OneLine " = " := oneLine_ofList (by decide)
  have h₃ : OneLine ";" := oneLine_ofList (by decide)
  unfold constText
  simp [hp, hv, h₁, h₂, h₃]

theorem oneLine_getterText {g : Getter} (hg : OneLine g.expression) : OneLine g.text := by
  have h₁ : OneLine "Object.defineProperty(exports, " := oneLine_ofList (by decide)
  have h₂ : OneLine ", \x7b enumerable: true, get: function () \x7b return " :=
    oneLine_ofList (by decide)
  have h₃ : OneLine "; \x7d \x7d);" := oneLine_ofList (by decide)
  unfold Getter.text
  simp [hg, h₁, h₂, h₃]

theorem oneLine_copyAllCall (specifier : String) : OneLine (copyAllCall specifier) := by
  unfold copyAllCall
  simp only [oneLine_append]
  exact ⟨⟨⟨⟨oneLine_ofList (by decide), oneLine_ofList (by decide)⟩, oneLine_ofList (by decide)⟩,
    oneLine_requireCall specifier⟩, oneLine_ofList (by decide)⟩

section

variable {e : ListEntry} {entries : List ListEntry}

theorem oneLine_binding (h : ∀ t ∈ e.texts, OneLine t) : OneLine e.binding := by
  obtain ⟨hs, ha⟩ : OneLine e.source ∧ OneLine e.asName := by simpa [ListEntry.texts] using h
  unfold ListEntry.binding
  split
  · exact ha
  · have h : OneLine ": " := oneLine_ofList (by decide)
    simp [hs, ha, h]

theorem oneLine_listPattern (h : ∀ t ∈ entries.flatMap ListEntry.texts, OneLine t) :
    OneLine (listPattern entries) := by
  unfold listPattern
  split
  · exact oneLine_ofList (by decide)
  · have hb : ∀ t ∈ entries.map ListEntry.binding, OneLine t := by
      intro t ht
      obtain ⟨e, he, rfl⟩ := List.mem_map.mp ht
      exact oneLine_binding fun t ht => h t (List.mem_flatMap.mpr ⟨e, he, ht⟩)
    have h₁ : OneLine "\x7b " := oneLine_ofList (by decide)
    have h₂ : OneLine " \x7d" := oneLine_ofList (by decide)
    have h₃ : OneLine ", " := oneLine_ofList (by decide)
    simp [oneLine_intercalate h₃ hb, h₁, h₂]

theorem oneLine_expression {temp : String} (h : OneLine temp) (e : ListEntry) :
    OneLine (e.expression temp) := by
  unfold ListEntry.expression
  split
  · exact oneLine_defaultOf h
  · have h₁ : OneLine "[" := oneLine_ofList (by decide)
    have h₂ : OneLine "]" := oneLine_ofList (by decide)
    simp [h, h₁, h₂]

end

theorem oneLine_elim {α : Type} {o : Option α} {f : α → String} (h : ∀ a ∈ o, OneLine (f a)) :
    OneLine (o.elim "" f) := by
  cases o with
  | none => exact oneLine_ofList List.not_mem_nil
  | some a => exact h a rfl

theorem oneLine_importText {temp specifier : String} {clause : ImportClause} (ht : OneLine temp)
    (h : ∀ t ∈ clause.texts, OneLine t) : OneLine (importText temp specifier clause) := by
  have hr := oneLine_requireCall specifier
  have hspace : OneLine " " := oneLine_ofList (by decide)
  unfold importText
  split
  · exact oneLine_ofList List.not_mem_nil
  · next whole => exact oneLine_constText (h whole List.mem_cons_self) hr
  · next named =>
    have hnamed : ∀ t ∈ named.flatMap ListEntry.texts, OneLine t := h
    exact oneLine_constText (oneLine_listPattern hnamed) hr
  · exact oneLine_append.mpr ⟨hr, oneLine_ofList (by decide)⟩
  · next main whole named _ _ _ =>
    simp only [ImportClause.texts, List.forall_mem_append, Option.mem_toList] at h
    obtain ⟨⟨hm, hw⟩, hn⟩ := h
    simp only [oneLine_append]
    refine ⟨⟨⟨oneLine_constText ht hr, oneLine_elim fun name he => ?_⟩,
      oneLine_elim fun name he => ?_⟩, oneLine_elim fun entries he => ?_⟩
    · exact oneLine_append.mpr ⟨hspace, oneLine_constText (hm name he) (oneLine_defaultOf ht)⟩
    · exact oneLine_append.mpr ⟨hspace, oneLine_constText (hw name he) ht⟩
    · obtain rfl : named = some entries := he
      exact oneLine_append.mpr ⟨hspace, oneLine_constText (oneLine_listPattern hn) ht⟩

variable {st : Statement}

theorem oneLine_emit (n : Nat) (h : ∀ t ∈ st.texts, OneLine t) :
    OneLine (st.emit n).text ∧ ∀ g ∈ (st.emit n).getters, OneLine g.expression := by
  have hnone : ∀ g ∈ ([] : List Getter), OneLine g.expression :=
    fun _ hg => absurd hg List.not_mem_nil
  have htemp := oneLine_temporary n
  cases st with
  | importOnly specifier =>
    exact ⟨oneLine_append.mpr ⟨oneLine_requireCall specifier, oneLine_ofList (by decide)⟩, hnone⟩
  | importFrom clause specifier =>
    exact ⟨oneLine_importText htemp (List.forall_mem_cons.mp h).2, hnone⟩
  | exportAllAs name specifier =>
    have hname := h name List.mem_cons_self
    have h₁ : OneLine "exports." := oneLine_ofList (by decide)
    have h₂ : OneLine " = " := oneLine_ofList (by decide)
    have h₃ : OneLine ";" := oneLine_ofList (by decide)
    exact ⟨by simp [Statement.emit, exportText, hname, oneLine_requireCall, h₁, h₂, h₃], hnone⟩
  | exportAll specifier => exact ⟨oneLine_copyAllCall specifier, hnone⟩
  | exportListFrom entries specifier =>
    refine ⟨oneLine_intercalate (oneLine_ofList (by decide))
      (List.forall_mem_cons.mpr ⟨?_, fun t ht => ?_⟩), hnone⟩
    · exact oneLine_constText htemp (oneLine_requireCall specifier)
    · obtain ⟨e, -, rfl⟩ := List.mem_map.mp ht
      exact oneLine_getterText (oneLine_expression htemp e)
  | exportList entries =>
    refine ⟨oneLine_ofList List.not_mem_nil, fun g hg => ?_⟩
    obtain ⟨e, he, rfl⟩ := List.mem_map.mp hg
    exact h e.source (List.mem_flatMap.mpr ⟨e, he, List.mem_cons_self⟩)
  | exportDefaultFunction name text =>
    obtain ⟨hname, htext⟩ : OneLine name ∧ OneLine text := by simpa [Statement.texts] using h
    have h₁ : OneLine "exports.default = " := oneLine_ofList (by decide)
    have h₂ : OneLine "; " := oneLine_ofList (by decide)
    exact ⟨by simp [Statement.emit, exportText, hname, htext, h₁, h₂], hnone⟩
  | exportDefaultClass name text =>
    obtain ⟨hname, htext⟩ : OneLine name ∧ OneLine text := by simpa [Statement.texts] using h
    exact ⟨htext, List.forall_mem_singleton.mpr hname⟩
  | exportDefault expression =>
    have hexpression := h expression List.mem_cons_self
    exact ⟨oneLine_append.mpr ⟨oneLine_ofList (by decide), hexpression⟩, hnone⟩
  | exportDeclaration names text =>
    obtain ⟨htext, hnames⟩ := List.forall_mem_cons.mp h
    refine ⟨htext, fun g hg => ?_⟩
    obtain ⟨name, hname, rfl⟩ := List.mem_map.mp hg
    exact hnames name hname

theorem oneLine_headerText {getters : List Getter} (h : ∀ g ∈ getters, OneLine g.expression) :
    OneLine (headerText getters) := by
  refine oneLine_intercalate (oneLine_ofList (by decide))
    (List.forall_mem_cons.mpr ⟨oneLine_ofList (by decide), fun t ht => ?_⟩)
  obtain ⟨g, hg, rfl⟩ := List.mem_map.mp ht
  exact oneLine_getterText (h g hg)

end ModuleLoader.Transpile
