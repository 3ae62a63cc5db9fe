import ModuleLoader.Proofs.Resolve.Canonical
import ModuleLoader.Proofs.Resolve.Lookups
import ModuleLoader.Proofs.Source.Entries

/-! Backslashes in paths. A bundle keeps its files under names without any, and what is found in a
bundle has one only where the root or an extension of the resolver has. -/

namespace ModuleLoader

open ModuleLoader.Path Text

namespace Path

variable {p q : Path} {text : String}

/-- Whether a path is written without backslashes. -/
def IsForward (p : Path) : Prop := '\\' ∉ p.text.toList

theorem IsForward.display (h : p.IsForward) : p.display = p.text := forwardSlashes_eq_self h

theorem isForward_iff : p.IsForward ↔ ∀ name, .name name ∈ p.components → '\\' ∉ name.toList := by
  have hstep (name : String) : Component.name name ∈ p.inner ↔ .name name ∈ p.components := by
    simp [inner_eq, Component.isStep]
  constructor
  · intro h name hm hc
    exact h (mem_text_of_mem_name ((hstep name).mpr hm) hc)
  · intro h hc
    rw [← p.intercalate_segments] at hc
    obtain hslash | ⟨piece, hm, hc⟩ := mem_intercalate hc
    · exact absurd hslash (by decide)
    · -- A piece with a backslash is neither empty nor made of dots.
      have hname : innerComponent? piece = some (.name (String.ofList piece)) := by
        rw [innerComponent?, if_neg, if_neg]
        · intro hdots
          obtain rfl := beq_iff_eq.mp hdots
          simp at hc
        · intro hidle
          rcases Bool.or_eq_true_iff.mp hidle with hempty | hdot
          · obtain rfl := List.isEmpty_iff.mp hempty
            cases hc
          · obtain rfl := beq_iff_eq.mp hdot
            simp at hc
      refine h _ ((hstep _).mp (List.mem_filterMap.mpr ⟨piece, hm, hname⟩)) ?_
      rwa [String.toList_ofList]

theorem IsForward.congr (h : p.IsForward) (hc : p.components = q.components) : q.IsForward :=
  isForward_iff.mpr fun name hm => isForward_iff.mp h name (hc ▸ hm)

theorem subset_of_mem_upward {above components : List Component} (h : above ∈ upward components) :
    above ⊆ components := by
  have hm : above ∈ components.inits := by
    unfold upward at h
    split at h
    · exact List.mem_of_mem_tail (List.mem_reverse.mp h)
    · exact List.mem_reverse.mp h
  exact ((List.mem_inits _ _).mp hm).subset

theorem IsForward.ancestors (h : p.IsForward) (hq : q ∈ p.ancestors) : q.IsForward := by
  have hm := components_mem_upward hq
  exact isForward_iff.mpr fun name hn => isForward_iff.mp h name (subset_of_mem_upward hm hn)

theorem IsForward.append (h : p.IsForward) (ht : '\\' ∉ text.toList) : (p.append text).IsForward := by
  rw [IsForward, Path.append, String.toList_append, List.mem_append]
  exact fun hm => hm.elim h ht

theorem IsForward.joinText (h : p.IsForward) (ht : '\\' ∉ text.toList) :
    (p.joinText text).IsForward := by
  have hslash : '\\' ∉ "/".toList := by decide
  have happend : '\\' ∉ (p.text ++ text).toList := h.append ht
  rw [IsForward, Path.joinText, join]
  split
  · exact ht
  · split
    · exact happend
    · simp only [String.toList_append, List.mem_append]
      exact fun hm => hm.elim (fun hm => hm.elim h hslash) ht

end Path

/-! ## Bundles -/

theorem Bundle.isForward_key {files : List (String × ByteArray)} {key : String}
    (h : key ∈ (ofEntries files).keys) : (Path.mk key).IsForward := by
  obtain ⟨file, -, ha⟩ := mem_keys_ofEntries_iff.mp h
  obtain ⟨q, hq, rfl⟩ := Option.map_eq_some_iff.mp (key?_eq_some_iff.mpr ha.1)
  exact backslash_notMem_forwardSlashes q.text

/-- Paths without backslashes, and packages that are named without. -/
def Zone.forward : Zone where
  directory := IsForward
  exact := IsForward
  file := IsForward
  package name := '\\' ∉ name.toList

namespace Resolver

theorem confines_forward {r : Resolver Id} (hk : r.source.kind = .bundle) (hroot : r.root.IsForward)
    (hx : ∀ ext ∈ r.extensions, '\\' ∉ ext.toList) :
    Confines Zone.forward Observer.plain (fun packages _ => packages.Rooted) r where
  root := hroot
  directory_of_exact h := h
  normalize {p q} h := by
    have hq : Bundle.canonical? p = some q := by rwa [normalize?, hk] at h
    exact (Bundle.canonical?_spec hq).2.1
  ancestors h hq := h.ancestors hq
  package h hn := (h.joinText (by decide)).joinText hn
  index {p ext} h he := by
    refine h.joinText ?_
    have hext : '\\' ∉ ext.toList := by
      rcases List.mem_cons.mp he with rfl | he
      · decide
      · exact hx ext he
    rw [String.toList_append, List.mem_append]
    exact fun hm => hm.elim (by decide) hext
  append h he := h.append (hx _ he)
  existsFile h _ _ hI := ⟨hI, fun _ => h⟩
  existsDir _ _ _ hI := hI
  load {p} h packages w hI := by
    obtain ⟨hkept, hloaded⟩ := hI.load Observer.plain r.source p w
    exact ⟨hkept, fun d hd => h.congr (hloaded d hd).symm⟩

theorem isForward_of_bundle {r : Resolver Id} (hk : r.source.kind = .bundle)
    (hroot : r.root.IsForward) (hx : ∀ ext ∈ r.extensions, '\\' ∉ ext.toList) (history : List Query)
    {request : Request} {found : ResolvedModule}
    (h : ((r.resolve request).run (PackageCache.after r history)).1 = .ok found) :
    found.path.IsForward := by
  have hI : (PackageCache.after r history).Rooted := r.rooted_replay Observer.plain history ()
  have hanswer : (Observer.plain.look (r.resolve request) (PackageCache.after r history) ()).1.1 =
      .ok found := h
  refine ((confines_forward hk hroot hx).resolve hI ?_ hanswer).1
  exact fun _ _ _ _ hbare => (BareSpecifier.parse?_package hbare).2

end Resolver

end ModuleLoader
