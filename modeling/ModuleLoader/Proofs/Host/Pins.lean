import ModuleLoader.Proofs.Host.Marks

/-! The balance of pins. A value is pinned once for each path that it is the kept exports of, once
for each path that it is the marked `module` of, and once for each call of it as a wrapper. -/

namespace ModuleLoader

namespace Pins

theorem count_adjust (pins : Pins) (change : Int) (v : Value) (id : ObjectId) :
    (pins.adjust change v).count id = pins.count id + change * ([v].count (.object id) : Int) := by
  cases v with
  | object other =>
    rw [count_adjust_object]
    by_cases h : id = other
    · simp [h]
    · simp [h, Ne.symm h]
  | _ => simp [adjust]

theorem count_protect (pins : Pins) (v : Value) (id : ObjectId) :
    (pins.protect v).count id = pins.count id + ([v].count (.object id) : Int) := by
  rw [protect, count_adjust]
  omega

theorem count_release (pins : Pins) (v : Value) (id : ObjectId) :
    (pins.release v).count id = pins.count id - ([v].count (.object id) : Int) := by
  rw [release, count_adjust]
  omega

end Pins

namespace Tables

/-- Whether every object is pinned as often as it is kept, marked and called. -/
def Balanced (t : Tables) (marks : List (Path × Value)) (wrappers : List Value) : Prop :=
  ∀ id, t.pins.count id = (t.cache.values.count (.object id) +
    (marks.map Prod.snd).count (.object id) + wrappers.count (.object id) : Nat)

namespace Balanced

variable {t : Tables} {marks : List (Path × Value)} {wrappers : List Value} {p : Path}
  {module wrapper : Value}

theorem count_cons (v x : Value) (vs : List Value) :
    (v :: vs).count x = [v].count x + vs.count x := by
  rw [← List.singleton_append, List.count_append]

theorem mark (h : Balanced t marks wrappers) (p : Path) (module : Value) :
    Balanced (t.mark p module) ((p, module) :: marks) wrappers := by
  intro id
  have hid := h id
  have hp : (t.mark p module).pins.count id = t.pins.count id + [module].count (.object id) :=
    Pins.count_protect t.pins module id
  have hc : (t.mark p module).cache = t.cache := rfl
  rw [hp, hc, List.map_cons, count_cons module _ (marks.map Prod.snd)]
  omega

theorem unmark (h : Balanced t ((p, module) :: marks) wrappers)
    (hf : t.loading.find? p = some module) : Balanced (t.unmark p) marks wrappers := by
  intro id
  have hid := h id
  have hp : (t.unmark p).pins.count id = t.pins.count id - [module].count (.object id) := by
    rw [Tables.unmark, hf]
    exact Pins.count_release t.pins module id
  have hc : (t.unmark p).cache = t.cache := rfl
  rw [List.map_cons, count_cons module] at hid
  rw [hp, hc]
  omega

theorem pin (h : Balanced t marks wrappers) (wrapper : Value) :
    Balanced (t.pin wrapper) marks (wrapper :: wrappers) := by
  intro id
  have hid := h id
  have hp : (t.pin wrapper).pins.count id = t.pins.count id + [wrapper].count (.object id) :=
    Pins.count_protect t.pins wrapper id
  have hc : (t.pin wrapper).cache = t.cache := rfl
  rw [hp, hc, count_cons wrapper _ wrappers]
  omega

theorem unpin (h : Balanced t marks (wrapper :: wrappers)) :
    Balanced (t.unpin wrapper) marks wrappers := by
  intro id
  have hid := h id
  have hp : (t.unpin wrapper).pins.count id = t.pins.count id - [wrapper].count (.object id) :=
    Pins.count_release t.pins wrapper id
  have hc : (t.unpin wrapper).cache = t.cache := rfl
  rw [count_cons wrapper] at hid
  rw [hp, hc]
  omega

/-- Kept exports are pinned in place of those kept before. -/
theorem keep (h : Balanced t marks wrappers) (p : Path) (exports : Value) :
    Balanced (t.keep p exports) marks wrappers := by
  intro id
  have hid := h id
  have hp : (t.keep p exports).pins.count id = t.pins.count id + [exports].count (.object id) -
      (t.cache.find? p).toList.count (.object id) := by
    rw [Tables.keep]
    cases t.cache.find? p with
    | none => simp [Pins.count_protect]
    | some previous =>
      have hr := Pins.count_release (t.pins.protect exports) previous id
      rw [Pins.count_protect] at hr
      exact hr
  have hv := t.cache.count_values_insert p exports (.object id)
  have hc : (t.keep p exports).cache = t.cache.insert p exports := rfl
  rw [hp, hc]
  omega

end Balanced

end Tables

/-! ## Runs -/

namespace Host

open HostM

variable {h : Host} {c c' : Moment}

theorem Effect.balanced (he : h.Effect c c') (hm : Marked c.state.registry.cache
    c.state.registry.loading c.marks) (hb : c.state.tables.Balanced c.marks c.wrappers) :
    c'.state.tables.Balanced c'.marks c'.wrappers := by
  unfold Moment.marks Moment.wrappers at hb ⊢
  unfold Moment.marks at hm
  cases he with
  | quiet he ha =>
    rw [he, ha]
    exact hb
  | beginJson _ he ha =>
    rw [he, ha]
    exact hb
  | beginScript _ _ _ he ha =>
    rw [he, ha]
    exact hb.mark _ _
  | compiled ha he ha' =>
    rw [ha] at hb
    rw [he, ha']
    exact hb.pin _
  | jsonFailed ha he =>
    rw [ha] at hb
    rw [he]
    exact hb
  | jsonKept ha he =>
    rw [ha] at hb
    rw [he]
    exact hb.keep _ _
  | @notCompiled d path module _ _ ha he =>
    rw [ha] at hb hm
    have hf : c.state.tables.loading.find? path = some module :=
      hm.find?_eq_some List.mem_cons_self
    rw [he]
    exact hb.unmark hf
  | @threw path module wrapper ha he =>
    rw [ha] at hb hm
    have hf : c.state.tables.loading.find? path = some module :=
      hm.find?_eq_some List.mem_cons_self
    rw [he]
    have hu : (c.state.tables.unpin wrapper).Balanced _ _ := hb.unpin
    exact hu.unmark hf
  | @completed path module wrapper exports ha he =>
    rw [ha] at hb hm
    have hf : c.state.tables.loading.find? path = some module :=
      hm.find?_eq_some List.mem_cons_self
    rw [he]
    have hu : (c.state.tables.unpin wrapper).Balanced _ _ := hb.unpin
    exact (hu.keep path exports).unmark hf

theorem Reaches.balanced {paths : List Path} (hc : h.Reaches paths c) :
    c.state.tables.Balanced c.marks c.wrappers := by
  induction hc with
  | initial => exact fun _ => rfl
  | next hc hn ih => exact hn.effect.1.balanced hc.sound.marked ih

theorem Reaches.count_pins {paths : List Path} (hc : h.Reaches paths c) (id : ObjectId) :
    c.state.pins.count id = (c.state.registry.cache.values.count (.object id) +
      c.state.registry.loading.values.count (.object id) + c.wrappers.count (.object id) : Nat) := by
  have hl : c.state.registry.loading.values = (c.marks.map Prod.snd).reverse := by
    rw [PathMap.values, hc.sound.marked.loading, List.map_reverse]
  rw [hl, List.count_reverse]
  exact hc.balanced id

/-- A load changes no pins but those of the exports that are kept. -/
theorem Reaches.count_pins_load {paths : List Path} (hc : h.Reaches paths c) {d : Nat} {path : Path}
    {format : ModuleFormat} (ht : c.task = .load d path format) (id : ObjectId) :
    let t := ((h.load (h.callWithin d) path format).run.run c.state).2
    t.pins.count id - c.state.pins.count id = (t.registry.cache.values.count (.object id) : Int) -
      c.state.registry.cache.values.count (.object id) := by
  intro t
  obtain ⟨task, ws, s⟩ := c
  obtain rfl : task = .load d path format := ht
  have hsteps : h.Steps _ _ := runs_load (runs_call d) path format ws s
  obtain ⟨paths', hc'⟩ := hc.later (.of_steps hsteps)
  -- Before and after the load the same evaluations are under way.
  have hbefore : s.tables.Balanced _ _ := hc.balanced
  have hafter : t.tables.Balanced (Moment.mk (.load d path format) ws s).marks
    (Moment.mk (.load d path format) ws s).wrappers := hc'.balanced
  have hp := hbefore id
  have hp' := hafter id
  have hs : t.tables.pins.count id - s.tables.pins.count id =
      (t.tables.cache.values.count (.object id) : Int) -
        s.tables.cache.values.count (.object id) := by
    rw [hp', hp]
    omega
  exact hs

theorem count_pins_forM_release (vs : List Value) (s : HostState) (id : ObjectId) :
    ((vs.forM release).run s).2.pins.count id =
      s.pins.count id - (vs.count (.object id) : Int) := by
  induction vs generalizing s with
  | nil =>
    have hr : (([] : List Value).forM release).run s = ((), s) := rfl
    rw [hr]
    simp
  | cons v rest ih =>
    have hr : ((v :: rest).forM release).run s =
        (rest.forM release).run { s with pins := s.pins.release v } := rfl
    rw [hr, ih, Pins.count_release, Tables.Balanced.count_cons v _ rest]
    omega

/-- Every object is pinned once for each file that it is the kept exports of, once for each file that
it is the marked `module` of, and once for each call of it that runs as a wrapper. So a load that
fails leaves no pin behind but for what was kept during it, and a host that ends leaves none. -/
theorem pins_balanced {paths : List Path} (hc : h.Reaches paths c) :
    (∀ id, c.state.pins.count id = (c.state.registry.cache.values.count (.object id) +
      c.state.registry.loading.values.count (.object id) + c.wrappers.count (.object id) : Nat)) ∧
    c.state.registry.cache.Distinct ∧ c.state.registry.loading.Distinct ∧
    (∀ id, 0 ≤ c.state.pins.count id) ∧
    (∀ d path format, c.task = .load d path format → ∀ id,
      let t := ((h.load (h.callWithin d) path format).run.run c.state).2
      t.pins.count id - c.state.pins.count id = (t.registry.cache.values.count (.object id) : Int) -
        c.state.registry.cache.values.count (.object id)) ∧
    (c.Idle → ∀ id, (shutDown.run c.state).2.pins.count id = 0) := by
  refine ⟨hc.count_pins, hc.sound.marked.cache, hc.sound.marked.distinct, fun id => ?_, ?_, ?_⟩
  · rw [hc.count_pins]
    exact Int.natCast_nonneg _
  · intro d path format ht id
    exact hc.count_pins_load ht id
  · intro hi id
    have hr : (shutDown.run c.state).2.pins =
        (((c.state.registry.cache.values ++ c.state.registry.loading.values).forM release).run
          c.state).2.pins := rfl
    have hw : c.wrappers = [] := by
      rw [Moment.wrappers, Moment.active, hi.1]
      rfl
    rw [hr, count_pins_forM_release, hc.count_pins, hw, List.count_append]
    simp

/-- The function around the single file is pinned as it runs. -/
theorem pins_balanced_single : ∃ paths c, single.Reaches paths c ∧
    c.wrappers = [.object 6] ∧ 1 ≤ c.state.pins.count 6 := by
  obtain ⟨paths, c, hc, hw⟩ : ∃ paths c, single.Reaches paths c ∧ c.wrappers = [.object 6] := by
    obtain ⟨paths, s, hc⟩ := exists_reaches_single
    exact ⟨paths, _, hc, rfl⟩
  refine ⟨paths, c, hc, hw, ?_⟩
  have hcount := (pins_balanced hc).1 6
  have hone : [Value.object 6].count (.object 6) = 1 := by decide
  rw [hw, hone] at hcount
  omega

end Host

end ModuleLoader
