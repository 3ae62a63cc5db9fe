import ModuleLoader.Proofs.Resolve.Outcome

/-! What a search records. Every search writes behind what stands in the trace: steps whose names are
known beforehand, and the paths that it tries as far as there is room for them. -/

namespace ModuleLoader

/-- Whether a trace goes on from another one by steps with names out of a list, in its order, and by
the paths of a list, of which only those are kept that there is room for. -/
structure Trace.Continues (names : List String) (paths : List Path) (s t : Trace) : Prop where
  steps : ∃ added, t.steps = s.steps ++ added ∧ (added.map TraceStep.step).Sublist names
  warnings : s.warnings <+: t.warnings
  tried : t.tried = s.tried ++ paths.take (triedLimit - s.tried.length)

namespace Trace.Continues

variable {names names' : List String} {paths paths' : List Path} {s t u : Trace}

theorem refl (t : Trace) : Continues [] [] t t where
  steps := ⟨[], by simp, List.Sublist.refl _⟩
  warnings := List.prefix_rfl
  tried := by simp

theorem trans (h : Continues names paths s t) (h' : Continues names' paths' t u) :
    Continues (names ++ names') (paths ++ paths') s u where
  steps := by
    obtain ⟨front, hfront, hn⟩ := h.steps
    obtain ⟨back, hback, hn'⟩ := h'.steps
    refine ⟨front ++ back, by rw [hback, hfront, List.append_assoc], ?_⟩
    rw [List.map_append]
    exact hn.append hn'
  warnings := h.warnings.trans h'.warnings
  tried := by
    -- Where the first list fills the record, nothing is left of the room for the second.
    have hroom : triedLimit - t.tried.length = triedLimit - s.tried.length - paths.length := by
      have hl := congrArg List.length h.tried
      rw [List.length_append, List.length_take] at hl
      omega
    rw [h'.tried, hroom, h.tried, List.append_assoc, List.take_append]

theorem mono (h : Continues names paths s t) (hn : names.Sublist names') :
    Continues names' paths s t := by
  obtain ⟨added, hs, ha⟩ := h.steps
  exact ⟨⟨added, hs, ha.trans hn⟩, h.warnings, h.tried⟩

theorem addStep (t : Trace) (step : TraceStep) : Continues [step.step] [] t (t.addStep step) where
  steps := ⟨[step], rfl, List.Sublist.refl _⟩
  warnings := List.prefix_rfl
  tried := by simp [Trace.addStep]

theorem addWarning (t : Trace) (code message : String) :
    Continues [] [] t (t.addWarning code message) where
  steps := ⟨[], by simp [Trace.addWarning], List.Sublist.refl _⟩
  warnings := List.prefix_append _ _
  tried := by simp [Trace.addWarning]

theorem addTried (t : Trace) (p : Path) : Continues [] [p] t (t.addTried p) := by
  unfold Trace.addTried
  split
  · next hlt =>
    obtain ⟨n, hn⟩ : ∃ n, triedLimit - t.tried.length = n + 1 :=
      ⟨triedLimit - t.tried.length - 1, by omega⟩
    exact ⟨⟨[], by simp, List.Sublist.refl _⟩, List.prefix_rfl, by simp [hn]⟩
  · next hge =>
    have hn : triedLimit - t.tried.length = 0 := by omega
    exact ⟨⟨[], by simp, List.Sublist.refl _⟩, List.prefix_rfl, by simp [hn]⟩

end Trace.Continues

theorem Observer.search_note {m : Type → Type} [Monad m] {σ : Type} (o : Observer m σ)
    (step : TraceStep) (s : SearchState) (w : σ) :
    o.search (Search.note step) s w =
      ((.ok (), { s with trace := s.trace.addStep step }), w) := o.search_modify s w _

namespace Search

variable {α β : Type}

/-- Whether a search that starts with one cache ends in an outcome with another cache, and in its
record goes on by steps with the given names and by the given paths. -/
def Tries (packages : PackageCache) (x : Search Id α) (names : List String) (paths : List Path)
    (outcome : Except ResolveError α) (packages' : PackageCache) : Prop :=
  ∀ s, s.packages = packages → ∃ t, Observer.plain.search x s () = ((outcome, t), ()) ∧
    t.packages = packages' ∧ s.trace.Continues names paths t.trace

section Tries

variable {a b c : PackageCache} {x : Search Id α} {y : Search Id β} {f : α → Search Id β}
  {names names' : List String} {paths paths' : List Path} {outcome : Except ResolveError β}

theorem tries_pure (v : α) (a : PackageCache) : Tries a (pure v) [] [] (.ok v) a := by
  rintro s rfl
  exact ⟨s, Observer.plain.search_pure s () v, rfl, .refl s.trace⟩

theorem tries_throw (e : ResolveError) (a : PackageCache) :
    Tries a (throw e : Search Id α) [] [] (.error e) a := by
  rintro s rfl
  exact ⟨s, Observer.plain.search_throw s () e, rfl, .refl s.trace⟩

theorem tries_note (step : TraceStep) (a : PackageCache) :
    Tries a (note step) [step.step] [] (.ok ()) a := by
  rintro s rfl
  exact ⟨_, Observer.plain.search_note step s (), rfl, .addStep s.trace step⟩

theorem tries_warn (code message : String) (a : PackageCache) :
    Tries a (warn code message) [] [] (.ok ()) a := by
  rintro s rfl
  exact ⟨_, Observer.plain.search_modify s () _, rfl, .addWarning s.trace code message⟩

theorem tries_tried (p : Path) (a : PackageCache) : Tries a (tried p) [] [p] (.ok ()) a := by
  rintro s rfl
  exact ⟨_, Observer.plain.search_modify s () _, rfl, .addTried s.trace p⟩

theorem tries_ask (answer : Id α) (a : PackageCache) :
    Tries a (ask answer) [] [] (.ok (Id.run answer)) a := by
  rintro s rfl
  exact ⟨s, Observer.plain.search_ask s () answer, rfl, .refl s.trace⟩

theorem tries_withPackages (look : StateT PackageCache Id α) (a : PackageCache) :
    Tries a (withPackages look) [] [] (.ok (look.run a).1) (look.run a).2 := by
  rintro s rfl
  exact ⟨_, Observer.plain.search_withPackages s () look, rfl, .refl s.trace⟩

theorem Tries.bind {v : α} (h : Tries a x names paths (.ok v) b)
    (hf : Tries b (f v) names' paths' outcome c) :
    Tries a (x >>= f) (names ++ names') (paths ++ paths') outcome c := by
  intro s hs
  obtain ⟨t, ht, htp, hst⟩ := h s hs
  obtain ⟨u, hu, hup, htu⟩ := hf t htp
  exact ⟨u, (Observer.plain.search_bind_of_ok s () ht).trans hu, hup, hst.trans htu⟩

/-- What follows may try nothing. -/
theorem Tries.bind_nil {v : α} (h : Tries a x names paths (.ok v) b)
    (hf : Tries b (f v) names' [] outcome c) :
    Tries a (x >>= f) (names ++ names') paths outcome c := by
  simpa using h.bind hf

theorem Tries.bind_error {e : ResolveError} (h : Tries a x names paths (.error e) b)
    (f : α → Search Id β) : Tries a (x >>= f) names paths (.error e) b := by
  intro s hs
  obtain ⟨t, ht, htp, hst⟩ := h s hs
  exact ⟨t, Observer.plain.search_bind_of_error s () ht, htp, hst⟩

theorem Tries.mono (h : Tries a y names paths outcome b) (hn : names.Sublist names') :
    Tries a y names' paths outcome b := by
  intro s hs
  obtain ⟨t, ht, htp, hst⟩ := h s hs
  exact ⟨t, ht, htp, hst.mono hn⟩

theorem Tries.afterNote (h : Tries a y names paths outcome b) (step : TraceStep) :
    Tries a (note step >>= fun _ => y) (step.step :: names) paths outcome b :=
  (tries_note step a).bind h

theorem Tries.afterWarn (h : Tries a y names paths outcome b) (code message : String) :
    Tries a (warn code message >>= fun _ => y) names paths outcome b :=
  (tries_warn code message a).bind h

theorem Tries.afterTried (h : Tries a y names paths outcome b) (p : Path) :
    Tries a (tried p >>= fun _ => y) names (p :: paths) outcome b :=
  (tries_tried p a).bind h

theorem Tries.afterAsk {answer : Id α} (hf : Tries a (f (Id.run answer)) names paths outcome b) :
    Tries a (ask answer >>= f) names paths outcome b :=
  (tries_ask answer a).bind hf

/-- What a search ends in, its record left out. -/
theorem Tries.ends (h : Tries a y names paths outcome b) : Ends a y outcome b := by
  intro s hs
  obtain ⟨t, ht, htp, -⟩ := h s hs
  exact ⟨t, ht, htp⟩

theorem gives_of_tries (h : ∀ a, Tries a y names paths outcome a) : Gives y outcome :=
  fun s => (h s.packages).ends s rfl

end Tries

/-! ## Searches for a file -/

/-- Whether a search for a file goes on by the given paths and only answers with one of them, unless
it has warned that it took a bare specifier for the path of a bundle file. -/
def Finds (packages : PackageCache) (x : Search Id Path) (names : List String)
    (paths : List Path) : Prop :=
  ∃ outcome packages', ∀ s, s.packages = packages →
    ∃ t, Observer.plain.search x s () = ((outcome, t), ()) ∧ t.packages = packages' ∧
      s.trace.Continues names paths t.trace ∧
      ∀ file, outcome = .ok file →
        file ∈ paths ∨ t.trace.hasWarning TraceWarning.bundleBarePath = true

section Finds

variable {α : Type} {a b : PackageCache} {x : Search Id α} {y : Search Id Path}
  {f : α → Search Id Path} {names names' : List String} {paths paths' : List Path}

theorem finds_of_tries {outcome : Except ResolveError Path} (h : Tries a y names paths outcome b)
    (hm : ∀ file, outcome = .ok file → file ∈ paths) : Finds a y names paths := by
  refine ⟨outcome, b, fun s hs => ?_⟩
  obtain ⟨t, ht, htp, hst⟩ := h s hs
  exact ⟨t, ht, htp, hst, fun file he => .inl (hm file he)⟩

theorem finds_of_found {file : Path} (h : Tries a y names paths (.ok file) b) (hm : file ∈ paths) :
    Finds a y names paths := by
  refine finds_of_tries h ?_
  rintro _ ⟨⟩
  exact hm

theorem finds_of_error {e : ResolveError} (h : Tries a y names paths (.error e) b) :
    Finds a y names paths := finds_of_tries h fun _ he => by cases he

theorem finds_throw (e : ResolveError) (a : PackageCache) : Finds a (throw e) [] [] :=
  finds_of_error (tries_throw e a)

theorem finds_bind {v : α} (h : Tries a x names paths (.ok v) b)
    (hf : Finds b (f v) names' paths') : Finds a (x >>= f) (names ++ names') (paths ++ paths') := by
  obtain ⟨outcome, c, hc⟩ := hf
  refine ⟨outcome, c, fun s hs => ?_⟩
  obtain ⟨t, ht, htp, hst⟩ := h s hs
  obtain ⟨u, hu, hup, htu, hm⟩ := hc t htp
  refine ⟨u, (Observer.plain.search_bind_of_ok s () ht).trans hu, hup, hst.trans htu, ?_⟩
  exact fun file he => (hm file he).imp_left (List.mem_append_right _)

theorem Finds.mono (h : Finds a y names paths) (hn : names.Sublist names') :
    Finds a y names' paths := by
  obtain ⟨outcome, b, hb⟩ := h
  refine ⟨outcome, b, fun s hs => ?_⟩
  obtain ⟨t, ht, htp, hst, hm⟩ := hb s hs
  exact ⟨t, ht, htp, hst.mono hn, hm⟩

theorem Finds.afterNote (h : Finds a y names paths) (step : TraceStep) :
    Finds a (note step >>= fun _ => y) (step.step :: names) paths :=
  finds_bind (tries_note step a) h

theorem Finds.afterWarn (h : Finds a y names paths) (code message : String) :
    Finds a (warn code message >>= fun _ => y) names paths :=
  finds_bind (tries_warn code message a) h

end Finds

end Search

end ModuleLoader
