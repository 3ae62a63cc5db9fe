import Mathlib.Data.List.Nodup
import Mathlib.Data.List.Perm.Basic
import Mathlib.Logic.Relation
import ModuleLoader.Package.Target
import ModuleLoader.Proofs.Json.Members

/-! Trees of targets read as lists. A tree is tried as the list of its strings, in the order in which
fallback lists and conditions lead to them. Keys that are no conditions are not in this list, and the
order of keys is not in it either. -/

namespace ModuleLoader

/-- What passes from the trees right below a tree to the tree itself holds of all trees. -/
@[elab_as_elim]
theorem Json.induction {motive : Json → Prop} (null : motive .null)
    (bool : ∀ b, motive (.bool b)) (number : ∀ x, motive (.number x))
    (string : ∀ s, motive (.string s))
    (array : ∀ items, (∀ item ∈ items, motive item) → motive (.array items))
    (object : ∀ members : Members Json,
      (∀ entry ∈ members.entries, motive entry.2) → motive (.object members)) :
    ∀ tree, motive tree
  | .null => null
  | .bool b => bool b
  | .number x => number x
  | .string s => string s
  | .array items => array items fun item _ =>
    Json.induction null bool number string array object item
  | .object members => object members fun entry _ =>
    Json.induction null bool number string array object entry.2
termination_by tree => sizeOf tree
decreasing_by
  · have h := List.sizeOf_lt_of_mem ‹item ∈ items›
    simp only [Json.array.sizeOf_spec]
    omega
  · obtain ⟨entries⟩ := members
    obtain ⟨key, value⟩ := entry
    have h := List.sizeOf_lt_of_mem ‹(key, value) ∈ entries›
    simp only [Json.object.sizeOf_spec, Members.mk.sizeOf_spec, Prod.mk.sizeOf_spec] at h ⊢
    omega

namespace Target

variable {conditions : List String} {field : TargetField} {subpath : String}

/-! ## Leaves -/

mutual

/-- The strings of a tree in the order in which they are tried, each with the innermost condition on
the way to it. The condition given is that above the tree. -/
def leaves (conditions : List String) (above : Option String) : Json → List Leaf
  | .string target => [⟨target, above⟩]
  | .array items => itemLeaves conditions above items
  | .object ⟨entries⟩ =>
    conditions.flatMap fun c => ((memberLeaves conditions entries).lookup c).getD []
  | _ => []

def itemLeaves (conditions : List String) (above : Option String) : List Json → List Leaf
  | [] => []
  | item :: rest => leaves conditions above item ++ itemLeaves conditions above rest

def memberLeaves (conditions : List String) :
    List (String × Json) → List (String × List Leaf)
  | [] => []
  | (key, value) :: rest => (key, leaves conditions (some key) value) :: memberLeaves conditions rest

end

theorem itemLeaves_eq (conditions : List String) (above : Option String) (items : List Json) :
    itemLeaves conditions above items = items.flatMap (leaves conditions above) := by
  induction items with
  | nil => rfl
  | cons item rest ih => simp [itemLeaves, ih]

theorem memberLeaves_eq (conditions : List String) (entries : List (String × Json)) :
    memberLeaves conditions entries =
      entries.map fun entry => (entry.1, leaves conditions (some entry.1) entry.2) := by
  induction entries with
  | nil => rfl
  | cons entry rest ih => simp [memberLeaves, ih]

theorem leaves_array (conditions : List String) (above : Option String) (items : List Json) :
    leaves conditions above (.array items) = items.flatMap (leaves conditions above) := by
  rw [leaves, itemLeaves_eq]

/-- The leaves of an object are those of the conditions that it has, in the order of the list. -/
theorem leaves_object (conditions : List String) (above : Option String) (members : Members Json) :
    leaves conditions above (.object members) =
      conditions.flatMap fun c => ((members.get? c).map (leaves conditions (some c))).getD [] := by
  obtain ⟨entries⟩ := members
  have hl := Members.lookup_map (fun key => leaves conditions (some key)) entries
  simp only [leaves, memberLeaves_eq, hl, Members.get?]

/-- Whether a leaf answers to a subpath. The package itself is answered by all. -/
def answers (subpath : String) (leaf : Leaf) : Bool := subpath == "." || leaf.target == subpath

/-- The first permitted leaf of a list, else an error about the last leaf, else nothing. -/
def firstPermitted (field : TargetField) (list : List Leaf) : Outcome :=
  match list.find? fun leaf => isPermitted field leaf.target with
  | some leaf => .ok (some leaf)
  | none =>
    match list.getLast? with
    | some last => .error (.invalid last.target)
    | none => .ok none

/-! ## Lists of leaves -/

/-- An outcome after an error that something found later makes up for. -/
def otherwise (last : Option TargetError) : Outcome → Outcome
  | .ok none => last.elim (.ok none) .error
  | outcome => outcome

theorem otherwise_none (outcome : Outcome) : otherwise none outcome = outcome := by
  rcases outcome with _ | _ | leaf <;> rfl

theorem otherwise_otherwise (last : Option TargetError) (e : TargetError) (outcome : Outcome) :
    otherwise last (otherwise (some e) outcome) = otherwise (some e) outcome := by
  rcases outcome with _ | _ | leaf <;> rfl

theorem firstPermitted_append (front back : List Leaf) :
    firstPermitted field (front ++ back) =
      match firstPermitted field front with
      | .ok (some leaf) => .ok (some leaf)
      | .ok none => firstPermitted field back
      | .error e => otherwise (some e) (firstPermitted field back) := by
  cases hf : front.find? fun leaf => isPermitted field leaf.target with
  | some leaf => simp [firstPermitted, hf]
  | none =>
    cases hl : front.getLast? with
    | none =>
      obtain rfl : front = [] := List.getLast?_eq_none_iff.mp hl
      simp [firstPermitted]
    | some last =>
      have hfront : firstPermitted field front = .error (.invalid last.target) := by
        simp [firstPermitted, hf, hl]
      rw [hfront]
      cases hb : back.find? fun leaf => isPermitted field leaf.target with
      | some leaf => simp [firstPermitted, hf, hb, otherwise]
      | none =>
        cases hlast : back.getLast? with
        | none => simp [firstPermitted, hf, hl, hb, hlast, otherwise]
        | some final => simp [firstPermitted, hf, hb, hlast, otherwise]

/-- The outcomes of lists come to the outcome of the lists one after the other. -/
theorem firstLeaf_firstPermitted (last : Option TargetError) (lists : List (List Leaf)) :
    firstLeaf last (lists.map (firstPermitted field)) =
      otherwise last (firstPermitted field lists.flatten) := by
  induction lists generalizing last with
  | nil => cases last <;> rfl
  | cons list rest ih =>
    rw [List.map_cons, List.flatten_cons, firstPermitted_append]
    cases firstPermitted field list with
    | error e =>
      have hr : firstLeaf last (.error e :: rest.map (firstPermitted field)) =
          firstLeaf (some e) (rest.map (firstPermitted field)) := by cases last <;> rfl
      rw [hr, ih, otherwise_otherwise]
    | ok leaf? =>
      cases leaf? with
      | none =>
        have hr : firstLeaf last (.ok none :: rest.map (firstPermitted field)) =
            firstLeaf last (rest.map (firstPermitted field)) := by cases last <;> rfl
        rw [hr, ih]
      | some leaf => cases last <;> rfl

/-! ## Conditions on the way -/

def Leaf.mark (condition : String) (leaf : Leaf) : Leaf :=
  { leaf with condition := leaf.condition.or (some condition) }

theorem map_mark_leaves (condition : String) (above : Option String) (tree : Json) :
    (leaves conditions above tree).map (Leaf.mark condition) =
      leaves conditions (above.or (some condition)) tree := by
  induction tree using Json.induction generalizing above with
  | null | bool | number => rfl
  | string target => rfl
  | array items ih =>
    rw [leaves_array, leaves_array, List.map_flatMap]
    exact List.flatMap_congr fun item hm => ih item hm above
  | object members ih =>
    rw [leaves_object, leaves_object, List.map_flatMap]
    refine List.flatMap_congr fun c _ => ?_
    cases hc : members.get? c with
    | none => rfl
    | some value =>
      exact ih _ (Members.mem_of_get?_eq_some hc) (some c)

theorem under_firstPermitted (condition : String) (list : List Leaf) :
    under condition (firstPermitted field list) =
      firstPermitted field (list.map (Leaf.mark condition)) := by
  have hp : (fun leaf => isPermitted field leaf.target) ∘ Leaf.mark condition =
      fun leaf => isPermitted field leaf.target := rfl
  simp only [firstPermitted, List.find?_map, hp, List.getLast?_map]
  cases list.find? fun leaf => isPermitted field leaf.target with
  | some leaf => rfl
  | none => cases list.getLast? <;> rfl

/-! ## Evaluation -/

theorem evaluateItems_eq (items : List Json) :
    evaluateItems conditions field subpath items =
      items.map (evaluate conditions field subpath) := by
  induction items with
  | nil => rfl
  | cons item rest ih => simp [evaluateItems, ih]

theorem evaluateMembers_eq (entries : List (String × Json)) :
    evaluateMembers conditions field subpath entries =
      entries.map fun entry => (entry.1, evaluate conditions field subpath entry.2) := by
  induction entries with
  | nil => rfl
  | cons entry rest ih => simp [evaluateMembers, ih]

/-- The leaves of a tree that answer to a subpath. -/
def answering (conditions : List String) (subpath : String) (tree : Json) : List Leaf :=
  (leaves conditions none tree).filter (answers subpath)

theorem answering_array (items : List Json) :
    answering conditions subpath (.array items) = items.flatMap (answering conditions subpath) := by
  rw [answering, leaves_array, List.filter_flatMap]
  rfl

theorem map_mark_answering (condition : String) (tree : Json) :
    (answering conditions subpath tree).map (Leaf.mark condition) =
      (leaves conditions (some condition) tree).filter (answers subpath) := by
  have ha : answers subpath ∘ Leaf.mark condition = answers subpath := rfl
  have hm : (leaves conditions none tree).map (Leaf.mark condition) =
      leaves conditions (some condition) tree := map_mark_leaves condition none tree
  rw [← hm, List.filter_map, ha, answering]

theorem answering_object (members : Members Json) :
    answering conditions subpath (.object members) =
      conditions.flatMap fun c => ((members.get? c).map fun value =>
        (answering conditions subpath value).map (Leaf.mark c)).getD [] := by
  rw [answering, leaves_object, List.filter_flatMap]
  refine List.flatMap_congr fun c _ => ?_
  cases members.get? c with
  | none => rfl
  | some value => exact (map_mark_answering c value).symm

theorem evaluateLeaf_eq (target : String) :
    evaluateLeaf field subpath target =
      firstPermitted field (answering conditions subpath (.string target)) := by
  by_cases hs : subpath = "." ∨ target = subpath
  · have ha : answers subpath ⟨target, none⟩ = true := by simpa [answers] using hs
    have hother : subpath ≠ "." → subpath = target := fun hd => (hs.resolve_left hd).symm
    by_cases hp : isPermitted field target = true
    · simpa [evaluateLeaf, hp, answering, leaves, ha, firstPermitted] using hother
    · simpa [evaluateLeaf, hp, answering, leaves, ha, firstPermitted] using hother
  · have ha : answers subpath ⟨target, none⟩ = false := by simpa [answers] using hs
    obtain ⟨hd, ht⟩ := not_or.mp hs
    simp [evaluateLeaf, hd, Ne.symm ht, answering, leaves, ha, firstPermitted]

theorem flatten_filterMap {α β : Type} (f : α → Option (List β)) (l : List α) :
    (l.filterMap f).flatten = l.flatMap fun x => (f x).getD [] := by
  induction l with
  | nil => rfl
  | cons x l ih => cases hx : f x <;> simp [hx, ih]

/-- A tree is evaluated to the first permitted of the leaves that answer to the subpath. -/
theorem evaluate_eq_firstPermitted (tree : Json) :
    evaluate conditions field subpath tree =
      firstPermitted field (answering conditions subpath tree) := by
  induction tree using Json.induction with
  | null | bool | number => rfl
  | string target =>
    rw [evaluate]
    exact evaluateLeaf_eq target
  | array items ih =>
    have hitems : items.map (evaluate conditions field subpath) =
        (items.map (answering conditions subpath)).map (firstPermitted field) := by
      rw [List.map_map]
      exact List.map_congr_left ih
    rw [evaluate, evaluateItems_eq, hitems, firstLeaf_firstPermitted, otherwise_none,
      ← List.flatMap_def, answering_array]
  | object members ih =>
    obtain ⟨entries⟩ := members
    let marked (c : String) : Option (List Leaf) := (entries.lookup c).map fun value =>
      (answering conditions subpath value).map (Leaf.mark c)
    have hmembers : (conditions.filterMap fun c =>
        ((evaluateMembers conditions field subpath entries).lookup c).map (under c)) =
          (conditions.filterMap marked).map (firstPermitted field) := by
      rw [List.map_filterMap]
      refine List.filterMap_congr fun c _ => ?_
      have hl := Members.lookup_map (fun _ => evaluate conditions field subpath) entries c
      rw [evaluateMembers_eq, hl]
      cases hc : entries.lookup c with
      | none => simp [marked, hc]
      | some value =>
        have hv := ih (c, value) (Members.mem_of_get?_eq_some (m := ⟨entries⟩) hc)
        simp [marked, hc, hv, under_firstPermitted]
    rw [evaluate, hmembers, firstLeaf_firstPermitted, otherwise_none, flatten_filterMap, answering_object]
    rfl

/-- Whatever the tree looks like, what it comes to is permitted. -/
theorem isPermitted_of_evaluate {tree : Json} {leaf : Leaf}
    (h : evaluate conditions field subpath tree = .ok (some leaf)) :
    isPermitted field leaf.target = true := by
  rw [evaluate_eq_firstPermitted, firstPermitted] at h
  split at h
  · next found hfound =>
    obtain rfl := Option.some.inj (Except.ok.inj h)
    simpa using List.find?_some hfound
  · split at h <;> cases h

/-! ## Changes that make no difference -/

/-- A tree with the keys of one of its objects in another order, or without a key that is no
condition. -/
inductive Rekeyed (conditions : List String) : Json → Json → Prop where
  | reordered {es fs} (hd : (es.map Prod.fst).Nodup) (hp : es.Perm fs) :
    Rekeyed conditions (.object ⟨es⟩) (.object ⟨fs⟩)
  | dropped {front key value back} (hk : key ∉ conditions) :
    Rekeyed conditions (.object ⟨front ++ (key, value) :: back⟩) (.object ⟨front ++ back⟩)
  | item {front item item' back} (h : Rekeyed conditions item item') :
    Rekeyed conditions (.array (front ++ item :: back)) (.array (front ++ item' :: back))
  | member {front key value value' back} (h : Rekeyed conditions value value') :
    Rekeyed conditions (.object ⟨front ++ (key, value) :: back⟩)
      (.object ⟨front ++ (key, value') :: back⟩)

theorem Rekeyed.leaves_eq {tree tree' : Json} (h : Rekeyed conditions tree tree')
    (above : Option String) : leaves conditions above tree = leaves conditions above tree' := by
  induction h generalizing above with
  | reordered hd hp =>
    simp only [leaves_object, Members.get?, Members.lookup_of_perm hd hp]
  | @dropped front key value back hk =>
    rw [leaves_object, leaves_object]
    refine List.flatMap_congr fun c hc => ?_
    have hne : (c == key) = false := by
      simp only [beq_eq_false_iff_ne]
      rintro rfl
      exact hk hc
    simp [Members.get?, List.lookup_append, List.lookup_cons, hne]
  | item h ih => simp [leaves_array, ih above]
  | @member front key value value' back h ih =>
    rw [leaves_object, leaves_object]
    refine List.flatMap_congr fun c _ => ?_
    by_cases hc : c = key
    · cases hf : front.lookup key <;> simp [Members.get?, List.lookup_append, hc, hf, ih]
    · have hk : (c == key) = false := by simpa using hc
      simp [Members.get?, List.lookup_append, List.lookup_cons, hk]

/-- A tree comes to the first permitted of those of its leaves that answer to the subpath, else to an
error about the last of them, else to nothing. So keys may be put in another order, and keys that are
no conditions may come and go, anywhere in the tree. -/
theorem evaluate_reads_leaves (conditions : List String) (field : TargetField) (subpath : String)
    (tree : Json) :
    evaluate conditions field subpath tree =
        firstPermitted field ((leaves conditions none tree).filter (answers subpath)) ∧
      ∀ tree', Relation.EqvGen (Rekeyed conditions) tree tree' →
        evaluate conditions field subpath tree' = evaluate conditions field subpath tree := by
  refine ⟨evaluate_eq_firstPermitted tree, fun tree' h => ?_⟩
  rw [evaluate_eq_firstPermitted, evaluate_eq_firstPermitted, answering, answering]
  have hl : leaves conditions none tree = leaves conditions none tree' := by
    induction h with
    | rel _ _ h => exact h.leaves_eq none
    | refl => rfl
    | symm _ _ _ ih => exact ih.symm
    | trans _ _ _ _ _ ih ih' => exact ih.trans ih'
  rw [hl]

/-- A condition inside of a condition, with a target that is not permitted before the one that is. -/
theorem evaluate_reads_leaves_nested :
    let node : Json := .object ⟨[("import", .array [.string "n.mjs", .null, .string "./n.mjs"])]⟩
    let tree : Json := .object ⟨[("default", .string "./d.js"), ("browser", .string "./b.js"),
      ("node", node)]⟩
    let tree' : Json := .object ⟨[("node", node), ("default", .string "./d.js")]⟩
    let conditions := ["import", "node", "default"]
    Relation.EqvGen (Rekeyed conditions) tree tree' ∧
      evaluate conditions .exports "." tree' = .ok (some ⟨"./n.mjs", some "import"⟩) := by
  intro node tree tree' conditions
  have hdropped : Rekeyed conditions tree (.object ⟨[("default", .string "./d.js"), ("node", node)]⟩) :=
    @Rekeyed.dropped conditions [("default", .string "./d.js")] _ _ _ (by decide)
  have hreordered : Rekeyed conditions (.object ⟨[("default", .string "./d.js"), ("node", node)]⟩)
      tree' := .reordered (by decide) (List.Perm.swap _ _ _)
  have h : Relation.EqvGen (Rekeyed conditions) tree tree' :=
    .trans _ _ _ (.rel _ _ hdropped) (.rel _ _ hreordered)
  have hv : evaluate conditions .exports "." tree = .ok (some ⟨"./n.mjs", some "import"⟩) := by
    decide +kernel
  exact ⟨h, ((evaluate_reads_leaves conditions .exports "." tree).2 tree' h).trans hv⟩

end Target

end ModuleLoader
