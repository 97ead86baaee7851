import FastGoZero.Search.Tree

/-!
# The items of a search tree

What a tree holds is the function from the keys on the way to a node to the item of the node. An
`Add` that succeeds changes this function at the segments of its route, where there was no item;
one that fails may leave new nodes behind, but no item.
-/

namespace FastGoZero.Search

open Lib List

universe u
variable {I : Type u}

/-- The segments of a route or path; the empty one after a slash at its end is left out. -/
def trim (token : Str) : List Str → List Str
  | [] => if token = [] then [] else [token]
  | next :: rest => token :: trim next rest

namespace Node

/-- The item of the node that the keys lead to. -/
def itemAt (nd : Node I) : List Str → Option I
  | [] => nd.item
  | k :: rest =>
    match (nd.getChildren k).dlookup k with
    | none => none
    | some child => child.itemAt rest

/-- The maps have distinct keys, each in its own map and none empty. -/
inductive Valid : Node I → Prop
  | mk {nd : Node I} (distinctStatics : nd.statics.NodupKeys) (distinctNamed : nd.named.NodupKeys)
      (statics : ∀ c ∈ nd.statics, c.1 ≠ [] ∧ isNamed c.1 = false)
      (named : ∀ c ∈ nd.named, isNamed c.1 = true)
      (staticsValid : ∀ c ∈ nd.statics, Valid c.2) (namedValid : ∀ c ∈ nd.named, Valid c.2) :
      Valid nd

variable {key token : Str}

theorem ne_nil_of_isNamed (named : isNamed key = true) : key ≠ [] := by
  intro empty
  subst empty
  exact Bool.false_ne_true named

theorem valid_newNode (item : Option I) : (newNode item).Valid :=
  .mk nodupKeys_nil nodupKeys_nil (by simp [newNode]) (by simp [newNode])
    (by simp [newNode]) (by simp [newNode])

theorem itemAt_newNode (item : Option I) (keys : List Str) :
    (newNode item).itemAt keys = if keys = [] then item else none := by
  cases keys with
  | nil => rfl
  | cons k rest =>
    have empty : (newNode item).getChildren k = [] := by
      rw [getChildren]
      split <;> rfl
    rw [itemAt, empty, if_neg (cons_ne_nil k rest)]
    rfl

@[simp] theorem item_setChild (nd : Node I) (token : Str) (child : Node I) :
    (nd.setChild token child).item = nd.item := by
  rw [setChild]
  split <;> rfl

/-- A child that is stored is read at its own key only. -/
theorem dlookup_setChild (nd : Node I) (token key : Str) (child : Node I) :
    ((nd.setChild token child).getChildren key).dlookup key =
      if key = token then some child else (nd.getChildren key).dlookup key := by
  by_cases same : key = token
  · subst same
    rw [if_pos rfl, setChild, getChildren]
    cases isNamed key <;> exact dlookup_kinsert _
  · rw [if_neg same, setChild, getChildren, getChildren]
    cases isNamed key <;> cases isNamed token <;> first | rfl | exact dlookup_kinsert_ne same

theorem forall_kinsert {children : Children I} {child : Node I}
    {p : (Sigma fun _ : Str => Node I) → Prop} (new : p ⟨token, child⟩)
    (old : ∀ c ∈ children, p c) : ∀ c ∈ children.kinsert token child, p c := by
  rw [kinsert_def, forall_mem_cons]
  exact ⟨new, fun c mem => old c ((kerase_sublist token children).subset mem)⟩

variable {nd : Node I}

theorem Valid.setChild (valid : nd.Valid) {child : Node I} (nonempty : token ≠ [])
    (childValid : child.Valid) : (nd.setChild token child).Valid := by
  cases valid with
  | mk distinctStatics distinctNamed statics named staticsValid namedValid =>
    rw [Node.setChild]
    split
    · rename_i isNamed
      exact .mk distinctStatics (kinsert_nodupKeys _ _ distinctNamed) statics
        (forall_kinsert isNamed named) staticsValid (forall_kinsert childValid namedValid)
    · rename_i isStatic
      exact .mk (kinsert_nodupKeys _ _ distinctStatics) distinctNamed
        (forall_kinsert ⟨nonempty, Bool.eq_false_iff.mpr isStatic⟩ statics) named
        (forall_kinsert childValid staticsValid) namedValid

theorem Valid.child (valid : nd.Valid) {child : Node I}
    (found : (nd.getChildren key).dlookup key = some child) : child.Valid := by
  cases valid with
  | mk distinctStatics distinctNamed statics named staticsValid namedValid =>
    rw [getChildren] at found
    split at found
    · exact namedValid _ (of_mem_dlookup found)
    · exact staticsValid _ (of_mem_dlookup found)

theorem itemAt_cons_of_some {child : Node I} (keys : List Str)
    (found : (nd.getChildren key).dlookup key = some child) :
    nd.itemAt (key :: keys) = child.itemAt keys := by
  rw [itemAt, found]

theorem itemAt_cons_of_none (keys : List Str)
    (absent : (nd.getChildren key).dlookup key = none) : nd.itemAt (key :: keys) = none := by
  rw [itemAt, absent]

/-- What is read below a key before `children[key]` is made, if it is absent. -/
theorem itemAt_getD (nd : Node I) (key : Str) (keys : List Str) :
    (((nd.getChildren key).dlookup key).getD (newNode none)).itemAt keys =
      nd.itemAt (key :: keys) := by
  cases found : (nd.getChildren key).dlookup key with
  | none =>
    rw [Option.getD_none, itemAt_newNode, itemAt_cons_of_none keys found]
    split <;> rfl
  | some child => rw [Option.getD_some, itemAt_cons_of_some keys found]

theorem itemAt_setChild_cons (nd : Node I) (token key : Str) (child : Node I) (keys : List Str) :
    (nd.setChild token child).itemAt (key :: keys) =
      if key = token then child.itemAt keys else nd.itemAt (key :: keys) := by
  rw [itemAt, dlookup_setChild]
  by_cases same : key = token
  · rw [if_pos same, if_pos same]
  · rw [if_neg same, if_neg same]
    rfl

theorem itemAt_setItem (nd : Node I) (item : Option I) (probe : List Str) :
    ({ nd with item := item } : Node I).itemAt probe =
      if probe = [] then item else nd.itemAt probe := by
  cases probe with
  | nil => rfl
  | cons key keys =>
    rw [if_neg (cons_ne_nil key keys)]
    rfl

/-- The item at the last segment of a route, for a child that is stored or new. -/
theorem itemAt_setLast {child : Node I}
    (same : ∀ keys, child.itemAt keys = nd.itemAt (token :: keys)) (item : I)
    (probe : List Str) : (nd.setChild token { child with item := some item }).itemAt probe =
      if probe = [token] then some item else nd.itemAt probe := by
  cases probe with
  | nil => exact item_setChild nd token _
  | cons key keys =>
    rw [itemAt_setChild_cons]
    by_cases at_token : key = token
    · subst at_token
      rw [itemAt_setItem, same]
      by_cases last : keys = []
      · simp
      · simp [last]
    · simp [at_token]

/-- A success sets the item at the segments of the route; a failure sets no item. -/
theorem itemAt_add (nd : Node I) (token : Str) (rest : List Str) (item : I) (probe : List Str) :
    (nd.add token rest item).1.itemAt probe =
      if (nd.add token rest item).2 = none ∧ probe = trim token rest then some item
      else nd.itemAt probe := by
  fun_induction add nd token rest item generalizing probe with
  | case1 | case3 | case6 => simp
  | case2 =>
    rw [itemAt_setItem]
    simp [trim]
  | case4 nd token item nonempty child found =>
    rw [itemAt_setLast fun keys => (itemAt_cons_of_some keys found).symm]
    simp [trim, nonempty]
  | case5 nd token item nonempty found =>
    have absent (keys : List Str) : (newNode none).itemAt keys = nd.itemAt (token :: keys) := by
      rw [← itemAt_getD, found, Option.getD_none]
    simp only [trim, nonempty, if_false, true_and]
    exact itemAt_setLast absent item probe
  | case7 nd token next rest item _ child after failure added ih =>
    cases probe with
    | nil => simp [itemAt, trim]
    | cons key keys =>
      rw [itemAt_setChild_cons, trim]
      by_cases at_token : key = token
      · subst at_token
        simp only [added] at ih
        simp only [if_true, ih, child, itemAt_getD, cons.injEq, true_and]
      · simp [at_token]

theorem itemAt_of_add (nd : Node I) (token : Str) (rest : List Str) (item : I)
    (added : (nd.add token rest item).2 = none) : nd.itemAt (trim token rest) = none := by
  fun_induction add nd token rest item with
  | case1 | case3 | case6 => cases added
  | case2 nd item free => simpa [trim, itemAt] using free
  | case4 nd token item nonempty child found free =>
    rw [trim, if_neg nonempty, itemAt_cons_of_some [] found]
    simpa [itemAt] using free
  | case5 nd token item nonempty found =>
    rw [trim, if_neg nonempty]
    exact itemAt_cons_of_none [] found
  | case7 nd token next rest item _ child after failure result ih =>
    rw [trim, ← itemAt_getD]
    exact ih (by rw [result]; exact added)

theorem Valid.setItem (valid : nd.Valid) (item : Option I) :
    ({ nd with item := item } : Node I).Valid := by
  cases valid with
  | mk distinctStatics distinctNamed statics named staticsValid namedValid =>
    exact .mk distinctStatics distinctNamed statics named staticsValid namedValid

theorem Valid.add (valid : nd.Valid) (token : Str) (rest : List Str) (item : I) :
    (nd.add token rest item).1.Valid := by
  fun_induction Node.add nd token rest item with
  | case1 | case3 | case6 => exact valid
  | case2 => exact valid.setItem _
  | case4 _ _ _ nonempty _ found =>
    exact valid.setChild nonempty ((valid.child found).setItem _)
  | case5 _ _ _ nonempty => exact valid.setChild nonempty (valid_newNode _)
  | case7 nd token next rest item nonempty child after failure result ih =>
    have added : ((child.add next rest item).1).Valid := by
      apply ih
      cases found : (nd.getChildren token).dlookup token with
      | none => simpa [child, found] using valid_newNode none
      | some old => simpa [child, found] using valid.child found
    rw [result] at added
    exact valid.setChild nonempty added

end Node

/-- The segments of a route that begins with a slash. -/
def segments (route : Str) : List Str :=
  trim (split route.tail).1 (split route.tail).2

namespace Tree

/-- The tree after a sequence of calls of `Add`. -/
def after (t : Tree I) : List (Str × Option I) → Tree I
  | [] => t
  | (route, item) :: calls => (t.add route item).1.after calls

/-- The routes whose calls of `Add` succeed, with their items. -/
def added (t : Tree I) : List (Str × Option I) → List (Str × I)
  | [] => []
  | (route, item) :: calls =>
    (if (t.add route item).2 = none then item.toList.map fun value => (route, value) else []) ++
      (t.add route item).1.added calls

/-- The tree holds the items of these routes and no others. -/
structure Holds (t : Tree I) (routes : List (Str × I)) : Prop where
  valid : t.root.Valid
  itemAt_iff : ∀ keys item,
    t.root.itemAt keys = some item ↔ ∃ route, (route, item) ∈ routes ∧ segments route = keys
  rooted : ∀ entry ∈ routes, entry.1.head? = some slash

theorem holds_newTree : (newTree : Tree I).Holds [] where
  valid := Node.valid_newNode none
  itemAt_iff keys item := by
    have none : (newTree : Tree I).root.itemAt keys = none := by
      rw [newTree, Node.itemAt_newNode]
      split <;> rfl
    simp [none]
  rooted := by simp

/-- What one call of `Add` does. -/
theorem add_cases (t : Tree I) (route : Str) (item : Option I) :
    ((t.add route item).2 ≠ none ∧ (t.root.Valid → (t.add route item).1.root.Valid) ∧
        ∀ keys, (t.add route item).1.root.itemAt keys = t.root.itemAt keys) ∨
      ∃ value, item = some value ∧ (t.add route item).2 = none ∧ route.head? = some slash ∧
        (t.root.Valid → (t.add route item).1.root.Valid) ∧
        t.root.itemAt (segments route) = none ∧
        ∀ keys, (t.add route item).1.root.itemAt keys =
          if keys = segments route then some value else t.root.itemAt keys := by
  unfold add
  split
  · left
    exact ⟨by simp, id, fun keys => rfl⟩
  · rename_i b text
    split_ifs with rooted
    · left
      exact ⟨by simp, id, fun keys => rfl⟩
    · cases item with
      | none =>
        left
        exact ⟨by simp, id, fun keys => rfl⟩
      | some value =>
        have at_add := Node.itemAt_add t.root (split text).1 (split text).2 value
        have valid (valid : t.root.Valid) :=
          valid.add (split text).1 (split text).2 value
        cases failure : (t.root.add (split text).1 (split text).2 value).2 with
        | none =>
          right
          refine ⟨value, rfl, by simp [failure], by simpa using rooted, valid,
            Node.itemAt_of_add _ _ _ _ failure, ?_⟩
          intro keys
          refine (at_add keys).trans (if_congr ?_ rfl rfl)
          simp [failure, segments]
        | some error =>
          left
          refine ⟨by cases error <;> simp [failure], valid, ?_⟩
          intro keys
          refine (at_add keys).trans ?_
          simp [failure]

variable {routes : List (Str × I)} {t t' : Tree I}

theorem Holds.add_failed (holds : t.Holds routes) (valid : t'.root.Valid)
    (same : ∀ keys, t'.root.itemAt keys = t.root.itemAt keys) : t'.Holds routes where
  valid := valid
  itemAt_iff keys item := by rw [same, holds.itemAt_iff]
  rooted := holds.rooted

theorem Holds.add_succeeded (holds : t.Holds routes) {route : Str} {value : I}
    (valid : t'.root.Valid) (rooted : route.head? = some slash)
    (free : t.root.itemAt (segments route) = none)
    (set : ∀ keys, t'.root.itemAt keys =
      if keys = segments route then some value else t.root.itemAt keys) :
    t'.Holds (routes ++ [(route, value)]) where
  valid := valid
  itemAt_iff keys item := by
    rw [set]
    split
    · rename_i here
      subst here
      constructor
      · rintro ⟨⟩
        exact ⟨route, by simp, rfl⟩
      · rintro ⟨other, mem, same⟩
        rcases mem_append.mp mem with old | new
        · -- the segments would have had an item before
          have taken := (holds.itemAt_iff (segments route) item).mpr ⟨other, old, same⟩
          rw [free] at taken
          exact absurd taken (by simp)
        · rw [(Prod.mk.inj (mem_singleton.mp new)).2]
    · rename_i elsewhere
      rw [holds.itemAt_iff]
      constructor
      · rintro ⟨other, mem, same⟩
        exact ⟨other, mem_append_left _ mem, same⟩
      · rintro ⟨other, mem, same⟩
        rcases mem_append.mp mem with old | new
        · exact ⟨other, old, same⟩
        · rw [(Prod.mk.inj (mem_singleton.mp new)).1] at same
          exact absurd same.symm elsewhere
  rooted := forall_mem_append.mpr ⟨holds.rooted, forall_mem_singleton.mpr rooted⟩

/-- A tree holds the routes that were added to it, whatever call fails. -/
theorem Holds.add (holds : t.Holds routes) (route : Str) (item : Option I) :
    (t.add route item).1.Holds (routes ++
      if (t.add route item).2 = none then item.toList.map fun value => (route, value)
      else []) := by
  rcases t.add_cases route item with ⟨failed, valid, same⟩ |
    ⟨value, rfl, success, rooted, valid, free, set⟩
  · rw [if_neg failed, append_nil]
    exact holds.add_failed (valid holds.valid) same
  · rw [if_pos success]
    exact holds.add_succeeded (valid holds.valid) rooted free set

theorem Holds.after (holds : t.Holds routes) (calls : List (Str × Option I)) :
    (t.after calls).Holds (routes ++ t.added calls) := by
  induction calls generalizing t routes with
  | nil =>
    rwa [added, append_nil]
  | cons call calls ih =>
    have next := ih (holds.add call.1 call.2)
    rwa [append_assoc] at next

/-- The tree that calls of `Add` lead to holds exactly the items of the routes that were added. -/
theorem holds_after (calls : List (Str × Option I)) :
    ((newTree : Tree I).after calls).Holds ((newTree : Tree I).added calls) :=
  holds_newTree.after calls

end Tree

end FastGoZero.Search
