import FastGoZero.HttpRouter.Capacity

/-!
# The methods that are allowed

The loop over the other methods looks the path up in one tree after the other, with one slice of
skipped nodes. A lookup that returns early leaves nodes on it, and a later lookup, at a dead end in
its own tree, rolls back to them: it then goes on in the tree of another method. The methods in the
answer are those whose own trees find a handler exactly if no such rollback finds one.
-/

namespace FastGoZero.HttpRouter

open Lib Lib.Backtracking List

universe u

variable {H : Type u}

/-- A lookup in the tree alone finds a handler. -/
def Node.FindsAlone (root : Node H) (room : Nat) (path : Str) : Prop :=
  ∃ value left, root.getValue path none [] room false = .ok (value, left) ∧
    value.handler.isSome = true

/-- A search that comes to a dead end finds no handler through the alternatives on the stack, and
the stack that a search leaves has a property. -/
def StaysInside (left : List (Entry (Search (Answer H))) → Prop)
    (stack : List (Entry (Search (Answer H)))) : Outcome (Answer H) → Prop
  | .finished _ own => left (own ++ stack)
  | .exhausted level answer => ∀ next ∈ Search.resume level answer stack,
      next.1.handler = none ∧ left next.2
  | .crashed => True

instance (left : List (Entry (Search (Answer H))) → Prop) [DecidablePred left]
    (stack : List (Entry (Search (Answer H)))) :
    (o : Outcome (Answer H)) → Decidable (StaysInside left stack o)
  | .finished _ own => inferInstanceAs (Decidable (left (own ++ stack)))
  | .exhausted _ _ => inferInstanceAs (Decidable (∀ next ∈ Search.resume _ _ stack, _ ∧ _))
  | .crashed => isTrue trivial

/-- No search for another method finds a handler through what those before it have left. -/
def Unmixed (method path : Str) :
    List (MethodTree H) → List (Entry (Search (Answer H))) → Prop
  | [], _ => True
  | tree :: trees, stack =>
    if tree.method = method then Unmixed method path trees stack
    else StaysInside (fun left => Unmixed method path trees left) stack
      (tree.root.search path none false).outcome

instance decidableUnmixed (method path : Str) :
    (trees : List (MethodTree H)) → (stack : List (Entry (Search (Answer H)))) →
      Decidable (Unmixed method path trees stack)
  | [], _ => isTrue trivial
  | tree :: trees, _ =>
    have : DecidablePred fun left => Unmixed method path trees left :=
      fun left => decidableUnmixed method path trees left
    inferInstanceAs (Decidable (if tree.method = method then _ else StaysInside _ _ _))

variable {room : Nat} {path method : Str} {trees : List (MethodTree H)} {r : Router H}
  {skipped : List (SkippedNode H)} {methods : List Str} {response : Response H} {root : Node H}

theorem findsAlone_iff (fits : (root.search path none false).FitsOn room []) :
    root.FindsAlone room path ↔ ∃ answer left,
      (root.search path none false).outcome = .finished answer left ∧
        answer.handler.isSome = true := by
  obtain ⟨value, left, answer, rest, found, returned, -, ran⟩ :=
    getValue_returns root .nil trivial fits
  have alone : root.FindsAlone room path ↔ answer.handler.isSome = true := by
    rw [← returned.handler]
    constructor
    · rintro ⟨value', left', found', set⟩
      rw [found] at found'
      cases found'
      exact set
    · exact fun set => ⟨value, left, found, set⟩
  rw [alone]
  change (root.search path none false).run [] = _ at ran
  rw [Search.run] at ran
  cases ended : (root.search path none false).outcome with
  | finished result own =>
    simp only [ended, Option.some.injEq, Prod.mk.injEq] at ran
    simp [ran.1]
  | exhausted level result =>
    simp only [ended, Search.resume, Option.some.injEq, Prod.mk.injEq] at ran
    have none := Search.deadEnd_of_exhausted (search_deadEnds none false _)
      (search_nested none false ⟨root, path, []⟩) ended
    simp [← ran.1, none]
  | crashed =>
    rw [ended] at ran
    cases ran

open Router

theorem Router.mem_allowed (returned : allowed room method path trees skipped = .ok methods)
    : ∀ m ∈ methods, m ≠ method ∧ m ∈ trees.map MethodTree.method := by
  induction trees generalizing skipped methods with
  | nil =>
    cases returned
    simp
  | cons tree trees ih =>
    rw [allowed] at returned
    split_ifs at returned with other
    · intro m mem
      obtain ⟨other, later⟩ := ih returned m mem
      exact ⟨other, mem_cons_of_mem _ later⟩
    · split at returned
      · cases returned
      · obtain ⟨others, rest, rfl⟩ := map_eq_ok.mp returned
        have later : ∀ m ∈ others, m ≠ method ∧ m ∈ (tree :: trees).map MethodTree.method := by
          intro m mem
          obtain ⟨different, within⟩ := ih rest m mem
          exact ⟨different, mem_cons_of_mem _ within⟩
        intro m mem
        split at mem
        · rcases mem_cons.mp mem with rfl | old
          · exact ⟨other, mem_cons_self⟩
          · exact later m old
        · exact later m mem

/-- What the first tree adds to the list says something about its own method only. -/
theorem forall_mem_allowed_cons {tree : MethodTree H} {others : List Str} {found : Bool}
    {finds : MethodTree H → Prop} (other : tree.method ≠ method)
    (distinct : tree.method ∉ trees.map MethodTree.method)
    (within : ∀ m ∈ others, m ∈ trees.map MethodTree.method) :
    (∀ t ∈ tree :: trees, t.method ≠ method →
      (t.method ∈ (if found then tree.method :: others else others) ↔ finds t)) ↔
    ((found = true ↔ finds tree) ∧
      ∀ t ∈ trees, t.method ≠ method → (t.method ∈ others ↔ finds t)) := by
  have absent : tree.method ∉ others := fun mem => distinct (within _ mem)
  have first : tree.method ∈ (if found then tree.method :: others else others) ↔ found = true := by
    cases found <;> simp [absent]
  have later : ∀ t ∈ trees,
      (t.method ∈ (if found then tree.method :: others else others) ↔ t.method ∈ others) := by
    intro t mem
    have different : t.method ≠ tree.method :=
      fun same => distinct (same ▸ mem_map_of_mem mem)
    cases found <;> simp [different]
  rw [forall_mem_cons]
  constructor
  · rintro ⟨own, rest⟩
    exact ⟨first.symm.trans (own other), fun t mem different =>
      (later t mem).symm.trans (rest t mem different)⟩
  · rintro ⟨own, rest⟩
    exact ⟨fun _ => first.trans own, fun t mem different =>
      (later t mem).trans (rest t mem different)⟩

theorem allowed_alone_iff (distinct : (trees.map MethodTree.method).Nodup)
    {stack : List (Entry (Place H))} (skips : Forall₂ (Skips path none) skipped stack)
    (returned : allowed room method path trees skipped = .ok methods) :
    (∀ t ∈ trees, t.method ≠ method → (t.method ∈ methods ↔ t.root.FindsAlone room path)) ↔
      Unmixed method path trees ((lookup none false).searches stack) := by
  induction trees generalizing skipped stack methods with
  | nil => simp [Unmixed]
  | cons tree trees ih =>
    rw [map_cons, nodup_cons] at distinct
    rw [allowed] at returned
    rw [Unmixed]
    by_cases same : tree.method = method
    · rw [if_pos same] at returned ⊢
      rw [forall_mem_cons, ← ih distinct.2 skips returned]
      simp [same]
    rw [if_neg same] at returned ⊢
    split at returned
    · cases returned
    rename_i value left found
    obtain ⟨fits, answer, rest, answers, leaves, ran⟩ :=
      getValue_ok tree.root skips (chained_of_untracked skips) found
    have alone := findsAlone_iff fits.alone
    obtain ⟨others, more, rfl⟩ := map_eq_ok.mp returned
    rw [forall_mem_allowed_cons same distinct.1 fun m mem =>
      (mem_allowed more m mem).2, ih distinct.2 leaves more, alone,
      answers.handler]
    rw [Search.run] at ran
    cases ended : (tree.root.search path none false).outcome with
    | finished result own =>
      simp only [ended, Option.some.injEq, Prod.mk.injEq] at ran
      simp [StaysInside, ran.1, ran.2]
    | exhausted level result =>
      simp only [ended] at ran
      simp [StaysInside, ran]
    | crashed =>
      rw [ended] at ran
      cases ran

theorem Router.get_eq_none_iff :
    get trees method = none ↔ method ∉ trees.map MethodTree.method := by
  simp [get]

theorem Router.setRoot_methods (method : Str) (root : Node H)
    (distinct : (trees.map MethodTree.method).Nodup) :
    ((setRoot trees method root).map MethodTree.method).Nodup := by
  unfold setRoot
  split_ifs with absent
  · have same : (trees.map fun tree =>
        if tree.method == method then { tree with root := root } else tree).map MethodTree.method =
          trees.map MethodTree.method := by
      rw [map_map]
      apply map_congr_left
      intro tree _
      dsimp only [Function.comp]
      split <;> rfl
    rwa [same]
  · rw [Bool.not_eq_true, Option.isSome_eq_false_iff, Option.isNone_iff_eq_none,
      get_eq_none_iff] at absent
    rw [map_append, nodup_append]
    refine ⟨distinct, nodup_singleton _, ?_⟩
    intro m mem other single
    have named : other = method := mem_singleton.mp single
    rintro rfl
    exact absent (named ▸ mem)

theorem Router.register_methods {r' : Router H} {calls : List (Call H)}
    (distinct : (r.trees.map MethodTree.method).Nodup) (registered : r.register calls = .ok r') :
    (r'.trees.map MethodTree.method).Nodup := by
  refine register_induction (motive := fun r _ => (r.trees.map MethodTree.method).Nodup)
    (fun call distinct first => ?_) distinct registered
  obtain ⟨h, root, -, -, -, trees, -⟩ := handle_ok first
  rw [trees]
  exact setRoot_methods _ _ distinct

/-- With methods of their own, a tree is found by its method. -/
theorem Router.get_eq_some_iff (distinct : (trees.map MethodTree.method).Nodup) :
    get trees method = some root ↔
      ∃ tree ∈ trees, tree.method = method ∧ tree.root = root := by
  induction trees with
  | nil => simp [get]
  | cons tree trees ih =>
    rw [map_cons, nodup_cons] at distinct
    rw [exists_mem_cons_iff, ← ih distinct.2, get, find?_cons]
    by_cases same : tree.method = method
    · have absent : get trees method = none :=
        get_eq_none_iff.mpr (same ▸ distinct.1)
      simp [same, absent]
    · have differs : (tree.method == method) = false := beq_eq_false_iff_ne.mpr same
      simp [same, differs, get]

/-- The request is neither served nor redirected. -/
def Response.Unserved : Response H → Prop
  | .served _ _ => False
  | .redirect _ _ => False
  | .methodNotAllowed _ => True
  | .notFound => True

/-- The answer that names the methods, if there are any. -/
def Response.ofAllowed (methods : List Str) : Response H :=
  if methods = [] then .notFound else .methodNotAllowed (List.intercalate (say ", ") methods)

theorem unmatched_of_unserved (answered : r.serveHTTP method path = .ok response)
    (unserved : response.Unserved) : r.unmatched method (r.trim path) = .ok response := by
  unfold serveHTTP at answered
  dsimp only at answered
  split at answered
  · exact answered
  · split at answered
    · cases answered
    · split at answered
      · cases answered
        cases unserved
      · split at answered
        · cases answered
          cases unserved
        · exact answered

theorem allowed_of_unmatched (enabled : r.handleMethodNotAllowed = true)
    (answered : r.unmatched method path = .ok response) :
    ∃ methods, allowed r.maxSections.toNat method path r.trees [] = .ok methods ∧
      response = .ofAllowed methods := by
  rw [unmatched, enabled] at answered
  cases trees : r.trees with
  | nil =>
    rw [trees] at answered
    cases answered
    exact ⟨[], rfl, rfl⟩
  | cons tree others =>
    rw [trees] at answered
    obtain ⟨methods, listed, rfl⟩ := map_eq_ok.mp answered
    exact ⟨methods, listed, rfl⟩

end FastGoZero.HttpRouter
