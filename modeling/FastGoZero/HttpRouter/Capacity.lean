import FastGoZero.HttpRouter.Serve

/-!
# The capacity of the skipped nodes

The slice of skipped nodes has room for as many nodes as the longest route has sections.
How many of them a lookup skips depends on how the routes share their text, so the slice
may be too short: in the lookup of a request, or in the loop over the other methods, whose
lookups start with what the ones before them have left on it.
-/

namespace FastGoZero.HttpRouter

open Lib Lib.Backtracking List

universe u

variable {H : Type u} {path method : Str} {calls : List (Call H)}
  {skipped : List (SkippedNode H)} {stack : List (Entry (Place H))} {trees : List (MethodTree H)}
  {handler : Option H} {root : Node H}

/-- The searches of the other trees fit on the slice, each on what those before it leave. -/
def OthersFit (room : Nat) (method path : Str) :
    List (MethodTree H) → List (Entry (Search (Answer H))) → Prop
  | [], _ => True
  | tree :: trees, stack =>
    if tree.method = method then OthersFit room method path trees stack
    else (tree.root.search path none false).FitsOn room stack ∧
      ∀ next ∈ (tree.root.search path none false).run stack,
        OthersFit room method path trees next.2

instance decidableOthersFit (room : Nat) (method path : Str) :
    (trees : List (MethodTree H)) → (stack : List (Entry (Search (Answer H)))) →
      Decidable (OthersFit room method path trees stack)
  | [], _ => isTrue trivial
  | tree :: trees, _ =>
    have := fun stack => decidableOthersFit room method path trees stack
    inferInstanceAs (Decidable (if tree.method = method then _ else _ ∧ ∀ next ∈ _, _))

open Router

/-- The searches for a request fit on the skipped nodes: that of its own method, and, if it
finds nothing and redirects nowhere, those of the other methods. -/
def Router.Roomy (r : Router H) (method path : Str) : Prop :=
  match get r.trees method with
  | none => r.handleMethodNotAllowed = true →
      OthersFit r.maxSections.toNat method (r.trim path) r.trees []
  | some root =>
    (root.search (r.trim path) r.getParams false).FitsOn r.maxSections.toNat [] ∧
      ∀ next ∈ (root.search (r.trim path) r.getParams false).run [], next.1.handler = none →
        r.redirects method (r.trim path) next.1.tsr = false → r.handleMethodNotAllowed = true →
          OthersFit r.maxSections.toNat method (r.trim path) r.trees []

theorem Router.forall_setRoot {P : Node H → Prop} (old : ∀ tree ∈ trees, P tree.root)
    (new : P root) : ∀ tree ∈ setRoot trees method root, P tree.root := by
  rw [setRoot]
  split
  · rw [forall_mem_map]
    intro tree mem
    split
    · exact new
    · exact old tree mem
  · rw [forall_mem_append, forall_mem_singleton]
    exact ⟨old, new⟩

theorem Router.head?_trim (r : Router H) (rooted : path.head? = some slash) :
    (r.trim path).head? = some slash := by
  rw [trim]
  split_ifs with shortened
  · match path with
    | [] => cases rooted
    | [_] => simp at shortened
    | first :: _ :: _ => exact rooted
  · exact rooted

variable {r r' : Router H}

/-- What `Handle` does when it does not refuse. -/
theorem Router.handle_ok (registered : r.handle method path handler = .ok r') :
    ∃ h root, handler = some h ∧ path.head? = some slash ∧
      ((get r.trees method).getD newRoot).addRoute (r.trim path) h = .ok root ∧
      r'.trees = setRoot r.trees method root ∧
      r'.removeExtraSlash = r.removeExtraSlash := by
  rw [handle.eq_def] at registered
  split at registered
  · cases registered
  split at registered
  · cases registered
  rename_i _ invalid
  have rooted : path.head? = some slash := by simpa using invalid
  cases handler with
  | none => cases registered
  | some h =>
    dsimp only at registered
    split at registered
    · cases registered
    · rename_i root added
      cases registered
      exact ⟨h, root, rfl, rooted, added, rfl, rfl⟩

/-- What one call of `Handle` keeps, a list of calls keeps. -/
theorem Router.register_induction {motive : Router H → List (Call H) → Prop}
    (step : ∀ {r next : Router H} {done : List (Call H)} (call : Call H), motive r done →
      r.handle call.method call.path (some call.handler) = .ok next → motive next (done ++ [call]))
    (start : motive r []) (registered : r.register calls = .ok r') :
    motive r' calls := by
  suffices later : ∀ done, motive r done → motive r' (done ++ calls) from later [] start
  clear start
  induction calls generalizing r with
  | nil =>
    cases registered
    intro done kept
    rwa [append_nil]
  | cons call calls ih =>
    rw [register, foldlM_cons] at registered
    obtain ⟨next, first, registered⟩ := bind_eq_ok.mp registered
    intro done kept
    have later := ih registered (done ++ [call]) (step call kept first)
    rwa [append_assoc] at later

theorem Router.handle_roots (roots : ∀ tree ∈ r.trees, Root tree.root)
    (registered : r.handle method path handler = .ok r') : ∀ tree ∈ r'.trees, Root tree.root := by
  have old : Root ((get r.trees method).getD newRoot) := by
    cases found : get r.trees method with
    | none => exact root_newRoot
    | some root =>
      obtain ⟨tree, first, rfl⟩ := Option.map_eq_some_iff.mp found
      exact roots tree (mem_of_find?_eq_some first)
  obtain ⟨h, root, rfl, rooted, added, trees, -⟩ := handle_ok registered
  have grown := (addRoute_adds old ⟨r.trim path, h, r.head?_trim rooted⟩ added).1
  rw [trees]
  exact forall_setRoot roots grown

/-- Without a slice of parameters there is nothing to cut back. -/
theorem chained_of_untracked (skips : Forall₂ (Skips path none) skipped stack) :
    Chained [] stack := by
  induction skips with
  | nil => trivial
  | cons first rest ih =>
    have nothing := first.untracked rfl
    refine ⟨by rw [nothing], ?_⟩
    rwa [nothing]

theorem exists_map_ok {α : Type} {β : Type u} {f : α → β} {x : Except Panic α} :
    (∃ y, x.map f = .ok y) ↔ ∃ a, x = .ok a := by
  simp [map_eq_ok]

theorem allowed_returns_iff {room : Nat} (trees : List (MethodTree H))
    (skips : Forall₂ (Skips path none) skipped stack) :
    (∃ methods, allowed room method path trees skipped = .ok methods) ↔
      OthersFit room method path trees ((lookup none false).searches stack) := by
  induction trees generalizing skipped stack with
  | nil => exact iff_of_true ⟨[], rfl⟩ trivial
  | cons tree trees ih =>
    rw [allowed, OthersFit]
    by_cases same : tree.method = method
    · rw [if_pos same, if_pos same]
      exact ih skips
    · rw [if_neg same, if_neg same]
      by_cases fits : (tree.root.search path none false).FitsOn room
          ((lookup none false).searches stack)
      · obtain ⟨value, left, answer, rest, found, _, leaves, ran⟩ :=
          getValue_returns tree.root skips (chained_of_untracked skips) fits
        rw [found, ran]
        simp only [exists_map_ok, ih leaves, fits, Option.mem_some_iff, forall_eq', true_and]
      · have panics : ∃ reason,
            tree.root.getValue path none skipped room false = .error reason ∧ _ :=
          getValue_panics tree.root skips (chained_of_untracked skips) fits
        obtain ⟨reason, failed, _⟩ := panics
        rw [failed]
        exact iff_of_false (by simp) fun all => fits all.1

theorem unmatched_returns_iff (r : Router H) (method path : Str) :
    (∃ response, r.unmatched method path = .ok response) ↔
      (r.handleMethodNotAllowed = true → OthersFit r.maxSections.toNat method path r.trees []) := by
  have others : (∃ methods, allowed r.maxSections.toNat method path r.trees [] =
      .ok methods) ↔ OthersFit r.maxSections.toNat method path r.trees [] :=
    allowed_returns_iff r.trees .nil
  rw [unmatched]
  cases enabled : r.handleMethodNotAllowed with
  | false => exact iff_of_true ⟨.notFound, rfl⟩ (by simp)
  | true =>
    cases trees : r.trees with
    | nil => exact iff_of_true ⟨.notFound, rfl⟩ fun _ => trivial
    | cons tree more =>
      rw [trees] at others
      simp only [Bool.true_and, isEmpty_cons, Bool.not_false, ↓reduceIte, exists_map_ok,
        others, forall_const]

theorem exists_panic_of_any
    (checked : (register {} calls).toOption.any (fun r =>
      match r.serveHTTP method path with
      | .error reason => reason == .sliceBounds
      | .ok _ => false) = true) :
    ∃ r, register {} calls = .ok r ∧ r.serveHTTP method path = .error .sliceBounds := by
  obtain ⟨r, registered, failed⟩ := exists_ok_of_any checked
  refine ⟨r, registered, ?_⟩
  generalize r.serveHTTP method path = response at failed ⊢
  cases response with
  | error reason =>
    rw [eq_of_beq failed]
  | ok response =>
    cases failed

end FastGoZero.HttpRouter
