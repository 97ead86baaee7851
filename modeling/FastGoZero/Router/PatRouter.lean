import FastGoZero.Search.Walk

/-!
# The pattern router

The router keeps one search tree for each of nine methods and dispatches a request to the handler
that the tree of its method finds. If there is none, the other trees are asked for the path, and
those that know it make up the `Allow` list. A request whose method is none of the nine has the
index -1, and the router panics.

Handlers are opaque. A nil handler is accepted, and calling it panics. `none` is a panic here.
-/

namespace FastGoZero.Router

open Lib Search List
open Str (bytes)

universe u

/-- One element of a path, with the elements before it, the last one first. -/
def cleanStep (rooted : Bool) (elements : List Str) (element : Str) : List Str :=
  if element = [] ∨ element = bytes "." then elements
  else if element = bytes ".." then
    match elements with
    | [] => if rooted then [] else [element]
    | last :: rest => if last = bytes ".." then element :: elements else rest
  else element :: elements

/-- `path.Clean`. -/
def clean (path : Str) : Str :=
  let rooted := path.head? == some slash
  let elements := ((split path).1 :: (split path).2).foldl (cleanStep rooted) []
  let text := [slash].intercalate elements.reverse
  if rooted then slash :: text else if text = [] then bytes "." else text

def validMethod (method : Str) : Bool :=
  method == bytes "DELETE" || method == bytes "GET" || method == bytes "HEAD" ||
    method == bytes "OPTIONS" || method == bytes "PATCH" || method == bytes "POST" ||
    method == bytes "PUT"

def methodFromIndex (index : Nat) : Str :=
  match index with
  | 0 => bytes "GET"
  | 1 => bytes "HEAD"
  | 2 => bytes "POST"
  | 3 => bytes "PUT"
  | 4 => bytes "PATCH"
  | 5 => bytes "DELETE"
  | 6 => bytes "CONNECT"
  | 7 => bytes "OPTIONS"
  | 8 => bytes "TRACE"
  | _ => []

/-- The index -1 of other methods is `none`. -/
def methodIndexOf (method : Str) : Option Nat :=
  if method = bytes "GET" then some 0
  else if method = bytes "HEAD" then some 1
  else if method = bytes "POST" then some 2
  else if method = bytes "PUT" then some 3
  else if method = bytes "PATCH" then some 4
  else if method = bytes "DELETE" then some 5
  else if method = bytes "CONNECT" then some 6
  else if method = bytes "OPTIONS" then some 7
  else if method = bytes "TRACE" then some 8
  else none

variable {index : Nat} {method : Str}

theorem methodIndexOf_lt (known : methodIndexOf method = some index) : index < 9 := by
  unfold methodIndexOf at known
  repeat' split at known
  all_goals simp only [Option.some.injEq, reduceCtorEq] at known
  all_goals omega

theorem methodIndexOf_of_valid (valid : validMethod method = true) :
    ∃ index, methodIndexOf method = some index := by
  simp only [validMethod, Bool.or_eq_true, beq_iff_eq] at valid
  rcases valid with (((((rfl | rfl) | rfl) | rfl) | rfl) | rfl) | rfl
  all_goals exact ⟨_, rfl⟩

inductive HandleError where
  | invalidMethod
  | invalidPath
  | tree (failure : AddError)
deriving DecidableEq

/-- A tree is made when the first route of its method is handled. -/
structure PatRouter (H : Type u) where
  trees : List (Option (Search.Tree (Option H)))
  notFound : Option H
  notAllowed : Option H
  length_eq : trees.length = 9

/-- What a request is answered with. -/
inductive Response (H : Type u) where
  | served (handler : H) (params : GoMap Str Str)
  | methodNotAllowed (allow : Str)
  | notFound

variable {H : Type u}

namespace PatRouter

def newRouter : PatRouter H where
  trees := List.replicate 9 none
  notFound := none
  notAllowed := none
  length_eq := rfl

def handle (pr : PatRouter H) (method reqPath : Str) (handler : Option H) :
    Option (PatRouter H × Option HandleError) :=
  if validMethod method = false then some (pr, some .invalidMethod)
  else if reqPath.head? ≠ some slash then some (pr, some .invalidPath)
  else
    match methodIndexOf method with
    | none => none
    | some index =>
      let tree := ((pr.trees[index]?).join).getD Search.Tree.newTree
      let (tree, failure) := tree.add (clean reqPath) (some handler)
      some ({ pr with
        trees := pr.trees.set index (some tree)
        length_eq := by rw [length_set, pr.length_eq] }, failure.map HandleError.tree)

/-- The tree at an index; one that was not made finds nothing. -/
def searchAt (pr : PatRouter H) (visits : Nat → Visits (Option H)) (index : Nat)
    (path : Str) : Option (Result (Option H) × Bool) :=
  match (pr.trees[index]?).join with
  | none => some (Search.notFound, false)
  | some tree => tree.search (visits index) path

/-- The loop of `methodsAllowed` over the trees from an index on. -/
def allowedLoop (visits : Nat → Visits (Option H)) (idx : Option Nat) (path : Str) :
    Nat → List (Option (Search.Tree (Option H))) → Option (List Str)
  | _, [] => some []
  | i, none :: rest => allowedLoop visits idx path (i + 1) rest
  | i, some tree :: rest =>
    if idx = some i then allowedLoop visits idx path (i + 1) rest
    else
      match tree.search (visits i) path with
      | none => none
      | some (_, ok) =>
        (allowedLoop visits idx path (i + 1) rest).map fun allows =>
          if ok then methodFromIndex i :: allows else allows

variable (pr : PatRouter H)

def methodsAllowed (visits : Nat → Visits (Option H)) (method path : Str) : Option (Str × Bool) :=
  (allowedLoop visits (methodIndexOf method) path 0 pr.trees).map fun allows =>
    if 0 < allows.length then ((bytes ", ").intercalate allows, true) else ([], false)

def handleNotFound : Response H :=
  match pr.notFound with
  | some handler => .served handler ∅
  | none => .notFound

/-- The answer for a list of methods that are allowed. -/
def handleNotAllowed (allows : Str) : Response H :=
  match pr.notAllowed with
  | some handler => .served handler ∅
  | none => .methodNotAllowed allows

/-- A request; the loops over the maps of a tree visit them as `visits` says at its index. -/
def serveHTTP (visits : Nat → Visits (Option H)) (method path : Str) : Option (Response H) :=
  match methodIndexOf method with
  | none => none
  | some index =>
    match pr.searchAt visits index (clean path) with
    | none => none
    | some (result, true) =>
      match result.item with
      | some (some handler) => some (.served handler result.params)
      | _ => none
    | some (_, false) =>
      match pr.methodsAllowed visits method (clean path) with
      | none => none
      | some (_, false) => some pr.handleNotFound
      | some (allows, true) => some (pr.handleNotAllowed allows)

/-- A call of `Handle`. -/
structure Call (H : Type u) where
  method : Str
  reqPath : Str
  handler : Option H

/-- A route that was accepted, with the index of its tree. -/
structure Accepted (H : Type u) where
  index : Nat
  route : Str
  handler : Option H

def Call.accepted (call : Call H) (failure : Option HandleError) : List (Accepted H) :=
  if failure.isSome then []
  else (methodIndexOf call.method).toList.map fun index =>
    ⟨index, clean call.reqPath, call.handler⟩

/-- The router after a sequence of calls, and the routes that it accepts. -/
def after (pr : PatRouter H) : List (Call H) → Option (PatRouter H × List (Accepted H))
  | [] => some (pr, [])
  | call :: calls =>
    match pr.handle call.method call.reqPath call.handler with
    | none => none
    | some (next, failure) =>
      (next.after calls).map fun rest => (rest.1, call.accepted failure ++ rest.2)

end PatRouter

open PatRouter

def routesOf (accepted : List (Accepted H)) (index : Nat) : List (Str × Option H) :=
  (accepted.filter fun entry => entry.index == index).map fun entry => (entry.route, entry.handler)

theorem routesOf_append (first second : List (Accepted H)) (index : Nat) :
    routesOf (first ++ second) index = routesOf first index ++ routesOf second index := by
  rw [routesOf, filter_append, map_append, routesOf, routesOf]

theorem routesOf_accepted {call : Call H} (known : methodIndexOf call.method = some index)
    (failure : Option AddError) (probe : Nat) :
    routesOf (call.accepted (failure.map HandleError.tree)) probe =
      if probe = index then
        (if failure = none then [(clean call.reqPath, call.handler)] else [])
      else [] := by
  rw [Call.accepted, known]
  cases failure with
  | some error => simp [routesOf]
  | none =>
    by_cases same : probe = index
    · subst same
      simp [routesOf]
    · have apart : (index == probe) = false := beq_eq_false_iff_ne.mpr (Ne.symm same)
      simp [routesOf, same, apart]

namespace PatRouter

/-- The tree at an index, or a new one. -/
def treeAt (pr : PatRouter H) (index : Nat) : Search.Tree (Option H) :=
  ((pr.trees[index]?).join).getD Search.Tree.newTree

theorem treeAt_set (pr : PatRouter H) (bound : index < 9) (tree : Search.Tree (Option H))
    (length_eq : (pr.trees.set index (some tree)).length = 9) (probe : Nat) :
    ({ pr with trees := pr.trees.set index (some tree), length_eq } : PatRouter H).treeAt probe =
      if probe = index then tree else pr.treeAt probe := by
  have inside : index < pr.trees.length := by rwa [pr.length_eq]
  rw [treeAt]
  simp only [getElem?_set]
  by_cases same : index = probe
  · subst same
    rw [if_pos rfl, if_pos inside, if_pos rfl]
    rfl
  · rw [if_neg same, if_neg (Ne.symm same)]
    rfl

/-- The trees hold the accepted routes of their methods. -/
def Registers (pr : PatRouter H) (accepted : List (Accepted H)) : Prop :=
  ∀ index, (pr.treeAt index).Holds (routesOf accepted index)

theorem registers_newRouter : (newRouter : PatRouter H).Registers [] := by
  intro index
  have empty : (newRouter : PatRouter H).treeAt index = Search.Tree.newTree := by
    rw [treeAt, newRouter]
    simp only [getElem?_replicate]
    split <;> rfl
  rw [empty]
  exact Search.Tree.holds_newTree

variable {pr : PatRouter H} {accepted : List (Accepted H)} {visits : Nat → Visits (Option H)}

/-- `Handle` does not panic; it adds the route if it returns no error. -/
theorem Registers.handle (registers : pr.Registers accepted) (call : Call H) :
    ∃ next failure, pr.handle call.method call.reqPath call.handler = some (next, failure) ∧
      next.Registers (accepted ++ call.accepted failure) := by
  have refused (failure : HandleError) :
      pr.Registers (accepted ++ call.accepted (some failure)) := by
    have none : call.accepted (some failure) = [] := rfl
    rwa [none, append_nil]
  unfold PatRouter.handle
  split
  · exact ⟨_, _, rfl, refused _⟩
  · rename_i valid
    split
    · exact ⟨_, _, rfl, refused _⟩
    · obtain ⟨index, known⟩ := methodIndexOf_of_valid (Bool.not_eq_false _ ▸ valid)
      rw [known]
      refine ⟨_, _, rfl, ?_⟩
      intro probe
      have added := (registers index).add (clean call.reqPath) (some call.handler)
      rw [treeAt_set _ (methodIndexOf_lt known), routesOf_append, routesOf_accepted known]
      by_cases same : probe = index
      · subst same
        rwa [if_pos rfl, if_pos rfl]
      · rw [if_neg same, if_neg same, append_nil]
        exact registers probe

theorem Registers.after (registers : pr.Registers accepted) (calls : List (Call H)) :
    ∃ final more, pr.after calls = some (final, more) ∧ final.Registers (accepted ++ more) := by
  induction calls generalizing pr accepted with
  | nil => exact ⟨pr, [], rfl, by rwa [append_nil]⟩
  | cons call calls ih =>
    obtain ⟨next, failure, handled, registersNext⟩ := registers.handle call
    obtain ⟨final, more, run, registersFinal⟩ := ih registersNext
    refine ⟨final, call.accepted failure ++ more, ?_, ?_⟩
    · rw [PatRouter.after, handled]
      simp only
      rw [run]
      rfl
    · rwa [← append_assoc]

def anyMatches (routes : List (Str × Option H)) (path : Str) : Bool :=
  path.head? == some slash && routes.any fun entry => routeMatches entry.1 path

/-- A search in the tree at an index, whether or not it was made. -/
theorem Registers.searchAt_cases
    (registers : pr.Registers accepted) (visits : Nat → Visits (Option H)) (index : Nat)
    (path : Str) :
    (anyMatches (routesOf accepted index) path = true ∧
      ∃ route handler, path.head? = some slash ∧ (route, handler) ∈ routesOf accepted index ∧
        routeMatches route path = true ∧
        (∀ other ∈ routesOf accepted index, routeMatches other.1 path = true →
          ¬ Preferred (segments other.1) (segments route)) ∧ pr.searchAt visits index path = some
          (⟨some handler, addBindings (bindings (segments route) (pathSegments path)) ∅⟩, true)) ∨
      (anyMatches (routesOf accepted index) path = false ∧
        pr.searchAt visits index path = some (Search.notFound, false)) := by
  have same : pr.searchAt visits index path = (pr.treeAt index).search (visits index) path := by
    rw [searchAt, treeAt]
    cases (pr.trees[index]?).join with
    | none => exact (Search.Tree.search_newTree (visits index) path).symm
    | some tree => rfl
  rw [same]
  refine Or.imp ?_ ?_ ((registers index).search_cases (visits index) path)
  · rintro ⟨route, handler, mem, rooted, isMatch, best, answer⟩
    refine ⟨?_, route, handler, rooted, mem, isMatch, best, answer⟩
    rw [anyMatches, rooted, any_eq_true.mpr ⟨_, mem, isMatch⟩]
    rfl
  · rintro ⟨none, answer⟩
    refine ⟨?_, answer⟩
    rw [anyMatches]
    by_cases rooted : path.head? = some slash
    · have absent : (routesOf accepted index).any (fun entry => routeMatches entry.1 path) =
          false := by
        rw [any_eq_false]
        intro entry mem
        rw [none rooted entry mem]
        exact Bool.false_ne_true
      rw [absent, Bool.and_false]
    · rw [beq_eq_false_iff_ne.mpr rooted, Bool.false_and]

/-- The loop over the trees collects the methods whose trees match. -/
theorem allowedLoop_eq {idx : Option Nat} {path : Str} (matching : Nat → Bool) {i : Nat}
    {trees : List (Option (Search.Tree (Option H)))}
    (absent : ∀ j, trees[j]? = some none → matching (i + j) = false)
    (present : ∀ j tree, trees[j]? = some (some tree) →
      ∃ result, tree.search (visits (i + j)) path = some (result, matching (i + j))) :
    allowedLoop visits idx path i trees = some
      (((List.range' i trees.length).filter fun k =>
        decide (idx ≠ some k) && matching k).map methodFromIndex) := by
  induction trees generalizing i with
  | nil => rfl
  | cons tree trees ih =>
    have rest := ih (i := i + 1)
      (fun j found => by
        have at_succ := absent (j + 1) (by rwa [getElem?_cons_succ])
        rwa [Nat.add_assoc, Nat.add_comm 1 j])
      (fun j tree found => by
        have at_succ := present (j + 1) tree (by rwa [getElem?_cons_succ])
        rwa [Nat.add_assoc, Nat.add_comm 1 j])
    rw [length_cons, List.range'_succ, filter_cons]
    cases tree with
    | none =>
      have noMatch := absent 0 rfl
      rw [Nat.add_zero] at noMatch
      rw [allowedLoop, rest, noMatch, Bool.and_false, if_neg Bool.false_ne_true]
    | some tree =>
      obtain ⟨result, answer⟩ := present 0 tree rfl
      rw [Nat.add_zero] at answer
      rw [allowedLoop]
      by_cases own : idx = some i
      · rw [if_pos own, rest]
        simp [own]
      · rw [if_neg own, answer, rest]
        cases matching i with
        | true => simp [own]
        | false => simp

/-- The methods other than that of an index whose trees match, in the order of the trees. -/
def allowedMethods (accepted : List (Accepted H)) (idx : Option Nat) (path : Str) : List Str :=
  ((List.range' 0 9).filter fun k =>
    decide (idx ≠ some k) && anyMatches (routesOf accepted k) path).map methodFromIndex

/-- What a request is to be answered with: the handler of a route of its method that matches, else
the list of the other methods that match, else not found. -/
def Dispatches (pr : PatRouter H) (accepted : List (Accepted H)) (method path : Str)
    (response : Response H) : Prop :=
  (∃ index route handler, methodIndexOf method = some index ∧ path.head? = some slash ∧
      (route, some handler) ∈ routesOf accepted index ∧ routeMatches route path = true ∧
      (∀ other ∈ routesOf accepted index, routeMatches other.1 path = true →
        ¬ Preferred (segments other.1) (segments route)) ∧
      response = .served handler
        (addBindings (bindings (segments route) (pathSegments path)) ∅)) ∨
    ((∀ index, methodIndexOf method = some index →
        anyMatches (routesOf accepted index) path = false) ∧
      response =
        if allowedMethods accepted (methodIndexOf method) path = [] then pr.handleNotFound
        else pr.handleNotAllowed
          ((bytes ", ").intercalate (allowedMethods accepted (methodIndexOf method) path)))

section

variable (registers : pr.Registers accepted)

include registers

theorem Registers.methodsAllowed_eq (visits : Nat → Visits (Option H)) (method path : Str) :
    pr.methodsAllowed visits method path = some
      (if allowedMethods accepted (methodIndexOf method) path = [] then ([], false)
      else ((bytes ", ").intercalate
        (allowedMethods accepted (methodIndexOf method) path), true)) := by
  have loop : allowedLoop visits (methodIndexOf method) path 0 pr.trees =
      some (allowedMethods accepted (methodIndexOf method) path) := by
    have run := @allowedLoop_eq H visits (methodIndexOf method) path
      (fun k => anyMatches (routesOf accepted k) path) 0 pr.trees ?_ ?_
    · rwa [pr.length_eq] at run
    · intro j found
      rw [Nat.zero_add]
      rcases registers.searchAt_cases visits j path with
        ⟨-, route, handler, -, -, -, -, answer⟩ | ⟨none, -⟩
      · rw [searchAt, found] at answer
        exact absurd (congrArg (Option.map Prod.snd) answer) (by simp)
      · exact none
    · intro j tree found
      rw [Nat.zero_add]
      have same : pr.searchAt visits j path = tree.search (visits j) path := by
        rw [searchAt, found]
        rfl
      rw [← same]
      rcases registers.searchAt_cases visits j path with
        ⟨isMatch, route, handler, -, -, -, -, answer⟩ | ⟨none, answer⟩
      · exact ⟨_, by rw [answer, isMatch]⟩
      · exact ⟨_, by rw [answer, none]⟩
  rw [methodsAllowed, loop]
  cases allowedMethods accepted (methodIndexOf method) path with
  | nil | cons first rest => rfl

theorem Registers.serveHTTP_otherwise {path : Str} (known : methodIndexOf method = some index)
    (missed : pr.searchAt visits index (clean path) = some (Search.notFound, false)) :
    pr.serveHTTP visits method path = some
      (if allowedMethods accepted (methodIndexOf method) (clean path) = [] then pr.handleNotFound
      else pr.handleNotAllowed ((bytes ", ").intercalate
        (allowedMethods accepted (methodIndexOf method) (clean path)))) := by
  rw [serveHTTP, known]
  simp only
  rw [missed]
  rw [registers.methodsAllowed_eq, known]
  by_cases none : allowedMethods accepted (some index) (clean path) = []
  · rw [if_pos none, if_pos none]
  · rw [if_neg none, if_neg none]

theorem Registers.serveHTTP_iff (visits : Nat → Visits (Option H)) (method path : Str) :
    (∃ response, pr.serveHTTP visits method path = some response ∧
        pr.Dispatches accepted method (clean path) response) ↔
      ∃ index, methodIndexOf method = some index ∧
        ∀ result, pr.searchAt visits index (clean path) = some (result, true) →
          result.item ≠ some none := by
  constructor
  · rintro ⟨response, served, -⟩
    rw [serveHTTP] at served
    generalize methodIndexOf method = index at served ⊢
    cases index with
    | none =>
      exact absurd served (by simp)
    | some index =>
      refine ⟨index, rfl, ?_⟩
      intro result found isNil
      simp only [found, isNil] at served
      exact absurd served (by simp)
  · rintro ⟨index, known, notNil⟩
    rcases registers.searchAt_cases visits index (clean path) with
      ⟨-, route, handler, rooted, mem, isMatch, best, answer⟩ | ⟨none, answer⟩
    · cases handler with
      | none => exact absurd rfl (notNil _ answer)
      | some handler =>
        refine ⟨_, ?_, Or.inl ⟨index, route, handler, known, rooted, mem, isMatch, best, rfl⟩⟩
        rw [serveHTTP, known]
        simp only
        rw [answer]
    · refine ⟨_, registers.serveHTTP_otherwise known answer, Or.inr ⟨?_, rfl⟩⟩
      intro other same
      cases known.symm.trans same
      exact none

end

/-- Calls of `Handle` do not panic. The router then answers a request as it is to be answered
exactly if the method of the request is one of the nine and the tree does not find a nil handler;
otherwise it panics. -/
theorem serveHTTP_dispatches_iff (calls : List (Call H)) :
    ∃ pr accepted, (newRouter : PatRouter H).after calls = some (pr, accepted) ∧
      ∀ (notFound notAllowed : Option H) (visits : Nat → Visits (Option H))
        (method path : Str),
        (∃ response,
          ({ pr with notFound, notAllowed } : PatRouter H).serveHTTP visits method path =
              some response ∧
            ({ pr with notFound, notAllowed } : PatRouter H).Dispatches accepted method
              (clean path) response) ↔
          ∃ index, methodIndexOf method = some index ∧
            ∀ result, pr.searchAt visits index (clean path) = some (result, true) →
              result.item ≠ some none := by
  obtain ⟨pr, accepted, run, registers⟩ := registers_newRouter.after calls
  refine ⟨pr, accepted, run, ?_⟩
  intro notFound notAllowed visits method path
  have same : ({ pr with notFound, notAllowed } : PatRouter H).Registers accepted := registers
  exact same.serveHTTP_iff visits method path

/-- A request with a method of its own, and one for a route with a nil handler. -/
theorem serveHTTP_panics_on_request :
    ((newRouter.after [⟨bytes "GET", bytes "/a", some 1⟩]).map fun r =>
        (r.1.serveHTTP (fun _ => .stored) (bytes "FOO") (bytes "/a")).isNone) = some true ∧
      ((newRouter.after [⟨bytes "GET", bytes "/a", (none : Option Nat)⟩]).map fun r =>
        (r.1.serveHTTP (fun _ => .stored) (bytes "GET") (bytes "/a")).isNone) = some true := by
  decide

end PatRouter

end FastGoZero.Router
