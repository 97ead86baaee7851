import FastGoZero.Lib.GoMap
import FastGoZero.Lib.GoString

/-!
# The search tree of routes

A node has one map for the children of plain segments and one for those of `:name` segments. A
`Search` goes down along the segments of a path, tries the plain children before the others, and
goes back when a branch fails; the loops over the maps visit them in an order the language leaves
open. The parameters are added on the way out.

A route is cut at its slashes once, where the source looks for the next slash in each call.
-/

namespace FastGoZero.Search

open Lib

universe u

def colon : UInt8 := 58
def slash : UInt8 := 47

/-- The text before the first slash, and the texts after each of the slashes. -/
def split : Str → Str × List Str
  | [] => ([], [])
  | b :: text =>
    if b = slash then ([], (split text).1 :: (split text).2)
    else (b :: (split text).1, (split text).2)

/-- A node; an item is absent until it is added. -/
structure Node (I : Type u) where
  item : Option I
  statics : List (Sigma fun _ : Str => Node I)
  named : List (Sigma fun _ : Str => Node I)

abbrev Children (I : Type u) := List (Sigma fun _ : Str => Node I)

/-- The orders in which the loops visit the children of a node, which is known by the keys on
the way to it; the flag tells its two maps apart. -/
structure Visits (I : Type u) where
  order : List Str → Bool → Children I → Children I
  perm : ∀ place isNamed children, (order place isNamed children).Perm children

structure InnerResult where
  key : Str
  value : Str
  named : Bool
  found : Bool

/-- A nil map of parameters reads like an empty one. -/
structure Result (I : Type u) where
  item : Option I
  params : GoMap Str Str

variable {I : Type u}

def notFound : Result I := ⟨none, ∅⟩

/-- The errors of `Add`, with the route that is refused. -/
inductive AddError where
  | notFromRoot
  | emptyItem
  | duplicatedItem (route : Str)
  | duplicatedSlash (route : Str)
deriving DecidableEq

/-- The errors of the recursion. -/
inductive InnerError where
  | dupItem
  | dupSlash
deriving DecidableEq

def newNode (item : Option I) : Node I := ⟨item, [], []⟩

def Node.isNamed (route : Str) : Bool :=
  match route with
  | [] => false
  | b :: _ => b == colon

namespace Node

def getChildren (nd : Node I) (route : Str) : Children I :=
  if isNamed route then nd.named else nd.statics

/-- `children[token] = child`, or a change of the child that is stored there. -/
def setChild (nd : Node I) (token : Str) (child : Node I) : Node I :=
  if isNamed token then { nd with named := nd.named.kinsert token child }
  else { nd with statics := nd.statics.kinsert token child }

/-- The rest of a route is the text up to its first slash and those after it. -/
def add (nd : Node I) (token : Str) : List Str → I → Node I × Option InnerError
  | [], item =>
    if token = [] then
      if nd.item.isSome then (nd, some .dupItem) else ({ nd with item := some item }, none)
    else
      match (nd.getChildren token).dlookup token with
      | some child =>
        if child.item.isSome then (nd, some .dupItem)
        else (nd.setChild token { child with item := some item }, none)
      | none => (nd.setChild token (newNode (some item)), none)
  | next :: rest, item =>
    if token = [] then (nd, some .dupSlash)
    else
      let child := ((nd.getChildren token).dlookup token).getD (newNode none)
      let (child, failure) := child.add next rest item
      (nd.setChild token child, failure)

end Node

/-- A tree is its root. -/
structure Tree (I : Type u) where
  root : Node I

namespace Tree

def newTree : Tree I := ⟨newNode none⟩

def add (t : Tree I) (route : Str) (item : Option I) : Tree I × Option AddError :=
  match route with
  | [] => (t, some .notFromRoot)
  | b :: text =>
    if b ≠ slash then (t, some .notFromRoot)
    else
      match item with
      | none => (t, some .emptyItem)
      | some item =>
        let (root, failure) := t.root.add (split text).1 (split text).2 item
        (⟨root⟩,
          match failure with
          | none => none
          | some .dupItem => some (.duplicatedItem route)
          | some .dupSlash => some (.duplicatedSlash route))

end Tree

/-- `match`; it panics on an empty pattern. -/
def matchToken (pat token : Str) : Option InnerResult :=
  match pat with
  | [] => none
  | b :: name =>
    if b = colon then some { key := name, value := token, named := true, found := true }
    else some { key := [], value := [], named := false, found := pat == token }

def addParam (result : Result I) (k v : Str) : Result I :=
  { result with params := result.params.insert k v }

/-- The parameter of a match is added to the result. -/
def InnerResult.addTo (r : InnerResult) (result : Result I) : Result I :=
  if r.named then addParam result r.key r.value else result

/-- The loop over children stops at the first for which the function returns true. -/
def forEachLoop (fn : Str → Node I → Result I → Option (Bool × Result I)) :
    Children I → Result I → Option (Bool × Result I)
  | [], result => some (false, result)
  | child :: rest, result =>
    match fn child.1 child.2 result with
    | none => none
    | some (true, result) => some (true, result)
    | some (false, result) => forEachLoop fn rest result

namespace Node

def forEach (nd : Node I) (visits : Visits I) (place : List Str)
    (fn : Str → Node I → Result I → Option (Bool × Result I)) (result : Result I) :
    Option (Bool × Result I) :=
  forEachLoop fn
    (visits.order place false nd.statics ++ visits.order place true nd.named) result

/-- Whether an item is found below a node, and the result with it; `none` is a panic. -/
def next (visits : Visits I) (place : List Str) (n : Node I) (token : Str) :
    List Str → Result I → Option (Bool × Result I)
  | [], result =>
    if token = [] ∧ n.item.isSome then some (true, { result with item := n.item })
    else
      n.forEach visits place (fun k v result =>
        match matchToken k token with
        | none => none
        | some r =>
          if r.found ∧ v.item.isSome then some (true, r.addTo { result with item := v.item })
          else some (false, result)) result
  | follow :: rest, result =>
    n.forEach visits place (fun k v result =>
      match matchToken k token with
      | none => none
      | some r =>
        if r.found then
          match v.next visits (place ++ [k]) follow rest result with
          | none => none
          | some (true, result) => some (true, r.addTo result)
          | some (false, result) => some (false, result)
        else some (false, result)) result

end Node

/-- `none` is a panic. -/
def Tree.search (t : Tree I) (visits : Visits I) (route : Str) : Option (Result I × Bool) :=
  match route with
  | [] => some (notFound, false)
  | b :: text =>
    if b ≠ slash then some (notFound, false)
    else
      match t.root.next visits [] (split text).1 (split text).2 notFound with
      | none => none
      | some (ok, result) => some (result, ok)

end FastGoZero.Search
