import FastGoZero.HttpRouter.Completeness

/-!
# The router: `Handle` and `ServeHTTP`

One tree for each method. A request is looked up in the tree of its method; if that finds
no handler and recommends no redirect, the trees of the other methods are searched for the
methods that would be allowed, all with one slice of skipped nodes.

The pools are modelled by what they hand out at first: a new slice of the capacity that
the registered routes call for, or nil.
-/

namespace FastGoZero.HttpRouter

open Lib

universe u

variable {H : Type u}

structure MethodTree (H : Type u) where
  method : Str
  root : Node H

structure Router (H : Type u) where
  trees : List (MethodTree H) := []
  maxParams : UInt16 := 0
  maxSections : UInt16 := 0
  redirectTrailingSlash : Bool := true
  handleMethodNotAllowed : Bool := true
  removeExtraSlash : Bool := false

def countParams (path : Str) : UInt16 :=
  UInt16.ofNat (path.count colon) + UInt16.ofNat (path.count star)

def countSections (path : Str) : UInt16 := UInt16.ofNat (path.count slash)

def validMethod (method : Str) : Bool :=
  method ∈ [say "DELETE", say "GET", say "HEAD", say "OPTIONS", say "PATCH", say "POST", say "PUT",
    say "CONNECT", say "TRACE"]

/-- Why `Handle` does not register a route. -/
inductive Refusal where
  | invalidMethod
  | invalidPath
  | nilHandle
  | panic (reason : Panic)
deriving DecidableEq

/-- A call of `Handle`. -/
structure Call (H : Type u) where
  method : Str
  path : Str
  handler : H

/-- What `ServeHTTP` does with a request. -/
inductive Response (H : Type u) where
  | served (handler : H) (params : Option (List Param))
  | redirect (path : Str) (code : Nat)
  | methodNotAllowed (allow : Str)
  | notFound
deriving DecidableEq

namespace Router

def get (trees : List (MethodTree H)) (method : Str) : Option (Node H) :=
  (trees.find? fun tree => tree.method == method).map MethodTree.root

/-- A trailing '/' is dropped, if the router is told to. -/
def trim (r : Router H) (path : Str) : Str :=
  if r.removeExtraSlash && 1 < path.length && path.getLast? = some slash then path.dropLast
  else path

/-- The trees with the root of a method, which is added if there is none. -/
def setRoot (trees : List (MethodTree H)) (method : Str) (root : Node H) : List (MethodTree H) :=
  if (get trees method).isSome then
    trees.map fun tree => if tree.method == method then { tree with root := root } else tree
  else trees ++ [⟨method, root⟩]

/-- Registers a new request handle with the given path and method. -/
def handle (r : Router H) (method path : Str) (handler : Option H) : Except Refusal (Router H) :=
  if !validMethod method then .error .invalidMethod
  else if path.head? ≠ some slash then .error .invalidPath
  else match handler with
    | none => .error .nilHandle
    | some handler =>
      let path := r.trim path
      match ((get r.trees method).getD newRoot).addRoute path handler with
      | .error reason => .error (.panic reason)
      | .ok root => .ok { r with
          trees := setRoot r.trees method root
          maxParams := max (countParams path) r.maxParams
          maxSections := max (countSections path) r.maxSections }

/-- The capacity of the slice of parameters, if there is one. -/
def getParams (r : Router H) : Option UInt16 :=
  if 0 < r.maxParams then some r.maxParams else none

/-- The methods of the other trees that find a handler, with one slice for all of them. -/
def allowed (room : Nat) (method path : Str) :
    List (MethodTree H) → List (SkippedNode H) → Except Panic (List Str)
  | [], _ => .ok []
  | tree :: trees, skipped =>
    if tree.method = method then allowed room method path trees skipped
    else match tree.root.getValue path none skipped room false with
      | .error reason => .error reason
      | .ok (value, skipped) => (allowed room method path trees skipped).map fun others =>
          if value.handler.isSome then tree.method :: others else others

def unmatched (r : Router H) (method path : Str) : Except Panic (Response H) :=
  if r.handleMethodNotAllowed && !r.trees.isEmpty then
    (allowed r.maxSections.toNat method path r.trees []).map fun methods =>
      if methods = [] then .notFound
      else .methodNotAllowed (List.intercalate (say ", ") methods)
  else .ok .notFound

/-- The answer recommends the path with or without a trailing slash. -/
def redirects (r : Router H) (method path : Str) (tsr : Bool) : Bool :=
  method ≠ say "CONNECT" && path ≠ [slash] && tsr && r.redirectTrailingSlash

def serveHTTP (r : Router H) (method path : Str) : Except Panic (Response H) :=
  let path := r.trim path
  match get r.trees method with
  | none => r.unmatched method path
  | some root =>
    match root.getValue path r.getParams [] r.maxSections.toNat false with
    | .error reason => .error reason
    | .ok (value, _) =>
      match value.handler with
      | some handler => .ok (.served handler (if r.getParams.isSome then value.params else none))
      | none =>
        if r.redirects method path value.tsr then
          .ok (.redirect
            (if 1 < path.length && path.getLast? = some slash then path.dropLast
              else path ++ [slash])
            (if method = say "GET" then 301 else 308))
        else r.unmatched method path

def register (r : Router H) (calls : List (Call H)) : Except Refusal (Router H) :=
  calls.foldlM (fun r call => r.handle call.method call.path (some call.handler)) r

end Router

end FastGoZero.HttpRouter
