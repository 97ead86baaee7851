import FastGoZero.Lib.GoString

/-!
# The radix tree of the router: adding routes

`node` with `addRoute` and `insertChild`. The tree is a value: an operation that walks
down through pointers rebuilds the nodes on its way. A panic carries the source's
message. The loops take fuel from the length of the path, which each pass shortens.
-/

namespace FastGoZero.HttpRouter

open Lib

universe u

def slash : UInt8 := 47

def colon : UInt8 := 58

def star : UInt8 := 42

inductive NodeType where
  | static
  | root
  | param
  | catchAll
deriving DecidableEq

/-- The run-time panics of the router, and the loops' lack of fuel. -/
inductive Panic where
  | message (text : Str)
  | indexOutOfRange
  | sliceBounds
  | nilPointer
  | outOfFuel
deriving DecidableEq

structure Node (H : Type u) where
  path : Str := []
  indices : Str := []
  wildChild : Bool := false
  nType : NodeType := .static
  priority : UInt32 := 0
  children : List (Node H) := []
  handlers : Option H := none
  fullPath : Str := []

/-- A byte that starts a wildcard. -/
def isWild (c : UInt8) : Bool := c = colon || c = star

variable (path : Str)

/-- The first wildcard segment, where it starts and whether its name is valid. -/
def findWildcard : Option (Str × Nat × Bool) :=
  match path.findIdx? isWild with
  | none => none
  | some start =>
    let wildcard := Str.before slash (path.drop start)
    some (wildcard, start, (wildcard.drop 1).all fun c => !isWild c)

def say (text : String) : Str := Str.bytes text

namespace Node

variable {H : Type u}

/-- Adds a child node, keeping the wildcard child at the end. -/
def addChild (n child : Node H) : Node H :=
  if n.wildChild ∧ 0 < n.children.length then
    { n with children := n.children.dropLast ++ child :: n.children.getLast?.toList }
  else { n with children := n.children ++ [child] }

def bump (n : Node H) : Node H := { n with priority := n.priority + 1 }

/-- The loop of `incrementChildPrio`: swaps the child forward past lower priorities. -/
def moveForward (prio : UInt32) : Nat → List (Node H) → Nat × List (Node H)
  | 0, cs => (0, cs)
  | pos + 1, cs =>
    match cs[pos]?, cs[pos + 1]? with
    | some before, some child =>
      if before.priority < prio then
        moveForward prio pos ((cs.set pos child).set (pos + 1) before)
      else (pos + 1, cs)
    | _, _ => (pos + 1, cs)

/-- Increments priority of the given child and reorders if necessary. -/
def incrementChildPrio (n : Node H) (pos : Nat) : Node H × Nat :=
  let cs := n.children.modify pos bump
  let prio := (cs[pos]?.map Node.priority).getD 0
  let (newPos, cs) := moveForward prio pos cs
  let indices := if newPos ≠ pos then
      n.indices.take newPos ++ (n.indices.drop pos).take 1 ++
        ((n.indices.take pos).drop newPos ++ n.indices.drop (pos + 1))
    else n.indices
  ({ n with children := cs, indices := indices }, newPos)

/-- The node of a `:name`. If the path doesn't end with the wildcard, then there will be
another subpath starting with '/'. -/
def paramChild (insert : Node H → Str → Except Panic (Node H))
    (wildcard path fullPath : Str) (handlers : H) : Except Panic (Node H) :=
  let child : Node H := { nType := .param, path := wildcard, fullPath := fullPath, priority := 1 }
  if wildcard.length < path.length then do
    let below ← insert { priority := 1, fullPath := fullPath } (path.drop wildcard.length)
    .ok (child.addChild below)
  else .ok { child with handlers := some handlers }

/-- The nodes of a `*name`: the first has an empty path, the second holds the variable. -/
def catchAllChild (fullPath : Str) (handlers : H) : Node H :=
  let leaf : Node H :=
    { path := path, nType := .catchAll, handlers := some handlers, priority := 1,
      fullPath := fullPath }
  { wildChild := true, nType := .catchAll, fullPath := fullPath, priority := 1,
    children := [leaf] }

def insertChild : Nat → Node H → Str → Str → H → Except Panic (Node H)
  | 0, _, _, _, _ => .error .outOfFuel
  | fuel + 1, n, path, fullPath, handlers =>
    match findWildcard path with
    | none => .ok { n with path := path, handlers := some handlers, fullPath := fullPath }
    | some (wildcard, i, valid) =>
      if !valid then
        .error (.message (say "only one wildcard per path segment is allowed, has: '" ++ wildcard ++
          say "' in path '" ++ fullPath ++ say "'"))
      else if wildcard.length < 2 then
        .error (.message (say "wildcards must be named with a non-empty name in path '" ++
          fullPath ++ say "'"))
      else if wildcard.head? = some colon then do
        let n := if 0 < i then { n with path := path.take i } else n
        let path := path.drop i
        let child ← paramChild (fun below path => insertChild fuel below path fullPath handlers)
          wildcard path fullPath handlers
        pure { n.addChild child with wildChild := true }
      else if i + wildcard.length ≠ path.length then
        .error (.message
          (say "catch-all routes are only allowed at the end of the path in path '" ++ fullPath ++
            say "'"))
      else if n.path.getLast? = some slash then
        let pathSeg := (n.children.head?.map fun c => Str.before slash c.path).getD []
        .error (.message (say "catch-all wildcard '" ++ path ++ say "' in new path '" ++ fullPath ++
          say "' conflicts with existing path segment '" ++ pathSeg ++
          say "' in existing prefix '" ++ n.path ++ pathSeg ++ say "'"))
      else match i with
        | 0 => .error .indexOutOfRange
        | i + 1 =>
          if path[i]? ≠ some slash then
            .error (.message (say "no / before catch-all in path '" ++ fullPath ++ say "'"))
          else
            .ok { { n with path := path.take i }.addChild
              (catchAllChild (path.drop i) fullPath handlers) with indices := [slash] }

/-- Splits the edge to a node: the node keeps the part in common with the path. -/
def splitEdge (n : Node H) (path : Str) (i : Nat) (fullPath : Str) : Node H :=
  let child : Node H :=
    { path := n.path.drop i, wildChild := n.wildChild, nType := .static, indices := n.indices,
      children := n.children, handlers := n.handlers, priority := n.priority - 1,
      fullPath := n.fullPath }
  { n with
    children := [child]
    indices := (n.path.drop i).take 1
    path := path.take i
    handlers := none
    wildChild := false
    fullPath := fullPath }

/-- The new path goes on through the wildcard child. -/
def continuesWild (w : Node H) : Bool :=
  w.path.isPrefixOf path && w.nType ≠ .catchAll &&
    (path.length ≤ w.path.length || path[w.path.length]? = some slash)

def wildcardConflict (fullPath : Str) (w : Node H) : Panic :=
  let pathSeg := if w.nType ≠ .catchAll then Str.before slash path else path
  match Str.index fullPath pathSeg with
  | none => .sliceBounds
  | some place =>
    .message (say "'" ++ pathSeg ++ say "' in new path '" ++ fullPath ++
      say "' conflicts with existing wildcard '" ++ w.path ++ say "' in existing prefix '" ++
      (fullPath.take place ++ w.path) ++ say "'")

def atChild (n : Node H) (pos : Nat) (walk : Node H → Except Panic (Node H)) :
    Except Panic (Node H) :=
  match n.children[pos]? with
  | none => .error .indexOutOfRange
  | some child => do
    let child ← walk child
    .ok { n with children := n.children.set pos child }

/-- A pass of the `walk` loop after the common prefix: the path is what is left of it. -/
def addRest (walk : Node H → Nat → Except Panic (Node H)) (n : Node H) (path fullPath : Str)
    (parentFullPathIndex : Nat) (handlers : H) : Except Panic (Node H) :=
  match path with
  | [] =>
    if n.handlers.isSome then
      .error (.message (say "handler are already registered for path '" ++ fullPath ++ say "'"))
    else .ok { n with handlers := some handlers, fullPath := fullPath }
  | c :: rest =>
    -- '/' after param
    if n.nType = .param ∧ c = slash ∧ n.children.length = 1 then
      n.atChild 0 fun child => walk child.bump (parentFullPathIndex + n.path.length)
    else match n.indices.findIdx? (· == c) with
      | some pos =>
        let (m, pos) := n.incrementChildPrio pos
        m.atChild pos fun child => walk child (parentFullPathIndex + n.path.length)
      | none =>
        if isWild c = false ∧ n.nType ≠ .catchAll then
          let m := { n with indices := n.indices ++ [c] }.addChild { fullPath := fullPath }
          let (m, pos) := m.incrementChildPrio (m.indices.length - 1)
          m.atChild pos fun child =>
            insertChild ((c :: rest).length + 1) child (c :: rest) fullPath handlers
        else if n.wildChild then
          n.atChild (n.children.length - 1) fun w =>
            if continuesWild (c :: rest) w then walk w.bump parentFullPathIndex
            else .error (wildcardConflict (c :: rest) fullPath w)
        else insertChild ((c :: rest).length + 1) n (c :: rest) fullPath handlers

/-- The `walk` loop of `addRoute`. -/
def addWalk : Nat → Node H → Str → Str → Nat → H → Except Panic (Node H)
  | 0, _, _, _, _, _ => .error .outOfFuel
  | fuel + 1, n, path, fullPath, parentFullPathIndex, handlers =>
    let i := Str.longestCommonPrefix path n.path
    let n := if i < n.path.length then
        n.splitEdge path i (fullPath.take (parentFullPathIndex + i))
      else n
    addRest (fun child index => addWalk fuel child (path.drop i) fullPath index handlers) n
      (path.drop i) fullPath parentFullPathIndex handlers

/-- Adds a node with the given handle to the path. -/
def addRoute (n : Node H) (path : Str) (handlers : H) : Except Panic (Node H) :=
  let n := n.bump
  if n.path = [] ∧ n.children = [] then do
    let n ← insertChild (path.length + 1) n path path handlers
    .ok { n with nType := .root }
  else addWalk (path.length + 1) n path path 0 handlers

end Node

end FastGoZero.HttpRouter
