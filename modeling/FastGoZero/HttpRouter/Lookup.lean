import FastGoZero.HttpRouter.Node
import Mathlib.Algebra.Group.Nat.Defs

/-!
# Looking a path up

`getValue` walks down the tree, trying the indexed children of a node before its
wildcard child. Where both may match, it puts the node on `skippedNodes`, a slice of
fixed capacity, and at some of its dead ends it rolls back to the last of them.

A pass of the loop is read off the node and the path alone (`Node.pass`); `step` then
does what the pass asks for on the slices.
-/

namespace FastGoZero.HttpRouter

open Lib

universe u

structure Param where
  key : Str
  value : Str
deriving DecidableEq

/-- A slice of parameters: its items, within its capacity. -/
structure ParamSlice where
  items : List Param
  cap : Nat
deriving DecidableEq

structure NodeValue (H : Type u) where
  handler : Option H
  params : Option (List Param)
  tsr : Bool
  fullPath : Str
deriving DecidableEq

structure SkippedNode (H : Type u) where
  path : Str
  node : Node H
  paramsCount : Int16

def isHex (c : UInt8) : Bool :=
  (48 ≤ c && c ≤ 57) || (97 ≤ c && c ≤ 102) || (65 ≤ c && c ≤ 70)

def unhex (c : UInt8) : UInt8 :=
  if c ≤ 57 then c - 48 else if c ≤ 70 then c - 65 + 10 else c - 97 + 10

/-- `url.QueryUnescape`: '%' and two hexadecimal digits for a byte, '+' for a blank. -/
def queryUnescape : Str → Option Str
  | [] => some []
  | c :: rest =>
    if c = 37 then
      match rest with
      | high :: low :: more =>
        if isHex high && isHex low then
          (queryUnescape more).map fun tail => (unhex high * 16 + unhex low) :: tail
        else none
      | _ => none
    else (queryUnescape rest).map fun tail => (if c = 43 then 32 else c) :: tail

/-- The value of a parameter, for the piece of the path that its wildcard covers. -/
def paramValue (unescape : Bool) (piece : Str) : Str :=
  if unescape then (queryUnescape piece).getD piece else piece

/-- How a pass goes on: at another node or back to the caller. -/
inductive Turn (H : Type u) where
  | walk (node : Node H) (path : Str)
  | ret (handler : Option H) (fullPath : Str) (tsr : Bool)

/-- What a pass does before it goes on. -/
inductive Exit (H : Type u) where
  | go (turn : Turn H)
  | branch (whole : Str) (skipped child : Node H) (rest : Str)
  | rollBack (path : Str) (tsr : Bool)
  | save (skip : Nat) (wildcard piece : Str) (turn : Turn H)
  | panic (reason : Panic)

namespace Node

variable {H : Type u}

/-- The wildcard child, which is always at the end of the array, takes the path. -/
def capture (n : Node H) (path : Str) : Exit H :=
  match n.nType with
  | .param =>
    -- the parameter ends at '/' or with the path
    let stop := path.findIdx (· == slash)
    .save 1 n.path (path.take stop) <|
      if stop < path.length then
        match n.children with
        | child :: _ => .walk child (path.drop stop)
        | [] => .ret none [] (path.length = stop + 1)
      else match n.handlers with
        | some handlers => .ret (some handlers) n.fullPath false
        | none =>
          match n.children with
          | [child] => .ret none [] ((child.path = [slash] && child.handlers.isSome) ||
              (child.path = [] && child.indices = [slash]))
          | _ => .ret none [] false
  | .catchAll => .save 2 n.path path (.ret n.handlers n.fullPath false)
  | _ => .panic (.message (say "invalid node type"))

/-- A handle for this path and a trailing slash exists. -/
def slashChild (n : Node H) : Bool :=
  match n.indices.findIdx? (· == slash) with
  | none => false
  | some i => n.children[i]?.any fun child =>
      (child.path.length = 1 && child.handlers.isSome) ||
        (child.nType = .catchAll && child.children.head?.any fun leaf => leaf.handlers.isSome)

/-- A pass of the `walk` loop of `getValue`. -/
def pass (n : Node H) (path : Str) : Exit H :=
  if n.path.length < path.length ∧ n.path.isPrefixOf path then
    let rest := path.drop n.path.length
    match n.indices.findIdx? (fun c => rest.head? = some c) with
    | some i =>
      match n.children[i]? with
      | none => .panic .indexOutOfRange
      | some child =>
        if n.wildChild then .branch (n.path ++ rest) { n with indices := [] } child rest
        else .go (.walk child rest)
    | none =>
      if !n.wildChild then
        if rest ≠ [slash] then .rollBack rest false
        else .go (.ret none [] n.handlers.isSome)
      else match n.children.getLast? with
        | none => .panic .indexOutOfRange
        | some wild => wild.capture rest
  else if path = n.path then
    match n.handlers with
    | some handlers => .go (.ret (some handlers) n.fullPath false)
    | none =>
      if path ≠ [slash] then .rollBack path n.slashChild
      else if (n.wildChild && n.nType ≠ .root) || n.nType = .static then .go (.ret none [] true)
      else .go (.ret none [] n.slashChild)
  else if path = [slash] ∨ (n.path = path ++ [slash] ∧ n.handlers.isSome) then
    .go (.ret none [] true)
  else .rollBack path false

mutual

/-- A bound on the descents from a node. -/
def size : Node H → Nat
  | ⟨_, indices, _, _, _, children, _, _⟩ => sizes children + indices.length + 1

def sizes : List (Node H) → Nat
  | [] => 0
  | child :: rest => child.size + sizes rest

end

end Node

/-- The variables of `getValue`. The last of the skipped nodes comes first. -/
structure Walk (H : Type u) where
  node : Node H
  path : Str
  params : Option ParamSlice
  saved : Bool
  globalParamsCount : Int16
  skipped : List (SkippedNode H)

section

variable {H : Type u}

/-- What `getValue` returns, and the slice it leaves. -/
abbrev Found (H : Type u) := NodeValue H × List (SkippedNode H)

/-- `value.params`: nil until a parameter is saved, then the slice of the caller. -/
def Walk.valueParams (w : Walk H) : Option ParamSlice := if w.saved then w.params else none

def Walk.value (w : Walk H) (handler : Option H) (fullPath : Str) (tsr : Bool) : NodeValue H :=
  ⟨handler, w.valueParams.map ParamSlice.items, tsr, fullPath⟩

def Walk.take (w : Walk H) : Turn H → Walk H ⊕ Found H
  | .walk node path => .inl { w with node := node, path := path }
  | .ret handler fullPath tsr => .inr (w.value handler fullPath tsr, w.skipped)

def ParamSlice.capFor (slice : ParamSlice) (count : Int16) : Nat :=
  if (slice.cap : Int) < count.toInt then count.toInt.toNat else slice.cap

/-- Saves a param value, if there is a slice for it. -/
def Walk.save (w : Walk H) (unescape : Bool) (skip : Nat) (wildcard piece : Str) :
    Except Panic (Walk H) :=
  let count := w.globalParamsCount + 1
  match w.params with
  | none => .ok { w with globalParamsCount := count }
  | some slice =>
    if slice.capFor count < slice.items.length + 1 ∨ wildcard.length < skip then
      .error .sliceBounds
    else
      let param : Param := ⟨wildcard.drop skip, paramValue unescape piece⟩
      .ok { w with
        params := some ⟨slice.items ++ [param], slice.capFor count⟩
        saved := true
        globalParamsCount := count }

/-- Goes back to a skipped node. The parameters saved since then are cut off. -/
def Walk.restore (w : Walk H) (entry : SkippedNode H) (rest : List (SkippedNode H)) :
    Except Panic (Walk H) :=
  let next := { w with
    node := entry.node
    path := entry.path
    globalParamsCount := entry.paramsCount
    skipped := rest }
  match w.valueParams with
  | none => .ok next
  | some slice =>
    if entry.paramsCount.toInt < 0 ∨ (slice.cap : Int) < entry.paramsCount.toInt then
      .error .sliceBounds
    else .ok { next with
      params := some ⟨slice.items.take entry.paramsCount.toInt.toNat, slice.cap⟩ }

/-- One pass of the loop. The skipped nodes have a given capacity, none for a nil slice. -/
def Walk.step (room : Nat) (unescape : Bool) (w : Walk H) : Except Panic (Walk H ⊕ Found H) :=
  match w.node.pass w.path with
  | .go turn => .ok (w.take turn)
  | .branch whole skipped child rest =>
    if room = 0 then .error .nilPointer
    else if room < w.skipped.length + 1 then .error .sliceBounds
    else .ok (.inl { w with
      node := child
      path := rest
      skipped := ⟨whole, skipped, w.globalParamsCount⟩ :: w.skipped })
  | .rollBack path tsr =>
    if room = 0 then .error .nilPointer
    else match w.skipped.dropWhile fun entry => !path.isSuffixOf entry.path with
      | [] => .ok (.inr (w.value none [] tsr, []))
      | entry :: rest => (w.restore entry rest).map .inl
  | .save skip wildcard piece turn => (w.save unescape skip wildcard piece).map (·.take turn)
  | .panic reason => .error reason

def Walk.loop (room : Nat) (unescape : Bool) : Nat → Walk H → Except Panic (Found H)
  | 0, _ => .error .outOfFuel
  | fuel + 1, w =>
    match w.step room unescape with
    | .error reason => .error reason
    | .ok (.inl next) => next.loop room unescape fuel
    | .ok (.inr found) => .ok found

/-- Enough passes for a node, and for the nodes that are skipped. -/
def lookupFuel (n : Node H) (skipped : List (SkippedNode H)) : Nat :=
  2 ^ (n.size + 1) + skipped.foldr (fun entry fuel => 2 ^ (entry.node.size + 1) + fuel) 0

/-- Returns the handle registered with the given path. The parameters go to an empty
slice of the given capacity, if there is one. -/
def Node.getValue (n : Node H) (path : Str) (params : Option UInt16)
    (skipped : List (SkippedNode H)) (room : Nat) (unescape : Bool) : Except Panic (Found H) :=
  Walk.loop room unescape (lookupFuel n skipped)
    ⟨n, path, params.map fun cap => ⟨[], cap.toNat⟩, false, 0, skipped⟩

end

end FastGoZero.HttpRouter
