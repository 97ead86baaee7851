import FastGoZero.Lib.GoMap
import FastGoZero.Lib.GoString
import FastGoZero.Lib.Runs
import FastGoZero.Lib.SortSearch

/-!
# The consistent-hash ring

`ConsistentHash` with the operations that build it and the lookup. A node is any
value with a text; its virtual nodes are the hashes of that text followed by an
index. Go's `int` is `Int64`. Strings are byte lists, as the hash function reads
them.
-/

namespace FastGoZero.Hash

open Lib Lib.SortSearch

universe u

/-- A value that can be held by an `any`: `lang.Repr` and the `%v` verb give its
two texts. -/
class Printable (α : Type u) where
  repr : α → Str
  sprint : α → Str

/-- A string is its own text. -/
instance : Printable Str where
  repr := id
  sprint := id

/-- `strconv.Itoa` of a loop index. -/
def itoa (i : Nat) : Str := (Nat.toDigits 10 i).map fun digit => UInt8.ofNat digit.toNat

def topWeight : Int64 := 100

def minReplicas : Int64 := 100

def prime : Nat := 16777619

variable {α : Type u} [Printable α]

/-- `fmt.Sprintf("%d:%v", prime, node)`. -/
def innerRepr (node : α) : Str :=
  itoa prime ++ [UInt8.ofNat ':'.toNat] ++ Printable.sprint node

/-- The lookup divides by the number of keys. -/
inductive Panic where
  | divideByZero
deriving DecidableEq

structure ConsistentHash (α : Type u) where
  hashFunc : Str → UInt64
  replicas : Int64
  keys : List UInt64
  ring : GoMap UInt64 (List α)
  nodes : GoMap Str Unit

namespace ConsistentHash

/-- `hash` is the package's `Hash`, the choice for a nil function. -/
def newCustomConsistentHash (hash : Str → UInt64) (replicas : Int64)
    (fn : Option (Str → UInt64)) : ConsistentHash α where
  hashFunc := fn.getD hash
  replicas := if replicas < minReplicas then minReplicas else replicas
  keys := []
  ring := ∅
  nodes := ∅

def newConsistentHash (hash : Str → UInt64) : ConsistentHash α :=
  newCustomConsistentHash hash minReplicas (some hash)

/-- The number of passes of `for i := 0; i < count; i++`. -/
def passes (count : Int64) : Nat := count.toInt.toNat

variable (h : ConsistentHash α) (nodeRepr : Str)

def label (i : Nat) : UInt64 :=
  h.hashFunc (nodeRepr ++ itoa i)

def addNode : ConsistentHash α :=
  { h with nodes := h.nodes.insert nodeRepr () }

def containsNode : Bool :=
  (h.nodes.lookup nodeRepr).isSome

def removeNode : ConsistentHash α :=
  { h with nodes := h.nodes.erase nodeRepr }

/-- `h.ring[hash]`, the nil slice for an absent key. -/
def nodesAt (hash : UInt64) : List α := (h.ring.lookup hash).getD []

def removeRingNode (hash : UInt64) (nodeRepr : Str) : ConsistentHash α :=
  match h.ring.lookup hash with
  | none => h
  | some nodes =>
    let newNodes := nodes.filter fun x => Printable.repr x ≠ nodeRepr
    if 0 < newNodes.length then { h with ring := h.ring.insert hash newNodes }
    else { h with ring := h.ring.erase hash }

/-- One pass of the loop of `Remove`. -/
def removeReplica (h : ConsistentHash α) (i : Nat) : ConsistentHash α :=
  let hash := h.label nodeRepr i
  { h with keys := removeKey h.keys hash }.removeRingNode hash nodeRepr

def remove (node : α) : ConsistentHash α :=
  let nodeRepr := Printable.repr node
  if h.containsNode nodeRepr then
    ((List.range (passes h.replicas)).foldl (removeReplica nodeRepr) h).removeNode nodeRepr
  else h

/-- One pass of the loop of `AddWithReplicas`. -/
def addReplica (node : α) (h : ConsistentHash α) (i : Nat) : ConsistentHash α :=
  let hash := h.label (Printable.repr node) i
  { h with keys := h.keys ++ [hash], ring := h.ring.insert hash (h.nodesAt hash ++ [node]) }

def sortKeys : ConsistentHash α :=
  { h with keys := h.keys.insertionSort (· ≤ ·) }

def addWithReplicas (node : α) (replicas : Int64) : ConsistentHash α :=
  let h := h.remove node
  let replicas := if replicas > h.replicas then h.replicas else replicas
  ((List.range (passes replicas)).foldl (addReplica node)
    (h.addNode (Printable.repr node))).sortKeys

def add (node : α) : ConsistentHash α := h.addWithReplicas node h.replicas

def addWithWeight (node : α) (weight : Int64) : ConsistentHash α :=
  h.addWithReplicas node (h.replicas * weight / topWeight)

def get (v : α) : Except Panic (Option α) :=
  if h.ring.len = 0 then .ok none
  else if h.keys.length = 0 then .error .divideByZero
  else
    let hash := h.hashFunc (Printable.repr v)
    let index := lowerBound h.keys hash % h.keys.length
    let nodes := h.nodesAt (h.keys.getD index 0)
    match nodes with
    | [] => .ok none
    | [node] => .ok (some node)
    | nodes => .ok nodes[(h.hashFunc (innerRepr v)).toNat % nodes.length]?

/-- A call that changes the ring. -/
inductive Call (α : Type u) where
  | add (node : α)
  | addWithReplicas (node : α) (replicas : Int64)
  | addWithWeight (node : α) (weight : Int64)
  | remove (node : α)

def Call.node : Call α → α
  | .add node | .addWithReplicas node _ | .addWithWeight node _ | .remove node => node

def step : Call α → ConsistentHash α × List Unit
  | .add node => (h.add node, [])
  | .addWithReplicas node replicas => (h.addWithReplicas node replicas, [])
  | .addWithWeight node weight => (h.addWithWeight node weight, [])
  | .remove node => (h.remove node, [])

end ConsistentHash

end FastGoZero.Hash
