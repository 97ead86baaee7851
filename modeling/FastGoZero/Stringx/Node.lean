import FastGoZero.Lib.GoMap
import FastGoZero.Lib.Heap
import FastGoZero.Lib.Utf8

/-!
# The trie of keywords

`stringx.node` is a trie over runes whose nodes carry a fail link. The nodes are the cells of a
heap and a pointer is a position in it; the receiver of `add`, `build` and `find` is the first
cell. A nil map reads like an empty one, and `add` makes the map before it writes, so the two are
one here.

A loop along the fail links has no bound in the source. It takes as many turns here as the heap
has nodes, and running out of turns is a fault of its own, as are a nil pointer that is followed
and a slice out of its bounds.
-/

namespace FastGoZero.Stringx

open Lib

structure Node where
  children : GoMap Nat Nat
  fail : Option Nat
  depth : Nat
  isEnd : Bool

/-- `new(node)`. -/
def Node.new : Node := ⟨∅, none, 0, false⟩

abbrev Trie := Heap Node

inductive Fault where
  | nilPointer
  | sliceBounds
  | outOfTurns
  deriving DecidableEq

structure Scope where
  start : Nat
  stop : Nat
  deriving DecidableEq

namespace Trie

def root : Nat := 0

def new : Trie := Heap.empty.alloc Node.new

/-- `nd.children[char]`. -/
def child (trie : Trie) (nd char : Nat) : Option Nat :=
  (trie.read nd).bind fun node => node.children.lookup char

def deref (trie : Trie) (pointer : Nat) : Except Fault Node :=
  match trie.read pointer with
  | some node => .ok node
  | none => .error .nilPointer

/-- `child := new(node); child.depth = depth; nd.children[char] = child`. -/
def grow (trie : Trie) (nd char depth : Nat) : Trie :=
  (Heap.alloc trie { Node.new with depth := depth }).modify nd fun node =>
    { node with children := node.children.insert char trie.size }

/-- The loop of `add` from position `i` on, with the node it ends at. -/
def addChars (trie : Trie) (nd i : Nat) : List Nat → Trie × Nat
  | [] => (trie, nd)
  | char :: chars =>
    match trie.child nd char with
    | some child => addChars trie child (i + 1) chars
    | none => addChars (trie.grow nd char (i + 1)) trie.size (i + 1) chars

def markEnd (trie : Trie) (nd : Nat) : Trie :=
  trie.modify nd fun node => { node with isEnd := true }

def addRunes (trie : Trie) (chars : List Nat) : Trie :=
  if chars.isEmpty then trie
  else (trie.addChars root 0 chars).1.markEnd (trie.addChars root 0 chars).2

def add (trie : Trie) (word : Str) : Trie := trie.addRunes (Utf8.runes word)

def setFail (trie : Trie) (nd fail : Nat) : Trie :=
  trie.modify nd fun node => { node with fail := some fail }

/-- The inner loop of `build`: the fail link of the child of `cur` by `key`. -/
def fallBack (trie : Trie) (key : Nat) : Nat → Nat → Except Fault Nat
  | 0, _ => .error .outOfTurns
  | turns + 1, cur => do
    let node ← trie.deref cur
    match node.fail with
    | none => .ok root
    | some fail =>
      match trie.child fail key with
      | some found => .ok found
      | none => fallBack trie key turns fail

/-- One turn over the children of `nd`: the child joins the queue and gets its fail link. -/
def linkChild (nd : Nat) (state : Trie × List Nat) (entry : Nat × Nat) :
    Except Fault (Trie × List Nat) := do
  let fail ← state.1.fallBack entry.1 state.1.size nd
  pure (state.1.setFail entry.2 fail, state.2 ++ [entry.2])

/-- The queue loop of `build`. A map is ranged over in an order of its own at each node. -/
def buildLoop (orders : Nat → GoMap.RangeOrder Nat Nat) :
    Nat → Trie → List Nat → Except Fault Trie
  | _, trie, [] => .ok trie
  | 0, _, _ :: _ => .error .outOfTurns
  | turns + 1, trie, nd :: nodes => do
    let node ← trie.deref nd
    let state ← (node.children.range (orders nd)).foldlM (linkChild nd) (trie, nodes)
    buildLoop orders turns state.1 state.2

def linkRoot (state : Trie × List Nat) (entry : Nat × Nat) : Trie × List Nat :=
  (state.1.setFail entry.2 root, state.2 ++ [entry.2])

def build (orders : Nat → GoMap.RangeOrder Nat Nat) (trie : Trie) : Except Fault Trie := do
  let node ← trie.deref root
  let state := (node.children.range (orders root)).foldl linkRoot (trie, [])
  buildLoop orders trie.size state.1 state.2

/-- The loop of `find` that follows fail links to a node that the rune continues. It returns the
node to go on from, and the child when there is one. -/
def fall (trie : Trie) (char : Nat) : Nat → Nat → Except Fault (Nat × Option Nat)
  | 0, _ => .error .outOfTurns
  | turns + 1, cur =>
    if cur = root then .ok (cur, none)
    else do
      let node ← trie.deref cur
      match node.fail with
      | none => .error .nilPointer
      | some fail =>
        match trie.child fail char with
        | some child => .ok (child, some child)
        | none => fall trie char turns fail

/-- The loop of `find` that reports the keywords ending after position `i`. -/
def report (trie : Trie) (i : Nat) : Nat → Nat → List Scope → Except Fault (List Scope)
  | 0, _, _ => .error .outOfTurns
  | turns + 1, child, scopes =>
    if child = root then .ok scopes
    else do
      let node ← trie.deref child
      let scopes := if node.isEnd then scopes ++ [⟨i + 1 - node.depth, i + 1⟩] else scopes
      match node.fail with
      | none => .error .nilPointer
      | some fail => report trie i turns fail scopes

/-- The node to go on from after a rune, and the child to report from. -/
def advance (trie : Trie) (cur char : Nat) : Except Fault (Nat × Option Nat) :=
  match trie.child cur char with
  | some child => .ok (child, some child)
  | none => trie.fall char (trie.size + 1) cur

def findLoop (trie : Trie) (i cur : Nat) (scopes : List Scope) :
    List Nat → Except Fault (List Scope)
  | [] => .ok scopes
  | char :: chars => do
    let (cur, child) ← trie.advance cur char
    match child with
    | none => findLoop trie (i + 1) cur scopes chars
    | some child =>
      let scopes ← trie.report i (trie.size + 1) child scopes
      findLoop trie (i + 1) cur scopes chars

def find (trie : Trie) (chars : List Nat) : Except Fault (List Scope) :=
  trie.findLoop 0 root [] chars

end Trie

end FastGoZero.Stringx
