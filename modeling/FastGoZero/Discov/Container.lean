import FastGoZero.Lib.GoMap

/-!
# The subscriber container

A listener that keeps the values of the etcd keys it has been told about, in two
maps: `values` lists the keys of each value, `mapping` has the value of each key.
In exclusive mode an addition first removes the keys that held the value; that loop
reads its slice while `doRemoveKey` compacts the same backing array.
-/

namespace FastGoZero.Discov

open Lib List

structure KV where
  key : String
  val : String
deriving DecidableEq

/-- What a cluster tells a listener. -/
inductive Notification where
  | onAdd (kv : KV)
  | onDelete (kv : KV)
deriving DecidableEq

structure Container where
  exclusive : Bool
  values : GoMap String (List String)
  mapping : GoMap String String
  snapshot : List String
  dirty : Bool

namespace Container

def newContainer (exclusive : Bool) : Container where
  exclusive := exclusive
  values := ∅
  mapping := ∅
  snapshot := []
  dirty := true

variable (c : Container)

/-- `c.values[value]`, the nil slice for an absent value. -/
def keysOf (value : String) : List String := (c.values.lookup value).getD []

def doRemoveKey (key : String) : Container :=
  match c.mapping.lookup key with
  | none => c
  | some server =>
    let remain := (c.keysOf server).filter (· ≠ key)
    { c with
      mapping := c.mapping.erase key
      values := if 0 < remain.length then c.values.insert server remain else c.values.erase server }

/-- One pass of the exclusive loop of `addKv`. `backing` is the array under the
ranged slice; `doRemoveKey` writes what remains to its front when the key is listed
under the same value. -/
def evict (value : String) (state : Container × List String) (i : Nat) : Container × List String :=
  let (c, backing) := state
  match backing[i]? with
  | none => (c, backing)
  | some each =>
    let shifted := if c.mapping.lookup each = some value then
        (c.keysOf value).filter (· ≠ each) ++
          backing.drop ((c.keysOf value).filter (· ≠ each)).length
      else backing
    (c.doRemoveKey each, shifted)

def addKv (key value : String) : Container × List String × Bool :=
  let c := { c with dirty := true }
  let keys := c.keysOf value
  let early := decide (0 < keys.length)
  let c := if c.exclusive ∧ early then
      ((List.range keys.length).foldl (evict value) (c, keys)).1
    else c
  let c := { c with
    values := c.values.insert value (c.keysOf value ++ [key])
    mapping := c.mapping.insert key value }
  (c, if early then (keys, true) else ([], false))

def removeKey (key : String) : Container :=
  { c with dirty := true }.doRemoveKey key

def onAdd (kv : KV) : Container := (c.addKv kv.key kv.val).1

def onDelete (kv : KV) : Container := c.removeKey kv.key

def notify : Notification → Container
  | .onAdd kv => c.onAdd kv
  | .onDelete kv => c.onDelete kv

/-- The values, from the snapshot unless something was added or removed since. -/
def getValues (visit : GoMap.RangeOrder String (List String)) : List String × Container :=
  if c.dirty then
    let vals := (c.values.range visit).map Prod.fst
    (vals, { c with snapshot := vals, dirty := false })
  else (c.snapshot, c)

end Container

/-- The value of each etcd key, if it has one. -/
abbrev Pairs := String → Option String

def Notification.key : Notification → String
  | .onAdd kv => kv.key
  | .onDelete kv => kv.key

/-- The value that a notification leaves its key with. -/
def Notification.outcome : Notification → Option String
  | .onAdd kv => some kv.val
  | .onDelete _ => none

def Notification.apply (pairs : Pairs) (note : Notification) : Pairs :=
  Function.update pairs note.key note.outcome

/-- The pairs that a sequence of notifications leaves. -/
def amount (pairs : Pairs) (notes : List Notification) : Pairs :=
  notes.foldl Notification.apply pairs

/-- Each notification of the sequence leads its key to the target. -/
def Toward (target : Pairs) (notes : List Notification) : Prop :=
  ∀ note ∈ notes, target note.key = note.outcome

/-- Notifications toward a target take each key they mention there and leave the
others alone, in whatever order they come. -/
theorem amount_toward (target : Pairs) (notes : List Notification) (toward : Toward target notes)
    (pairs : Pairs) (key : String) :
    amount pairs notes key =
      if key ∈ notes.map Notification.key then target key else pairs key := by
  induction notes generalizing pairs with
  | nil => rfl
  | cons note rest ih =>
    have first := toward note mem_cons_self
    have others : Toward target rest := fun other mem =>
      toward other (mem_cons_of_mem _ mem)
    change amount (note.apply pairs) rest key = _
    rw [ih others]
    by_cases later : key ∈ rest.map Notification.key
    · simp [later]
    · by_cases now : key = note.key
      · subst now
        simp [later, Notification.apply, first]
      · simp [later, now, Notification.apply]

end FastGoZero.Discov
