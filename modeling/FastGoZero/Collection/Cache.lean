import FastGoZero.Lib.GoMap

/-!
# Cache

A cache keeps its values in a map, the order in which they were used in a list of keys, and a
timer for each of them in a timing wheel. A lock guards the map and the list; the requests to the
wheel are sent after it is released, except for those of an eviction.

What runs under the lock is a function of the store here, with the keys whose timers an eviction
removes. The elements of the list have an identity, as pointers to them are kept in a map. The
factor by which an expiry is varied at random is given with each call, and the counts of hits and
misses are left out.
-/

namespace FastGoZero.Collection

open Lib

universe u v

/-- An element of the list, which is known by its address. -/
structure Element (K : Type u) where
  id : Nat
  value : K

/-- The keys in the order of their use, the last one used first. -/
structure KeyLru (K : Type u) where
  limit : Nat
  evicts : List (Element K)
  elements : GoMap K (Element K)
  /-- The address of the next new element. -/
  nextId : Nat

/-- What the lock of a cache guards; without a limit there is no list of keys. -/
structure Store (K : Type u) (V : Type v) where
  data : GoMap K V
  lruCache : Option (KeyLru K)

/-- A request to the timing wheel. -/
inductive WheelRequest (K : Type u) (V : Type v) where
  | setTimer (key : K) (value : V) (delay : Int)
  | moveTimer (key : K) (delay : Int)
  | removeTimer (key : K)

variable {K : Type u} {V : Type v} [DecidableEq K]

namespace KeyLru

def newKeyLru (limit : Nat) : KeyLru K where
  limit
  evicts := []
  elements := ∅
  nextId := 0

/-- `evicts.MoveToFront`. -/
def moveToFront (klru : KeyLru K) (elem : Element K) : KeyLru K :=
  { klru with evicts := elem :: klru.evicts.filter fun e => e.id != elem.id }

/-- `evicts.PushFront`, and the pointer that is kept in the map. -/
def pushFront (klru : KeyLru K) (key : K) : KeyLru K :=
  { klru with
    evicts := ⟨klru.nextId, key⟩ :: klru.evicts
    elements := klru.elements.insert key ⟨klru.nextId, key⟩
    nextId := klru.nextId + 1 }

/-- An element is taken out of the list and of the map. -/
def unlink (klru : KeyLru K) (e : Element K) : KeyLru K :=
  { klru with
    evicts := klru.evicts.filter fun other => other.id != e.id
    elements := klru.elements.erase e.value }

end KeyLru

namespace Store

/-- The store of a cache with an option `WithLimit`. -/
def withLimit (limit : Int) : Store K V where
  data := ∅
  lruCache := if 0 < limit then some (KeyLru.newKeyLru limit.toNat) else none

variable (s : Store K V)

/-- `onEvict`, with the key whose timer is removed. -/
def onEvict (key : K) : Store K V × List K :=
  ({ s with data := s.data.erase key }, [key])

def removeElement (klru : KeyLru K) (e : Element K) : Store K V × List K :=
  ({ s with lruCache := some (klru.unlink e) }).onEvict e.value

def removeOldest (klru : KeyLru K) : Store K V × List K :=
  match klru.evicts.getLast? with
  | none => (s, [])
  | some elem => s.removeElement klru elem

/-- `lruCache.add`. -/
def lruAdd (key : K) : Store K V × List K :=
  match s.lruCache with
  | none => (s, [])
  | some klru =>
    match klru.elements.lookup key with
    | some elem => ({ s with lruCache := some (klru.moveToFront elem) }, [])
    | none =>
      let klru := klru.pushFront key
      let s := { s with lruCache := some klru }
      if klru.limit < klru.evicts.length then s.removeOldest klru else (s, [])

/-- `lruCache.remove`. -/
def lruRemove (key : K) : Store K V × List K :=
  match s.lruCache with
  | none => (s, [])
  | some klru =>
    match klru.elements.lookup key with
    | some elem => s.removeElement klru elem
    | none => (s, [])

/-- What `Del` does under the lock. -/
def delLocked (key : K) : Store K V × List K :=
  ({ s with data := s.data.erase key }).lruRemove key

/-- What `SetWithExpire` does under the lock, and whether the key was there. -/
def setLocked (key : K) (value : V) : Bool × Store K V × List K :=
  ((s.data.lookup key).isSome,
    ({ s with data := s.data.insert key value }).lruAdd key)

def doGet (key : K) : Option V × Store K V × List K :=
  match s.data.lookup key with
  | some value => (some value, s.lruAdd key)
  | none => (none, s, [])

end Store

/-- A cache with the requests that it has sent to its wheel. -/
structure Cache (K : Type u) (V : Type v) where
  expire : Int
  store : Store K V
  sent : List (WheelRequest K V)

namespace Cache

def newCache (expire limit : Int) : Cache K V := ⟨expire, Store.withLimit limit, []⟩

/-- The requests for removals that are sent under the lock. -/
def removals (keys : List K) : List (WheelRequest K V) := keys.map .removeTimer

variable (c : Cache K V)

def del (key : K) : Cache K V :=
  let (store, evicted) := c.store.delLocked key
  { c with store, sent := c.sent ++ removals evicted ++ [.removeTimer key] }

/-- The request of `SetWithExpire` after the lock is released. -/
def timerRequest (present : Bool) (key : K) (value : V) (expiry : Int) : WheelRequest K V :=
  if present then .moveTimer key expiry else .setTimer key value expiry

/-- The function is what `AroundDuration` makes of an expiry. -/
def setWithExpire (around : Int → Int) (key : K) (value : V) (expire : Int) : Cache K V :=
  let (present, store, evicted) := c.store.setLocked key value
  { c with
    store
    sent := c.sent ++ removals evicted ++ [timerRequest present key value (around expire)] }

def set (around : Int → Int) (key : K) (value : V) : Cache K V :=
  c.setWithExpire around key value c.expire

def get (key : K) : Option V × Cache K V :=
  let (value, store, evicted) := c.store.doGet key
  (value, { c with store, sent := c.sent ++ removals evicted })

/-- A `Take` that runs alone; its function returns a value or an error. -/
def take (around : Int → Int) (key : K) (fetch : Except String V) : Except String V × Cache K V :=
  match c.get key with
  | (some value, c) => (.ok value, c)
  | (none, c) =>
    match c.get key with
    | (some value, c) => (.ok value, c)
    | (none, c) =>
      match fetch with
      | .error e => (.error e, c)
      | .ok value => (.ok value, c.set around key value)

end Cache

/-- A call, or the expiration of a timer, which deletes its key. -/
inductive CacheCall (K : Type u) (V : Type v) where
  | set (around : Int → Int) (key : K) (value : V)
  | setWithExpire (around : Int → Int) (key : K) (value : V) (expire : Int)
  | get (key : K)
  | del (key : K)
  | take (around : Int → Int) (key : K) (fetch : Except String V)
  | expired (key : K)

namespace Cache

def step (c : Cache K V) : CacheCall K V → Cache K V
  | .set around key value => c.set around key value
  | .setWithExpire around key value expire => c.setWithExpire around key value expire
  | .get key => (c.get key).2
  | .del key => c.del key
  | .take around key fetch => (c.take around key fetch).2
  | .expired key => c.del key

/-- The cache after a sequence of calls, one at a time. -/
def after (c : Cache K V) : List (CacheCall K V) → Cache K V
  | [] => c
  | call :: calls => (c.step call).after calls

def stores (c : Cache K V) : CacheCall K V → Option K
  | .set _ key _ | .setWithExpire _ key _ _ => some key
  | .take _ key (.ok _) => if (c.store.data.lookup key).isSome then none else some key
  | _ => none

/-- The key that a call stores or reads with success. -/
def uses (c : Cache K V) : CacheCall K V → Option K
  | .set _ key _ | .setWithExpire _ key _ _ => some key
  | .get key => if (c.store.data.lookup key).isSome then some key else none
  | .take _ key (.ok _) => some key
  | .take _ key (.error _) => if (c.store.data.lookup key).isSome then some key else none
  | .del _ => none
  | .expired _ => none

/-- The keys that were stored or read with success, the last one first. -/
def history (c : Cache K V) (past : List K) : List (CacheCall K V) → List K
  | [] => past
  | call :: calls => (c.step call).history ((c.uses call).toList ++ past) calls

end Cache

end FastGoZero.Collection
