import FastGoZero.Discov.Container
import FastGoZero.Lib.Runs

/-!
# The etcd cluster of the registry

`cluster.values` and `cluster.listeners` with the two handlers that write them. Each
lock-protected section is a function of its own; a handler is its sections followed
by the notifications it sends after unlocking. A listener is a number here, and what
it does with a notification is its own affair.
-/

namespace FastGoZero.Discov

open Lib List

inductive EventType where
  | put
  | delete
  | other (code : Int)
deriving DecidableEq

structure Event where
  type : EventType
  kv : KV
deriving DecidableEq

/-- A notification on its way to a listener. -/
structure Delivery where
  listener : Nat
  note : Notification
deriving DecidableEq

/-- The orders of the two `range` loops of `handleChanges`. -/
structure ChangeOrders where
  vals : GoMap.RangeOrder String String
  kvs : GoMap.RangeOrder String String

structure Cluster where
  values : GoMap String (GoMap String String)
  listeners : GoMap String (List Nat)

namespace Cluster

def newCluster : Cluster where
  values := ∅
  listeners := ∅

variable (c : Cluster)

/-- `c.listeners[key]`. -/
def listenersOf (key : String) : List Nat := (c.listeners.lookup key).getD []

/-- `c.values[key]`, empty when absent. -/
def valuesOf (key : String) : GoMap String String := (c.values.lookup key).getD ∅

def pairs (key : String) : Pairs := fun etcdKey => (c.valuesOf key).lookup etcdKey

/-- The locked section of `getCurrent`. -/
def getCurrent (key : String) (visit : GoMap.RangeOrder String String) : List KV :=
  ((c.valuesOf key).range visit).map fun entry => ⟨entry.1, entry.2⟩

/-- `for _, kv := range kvs { m[kv.Key] = kv.Val }` on a new map. -/
def collect (kvs : List KV) : GoMap String String :=
  kvs.foldl (fun m kv => m.insert kv.key kv.val) ∅

/-- The entries of one map that the other does not have. -/
def missing (source target : GoMap String String) (visit : GoMap.RangeOrder String String) :
    List KV :=
  ((source.range visit).filter fun entry => target.lookup entry.1 ≠ some entry.2).map
    fun entry => ⟨entry.1, entry.2⟩

/-- The locked section of `handleChanges`: the listeners, and what to add and remove. -/
def changes (key : String) (kvs : List KV) (orders : ChangeOrders) : Cluster × List KV × List KV :=
  match c.values.lookup key with
  | none => ({ c with values := c.values.insert key (collect kvs) }, kvs, [])
  | some vals =>
    let m := collect kvs
    ({ c with values := c.values.insert key m }, missing m vals orders.kvs,
      missing vals m orders.vals)

/-- Each notification goes to all listeners before the next one. -/
def deliveries (listeners : List Nat) (notes : List Notification) : List Delivery :=
  notes.flatMap fun note => listeners.map fun listener => ⟨listener, note⟩

/-- Additions first, then deletions. -/
def changeNotes (add remove : List KV) : List Notification :=
  add.map Notification.onAdd ++ remove.map Notification.onDelete

def handleChanges (key : String) (kvs : List KV) (orders : ChangeOrders) :
    Cluster × List Delivery :=
  let listeners := c.listenersOf key
  let (after, add, remove) := c.changes key kvs orders
  (after, deliveries listeners (changeNotes add remove))

def applyEvent (key : String) (ev : Event) : Cluster :=
  match ev.type with
  | .put => { c with values := c.values.insert key ((c.valuesOf key).insert ev.kv.key ev.kv.val) }
  | .delete => { c with values := GoMap.modify c.values key fun vals => vals.erase ev.kv.key }
  | .other _ => c

/-- What the handler tells the listeners about one watch event. -/
def eventNotes (ev : Event) : List Notification :=
  match ev.type with
  | .put => [.onAdd ev.kv]
  | .delete => [.onDelete ev.kv]
  | .other _ => []

/-- One pass of the loop of `handleWatchEvents`, with the listeners copied before it. -/
def watchStep (key : String) (listeners : List Nat) (c : Cluster) (ev : Event) :
    Cluster × List Delivery :=
  (c.applyEvent key ev, deliveries listeners (eventNotes ev))

def handleWatchEvents (key : String) (events : List Event) : Cluster × List Delivery :=
  Runs.run (watchStep key (c.listenersOf key)) c events

end Cluster

/-- The notifications that one listener gets, in order. -/
def received (listener : Nat) (sent : List Delivery) : List Notification :=
  sent.filterMap fun delivery => if delivery.listener = listener then some delivery.note else none

theorem received_append (listener : Nat) (first second : List Delivery) :
    received listener (first ++ second) = received listener first ++ received listener second :=
  filterMap_append

/-- A listener gets the notifications that are sent, each as often as it is registered. -/
theorem mem_received_deliveries (listener : Nat) (listeners : List Nat)
    (notes : List Notification) (note : Notification) :
    note ∈ received listener (Cluster.deliveries listeners notes) ↔
      listener ∈ listeners ∧ note ∈ notes := by
  simp only [received, Cluster.deliveries, mem_filterMap, mem_flatMap, mem_map]
  constructor
  · rintro ⟨delivery, ⟨other, sent, target, registered, rfl⟩, kept⟩
    split at kept
    · rename_i same
      cases kept
      exact ⟨same ▸ registered, sent⟩
    · cases kept
  · rintro ⟨registered, sent⟩
    exact ⟨⟨listener, note⟩, ⟨note, sent, listener, registered, rfl⟩, if_pos rfl⟩

namespace Cluster

theorem pairs_insert (c : Cluster) (key probe : String) (m : GoMap String String) :
    ({ c with values := c.values.insert key m } : Cluster).pairs probe =
      if probe = key then fun etcdKey => m.lookup etcdKey else c.pairs probe := by
  funext etcdKey
  simp only [pairs, valuesOf, GoMap.lookup_insert_if]
  split <;> rfl

theorem mem_missing (source target : GoMap String String)
    (visit : GoMap.RangeOrder String String) (kv : KV) :
    kv ∈ missing source target visit ↔
      source.lookup kv.key = some kv.val ∧ target.lookup kv.key ≠ some kv.val := by
  simp only [missing, mem_map, mem_filter, decide_eq_true_eq]
  constructor
  · rintro ⟨⟨key, value⟩, ⟨mem, absent⟩, rfl⟩
    exact ⟨(GoMap.mem_range source visit key value).mp mem, absent⟩
  · rintro ⟨present, absent⟩
    exact ⟨(kv.key, kv.val), ⟨(GoMap.mem_range source visit _ _).mpr present, absent⟩, rfl⟩

theorem mem_getCurrent (c : Cluster) (key : String) (visit : GoMap.RangeOrder String String)
    (kv : KV) : kv ∈ c.getCurrent key visit ↔ c.pairs key kv.key = some kv.val := by
  simp only [getCurrent, mem_map, pairs]
  constructor
  · rintro ⟨⟨etcdKey, value⟩, mem, rfl⟩
    exact (GoMap.mem_range _ visit etcdKey value).mp mem
  · intro present
    exact ⟨(kv.key, kv.val), (GoMap.mem_range _ visit _ _).mpr present, rfl⟩

@[simp] theorem handleChanges_listeners (c : Cluster) (key : String) (kvs : List KV)
    (orders : ChangeOrders) : (c.handleChanges key kvs orders).1.listeners = c.listeners := by
  change (c.changes key kvs orders).1.listeners = c.listeners
  unfold changes
  split <;> rfl

@[simp] theorem applyEvent_listeners (c : Cluster) (key : String) (ev : Event) :
    (c.applyEvent key ev).listeners = c.listeners := by
  unfold applyEvent
  split <;> rfl

end Cluster

end FastGoZero.Discov
