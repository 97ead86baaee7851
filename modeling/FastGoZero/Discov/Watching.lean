import FastGoZero.Discov.Cluster
import FastGoZero.Lib.Concurrent

/-!
# The goroutines of a cluster

`monitor` registers a listener, loads the pairs of its key and starts a goroutine that watches the
key. That goroutine opens a stream and handles what it receives until the channel `done` is closed;
a broken stream is opened again, after another load if it was compacted. When the connection comes
back, `reload` takes the lock, closes `done`, waits for the watching goroutines, and starts new ones
for all keys.

A lock section is one step, except for the one of `reload`, which holds the lock while it waits; so
the lock is taken exactly while a `reload` holds it. What etcd answers, and when, is given with each
step. Each group of goroutines has its own `done`, and both are known by the number of reloads
before them; a goroutine reads which group or channel is the current one before it uses it. A call
to a listener is a step that returns.
-/

namespace FastGoZero.Discov

open Lib Lib.Concurrent

/-- A load or a stream that was opened for a key, and whether it asks for the key alone. -/
structure Opening where
  key : String
  exact : Bool
deriving DecidableEq

/-- The variables of a cluster that its goroutines share. -/
structure WatchedCluster where
  cluster : Cluster
  exactMatch : Bool
  /-- The lock is held by a `reload`. -/
  locked : Bool
  /-- The number of `done` and of the group. -/
  generation : Nat
  doneClosed : Bool
  /-- The counters of the groups. -/
  active : Nat → Nat
  /-- The loads and streams that were opened, the last one first. -/
  opened : List Opening

/-- Who calls `load`: `monitor`, or a goroutine of a group. -/
inductive LoadCaller where
  | monitor
  | watcher (group : Nat)
deriving DecidableEq

/-- What a goroutine meets: the answers of etcd, a closed `done`, and the orders of loops over
maps. -/
inductive Answer where
  | go
  | failed
  | loaded (kvs : List KV) (rev : Int)
  | changed (orders : ChangeOrders)
  | streamClosed
  | streamBroken (compacted : Bool)
  | events (events : List Event)
  | done
  | visited (visit : GoMap.RangeOrder String (List Nat))

/-- Where a goroutine is. -/
inductive Watcher where
  /-- `monitor` before its lock section. -/
  | registers (key : String) (listener : Nat) (exact : Bool)
  | client (key : String)
  /-- `load` before a request, while it waits, before its lock section, and after it. -/
  | loads (caller : LoadCaller) (key : String)
  | gets (caller : LoadCaller) (key : String)
  | changes (caller : LoadCaller) (key : String) (kvs : List KV) (rev : Int)
  | notifies (caller : LoadCaller) (key : String) (rev : Int) (sent : List Delivery)
  /-- `monitor` before it starts the goroutine that watches, and with the group it uses. -/
  | runs (key : String) (rev : Int)
  | enters (group : Nat) (key : String) (rev : Int)
  /-- `watchStream` before it opens a stream, before its `select`, and at it. -/
  | streams (group : Nat) (key : String) (rev : Int)
  | listens (group : Nat) (key : String) (rev : Int)
  | selects (group : Nat) (key : String) (rev : Int) (done : Nat)
  /-- `handleWatchEvents` before it copies the listeners, between events, and at the listeners. -/
  | handles (group : Nat) (key : String) (rev : Int) (events : List Event)
  | applies (group : Nat) (key : String) (rev : Int) (listeners : List Nat) (events : List Event)
  | tells (group : Nat) (key : String) (rev : Int) (listeners : List Nat) (events : List Event)
      (sent : List Delivery)
  /-- `reload` before its lock section, in it, and after it. -/
  | reloads
  | closes
  | waits
  | starts (keys : List String)
  | enlists (group : Nat) (key : String) (keys : List String)
  | returned
deriving DecidableEq

def LoadCaller.resume (caller : LoadCaller) (key : String) (rev : Int) : Watcher :=
  match caller with
  | .monitor => .runs key rev
  | .watcher group => .streams group key rev

/-- An event of an unknown type is only logged. -/
def Event.locks (ev : Event) : Bool :=
  match ev.type with
  | .put => true
  | .delete => true
  | .other _ => false

namespace WatchedCluster

def new : WatchedCluster where
  cluster := Cluster.newCluster
  exactMatch := false
  locked := false
  generation := 0
  doneClosed := false
  active := fun _ => 0
  opened := []

variable (s : WatchedCluster)

/-- The channel `done` of a number is closed. -/
def isClosed (done : Nat) : Bool :=
  decide (done < s.generation) || (done == s.generation && s.doneClosed)

/-- The lock section of `monitor`. -/
def register (key : String) (listener : Nat) (exact : Bool) : WatchedCluster :=
  { s with
    cluster := { s.cluster with
      listeners := s.cluster.listeners.insert key (s.cluster.listenersOf key ++ [listener]) }
    exactMatch := exact }

/-- A request for the pairs of a key, or for a stream; both read `exactMatch`. -/
def opens (key : String) : WatchedCluster :=
  { s with opened := ⟨key, s.exactMatch⟩ :: s.opened }

def enter (group : Nat) : WatchedCluster :=
  { s with active := Function.update s.active group (s.active group + 1) }

def leave (group : Nat) : WatchedCluster :=
  { s with active := Function.update s.active group (s.active group - 1) }

/-- `reload` after its wait. -/
def renew : WatchedCluster :=
  { s with locked := false, generation := s.generation + 1, doneClosed := false }

def whenFree {α : Type} (result : α) : Option α :=
  if s.locked then none else some result

def proceed : Watcher → Answer → Option (WatchedCluster × Watcher × List Watcher)
  | .registers key listener exact, .go =>
    s.whenFree (s.register key listener exact, .client key, [])
  | .client key, .go => some (s, .loads .monitor key, [])
  | .client _, .failed => some (s, .returned, [])
  | .loads caller key, .go => some (s.opens key, .gets caller key, [])
  | .gets caller key, .failed => some (s, .loads caller key, [])
  | .gets caller key, .loaded kvs rev => some (s, .changes caller key kvs rev, [])
  | .changes caller key kvs rev, .changed orders =>
    s.whenFree ({ s with cluster := (s.cluster.handleChanges key kvs orders).1 },
      .notifies caller key rev (s.cluster.handleChanges key kvs orders).2, [])
  | .notifies caller key rev (_ :: sent), .go => some (s, .notifies caller key rev sent, [])
  | .notifies caller key rev [], .go => some (s, caller.resume key rev, [])
  | .runs key rev, .go => some (s, .enters s.generation key rev, [])
  | .enters group key rev, .go => some (s.enter group, .returned, [.streams group key rev])
  | .streams group key rev, .go => some (s.opens key, .listens group key rev, [])
  | .listens group key rev, .go => some (s, .selects group key rev s.generation, [])
  | .selects group key rev _, .streamClosed => some (s, .streams group key rev, [])
  | .selects group key rev _, .streamBroken compacted =>
    some (s, if rev ≠ 0 ∧ compacted then .loads (.watcher group) key
      else .streams group key rev, [])
  | .selects group key rev _, .events events => some (s, .handles group key rev events, [])
  | .selects group _ _ done, .done =>
    if s.isClosed done then some (s.leave group, .returned, []) else none
  | .handles group key rev events, .go =>
    s.whenFree (s, .applies group key rev (s.cluster.listenersOf key) events, [])
  | .applies group key rev _ [], .go => some (s, .listens group key rev, [])
  | .applies group key rev listeners (ev :: events), .go =>
    if ev.locks then
      s.whenFree ({ s with cluster := s.cluster.applyEvent key ev },
        .tells group key rev listeners events
          (Cluster.deliveries listeners (Cluster.eventNotes ev)), [])
    else some (s, .applies group key rev listeners events, [])
  | .tells group key rev listeners events (_ :: sent), .go =>
    some (s, .tells group key rev listeners events sent, [])
  | .tells group key rev listeners events [], .go =>
    some (s, .applies group key rev listeners events, [])
  | .reloads, .go => s.whenFree ({ s with locked := true }, .closes, [])
  | .closes, .go => some ({ s with doneClosed := true }, .waits, [])
  | .waits, .visited visit =>
    if s.active s.generation = 0 then
      some (s.renew, .starts ((s.cluster.listeners.range visit).map Prod.fst), [])
    else none
  | .starts (key :: keys), .go => some (s, .enlists s.generation key keys, [])
  | .enlists group key keys, .go =>
    some (s.enter group, .starts keys, [.loads (.watcher group) key])
  | .starts [], .go => some (s, .returned, [])
  | _, _ => none

end WatchedCluster

/-- What a goroutine does in one step. -/
inductive WatchedCluster.Proceeds (s : WatchedCluster) :
    Watcher → WatchedCluster → Watcher → List Watcher → Prop
  | registers (key : String) (listener : Nat) (exact : Bool) (free : s.locked = false) :
    s.Proceeds (.registers key listener exact) (s.register key listener exact) (.client key) []
  | connects (key : String) : s.Proceeds (.client key) s (.loads .monitor key) []
  | gives_up (key : String) : s.Proceeds (.client key) s .returned []
  | requests (caller : LoadCaller) (key : String) :
    s.Proceeds (.loads caller key) (s.opens key) (.gets caller key) []
  | retries (caller : LoadCaller) (key : String) :
    s.Proceeds (.gets caller key) s (.loads caller key) []
  | loads (caller : LoadCaller) (key : String) (kvs : List KV) (rev : Int) :
    s.Proceeds (.gets caller key) s (.changes caller key kvs rev) []
  | changes (caller : LoadCaller) (key : String) (kvs : List KV) (rev : Int)
      (orders : ChangeOrders) (free : s.locked = false) :
    s.Proceeds (.changes caller key kvs rev)
      { s with cluster := (s.cluster.handleChanges key kvs orders).1 }
      (.notifies caller key rev (s.cluster.handleChanges key kvs orders).2) []
  | notifies (caller : LoadCaller) (key : String) (rev : Int) (first : Delivery)
      (sent : List Delivery) :
    s.Proceeds (.notifies caller key rev (first :: sent)) s (.notifies caller key rev sent) []
  | resumes (caller : LoadCaller) (key : String) (rev : Int) :
    s.Proceeds (.notifies caller key rev []) s (caller.resume key rev) []
  | runs (key : String) (rev : Int) :
    s.Proceeds (.runs key rev) s (.enters s.generation key rev) []
  | enters (group : Nat) (key : String) (rev : Int) :
    s.Proceeds (.enters group key rev) (s.enter group) .returned [.streams group key rev]
  | streams (group : Nat) (key : String) (rev : Int) :
    s.Proceeds (.streams group key rev) (s.opens key) (.listens group key rev) []
  | listens (group : Nat) (key : String) (rev : Int) :
    s.Proceeds (.listens group key rev) s (.selects group key rev s.generation) []
  | reopens (group : Nat) (key : String) (rev : Int) (done : Nat) :
    s.Proceeds (.selects group key rev done) s (.streams group key rev) []
  | reloaded (group : Nat) (key : String) (rev : Int) (done : Nat) (nonzero : rev ≠ 0) :
    s.Proceeds (.selects group key rev done) s (.loads (.watcher group) key) []
  | receives (group : Nat) (key : String) (rev : Int) (done : Nat) (events : List Event) :
    s.Proceeds (.selects group key rev done) s (.handles group key rev events) []
  | returns (group : Nat) (key : String) (rev : Int) (done : Nat) (closed : s.isClosed done) :
    s.Proceeds (.selects group key rev done) (s.leave group) .returned []
  | handles (group : Nat) (key : String) (rev : Int) (events : List Event)
      (free : s.locked = false) :
    s.Proceeds (.handles group key rev events) s
      (.applies group key rev (s.cluster.listenersOf key) events) []
  | handled (group : Nat) (key : String) (rev : Int) (listeners : List Nat) :
    s.Proceeds (.applies group key rev listeners []) s (.listens group key rev) []
  | applies (group : Nat) (key : String) (rev : Int) (listeners : List Nat) (ev : Event)
      (events : List Event) (locks : ev.locks) (free : s.locked = false) :
    s.Proceeds (.applies group key rev listeners (ev :: events))
      { s with cluster := s.cluster.applyEvent key ev }
      (.tells group key rev listeners events
        (Cluster.deliveries listeners (Cluster.eventNotes ev))) []
  | skips (group : Nat) (key : String) (rev : Int) (listeners : List Nat) (ev : Event)
      (events : List Event) (unknown : ev.locks = false) :
    s.Proceeds (.applies group key rev listeners (ev :: events)) s
      (.applies group key rev listeners events) []
  | tells (group : Nat) (key : String) (rev : Int) (listeners : List Nat) (events : List Event)
      (first : Delivery) (sent : List Delivery) :
    s.Proceeds (.tells group key rev listeners events (first :: sent)) s
      (.tells group key rev listeners events sent) []
  | told (group : Nat) (key : String) (rev : Int) (listeners : List Nat) (events : List Event) :
    s.Proceeds (.tells group key rev listeners events []) s
      (.applies group key rev listeners events) []
  | locks (free : s.locked = false) : s.Proceeds .reloads { s with locked := true } .closes []
  | closes : s.Proceeds .closes { s with doneClosed := true } .waits []
  | renews (visit : GoMap.RangeOrder String (List Nat)) (idle : s.active s.generation = 0) :
    s.Proceeds .waits s.renew (.starts ((s.cluster.listeners.range visit).map Prod.fst)) []
  | starts (key : String) (keys : List String) :
    s.Proceeds (.starts (key :: keys)) s (.enlists s.generation key keys) []
  | enlists (group : Nat) (key : String) (keys : List String) :
    s.Proceeds (.enlists group key keys) (s.enter group) (.starts keys)
      [.loads (.watcher group) key]
  | started : s.Proceeds (.starts []) s .returned []

theorem WatchedCluster.whenFree_eq_some {α : Type} {s : WatchedCluster} {result other : α}
    (taken : s.whenFree result = some other) : s.locked = false ∧ other = result := by
  unfold whenFree at taken
  split at taken
  · cases taken
  · rename_i free
    exact ⟨by simpa using free, (Option.some.inj taken).symm⟩

def watchProgram : Program WatchedCluster Watcher Answer where
  act := WatchedCluster.proceed
  meet _ _ _ := none

theorem WatchedCluster.proceeds {s s' : WatchedCluster} {l after : Watcher} {answer : Answer}
    {started : List Watcher} (moved : watchProgram.act s l answer = some (s', after, started)) :
    s.Proceeds l s' after started := by
  change s.proceed l answer = some (s', after, started) at moved
  revert moved
  fun_cases proceed s l answer
  case case15 =>
    rintro ⟨⟩
    split
    · exact .reloaded _ _ _ _ (by simp_all)
    · constructor
  all_goals
    intro moved
    first
    | (cases moved; done)
    | (cases moved; constructor <;> simp_all)
    | (obtain ⟨free, same⟩ := whenFree_eq_some moved; cases same; constructor <;> assumption)

/-- A call of `Monitor` on the cluster. -/
structure MonitorCall where
  key : String
  listener : Nat
  exact : Bool

def MonitorCall.start (call : MonitorCall) : Watcher :=
  .registers call.key call.listener call.exact

/-- Calls of `Monitor` and reloads, each in a goroutine of its own. -/
def startWatching (calls : List MonitorCall) (reloads : Nat) : State WatchedCluster Watcher where
  shared := WatchedCluster.new
  routines := calls.map MonitorCall.start ++ List.replicate reloads .reloads

/-- What a call of `Monitor` meets whose load finds nothing. -/
def loadsNothing : List Answer :=
  [.go, .go, .go, .loaded [] 1, .changed ⟨⟨id, fun _ => .refl _⟩, ⟨id, fun _ => .refl _⟩⟩, .go,
    .go, .go]

end FastGoZero.Discov
