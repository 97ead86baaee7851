import FastGoZero.Lib.Concurrent
import FastGoZero.Lib.GoString

/-!
# Taking a value through the cache

Goroutines call `Take` of a `cacheNode` with one key at the same time. The first one makes a call
in the `SingleFlight` barrier and runs the function of `doTake`: it asks redis, queries when redis
has no value, and encodes its value for the others. Those that come while the call is in the map
wait for it and decode what it left. What redis answers, and what a query leaves in the value,
returns or whether it panics, are choices of the moves. A value that is written to redis is not
read back, the answers being open, and failures to write it are only logged; the counters of the
statistics are left out. The deferred function of `makeCall` runs after a return and after a panic.
-/

namespace FastGoZero.Stores

open Lib Lib.Concurrent

universe u v

/-- The error for what is not found, with `errors.Is` for it, and the encoding of values.
Decoding writes into the value that it is given. -/
structure CacheNode (V : Type u) (E : Type v) where
  errNotFound : E
  isNotFound : E → Bool
  isNotFound_errNotFound : isNotFound errNotFound = true
  marshal : V → Except E Str
  unmarshal : Str → V → V × Option E

variable {V : Type u} {E : Type v}

/-- The errors of `doGetCache`. -/
inductive GetError (E : Type v) where
  | placeholder
  | other (e : E)

def notFoundPlaceholder : Str := Str.bytes "*"

namespace CacheNode

def processCache (n : CacheNode V E) (data : Str) (v : V) : V × Option (GetError E) :=
  match n.unmarshal data v with
  | (v, none) => (v, none)
  | (v, some _) => (v, some (.other n.errNotFound))

/-- The value and the error, given what redis answers. -/
def doGetCache (n : CacheNode V E) (reply : Except E Str) (v : V) : V × Option (GetError E) :=
  match reply with
  | .error e => (v, some (.other e))
  | .ok data =>
    if data.isEmpty then (v, some (.other n.errNotFound))
    else if data = notFoundPlaceholder then (v, some .placeholder)
    else n.processCache data v

end CacheNode

/-- A `call` of the barrier: its results and whether its wait group is still waited for. What the
cache or the query left in the value of the caller is kept beside them. -/
structure Flight (V : Type u) (E : Type v) where
  val : Option Str
  err : Option E
  waits : Bool
  produced : Option V

/-- The entry of the key in the map, and the calls by their pointers. -/
structure FlightGroup (V : Type u) (E : Type v) where
  calls : Option Nat
  made : List (Flight V E)

namespace FlightGroup

def new : FlightGroup V E := ⟨none, []⟩

variable (g : FlightGroup V E)

/-- `c = new(call); c.wg.Add(1); g.calls[key] = c`. -/
def create : FlightGroup V E :=
  ⟨some g.made.length, g.made ++ [⟨none, none, true, none⟩]⟩

def modify (c : Nat) (change : Flight V E → Flight V E) : FlightGroup V E :=
  { g with made := g.made.modify c change }

/-- `c.val, c.err = fn()`. -/
def finish (c : Nat) (val : Option Str) (err : Option E) : FlightGroup V E :=
  g.modify c fun flight => { flight with val := val, err := err }

def produce (c : Nat) (v : V) : FlightGroup V E :=
  g.modify c fun flight => { flight with produced := some v }

/-- `delete(g.calls, key)`. -/
def delete : FlightGroup V E := { g with calls := none }

/-- `c.wg.Done()`. -/
def complete (c : Nat) : FlightGroup V E :=
  g.modify c fun flight => { flight with waits := false }

end FlightGroup

/-- Where a call of `Take` is. A caller that runs the function of its flight gets, queries and
marshals; then the deferred function deletes the entry and completes the group, also on the way
of a panic. -/
inductive TakePosition (E : Type v) where
  | starts
  | waits (c : Nat)
  | gets (c : Nat)
  | queries (c : Nat)
  | marshals (c : Nat)
  | deletes (c : Nat) (panics : Bool)
  | completes (c : Nat) (panics : Bool)
  | reads (c : Nat)
  | returned (c : Nat) (err : Option E)
  | panicked (own : Bool)

/-- A caller with the value that it passed, and what the value holds now. -/
structure Caller (V : Type u) (E : Type v) where
  given : V
  v : V
  position : TakePosition E

variable (l : Caller V E)

def Caller.move (v : V) (position : TakePosition E) : Caller V E :=
  ⟨l.given, v, position⟩

@[simp] theorem Caller.move_position (v : V) (position : TakePosition E) :
    (l.move v position).position = position := rfl

/-- What the surroundings answer: redis, or the query with what it leaves in the value. -/
inductive Answer (V : Type u) (E : Type v) where
  | none
  | get (reply : Except E Str)
  | query (v : V) (err : Option E)
  | panic

namespace CacheNode

/-- What a waiting caller does with the results: `val.([]byte)` of a nil panics. -/
def receive (n : CacheNode V E) (flight : Flight V E) (c : Nat) (v : V) : V × TakePosition E :=
  match flight.err, flight.val with
  | some e, _ => (v, .returned c (some e))
  | none, none => (v, .panicked false)
  | none, some data => ((n.unmarshal data v).1, .returned c (n.unmarshal data v).2)

/-- One step of a call of `Take`. -/
def proceed (n : CacheNode V E) (g : FlightGroup V E) (v : V) :
    TakePosition E → Answer V E → Option (FlightGroup V E × V × TakePosition E)
  | .starts, .none =>
    match g.calls with
    | some c => some (g, v, .waits c)
    | none => some (g.create, v, .gets g.made.length)
  | .waits c, .none =>
    g.made[c]?.bind fun flight => if flight.waits then none else some (g, n.receive flight c v)
  | .gets c, .get reply =>
    match n.doGetCache reply v with
    | (v, none) => some (g.produce c v, v, .marshals c)
    | (v, some .placeholder) => some (g.finish c none (some n.errNotFound), v, .deletes c false)
    | (v, some (.other e)) =>
      if n.isNotFound e then some (g, v, .queries c)
      else some (g.finish c none (some e), v, .deletes c false)
  | .queries c, .query v none => some (g.produce c v, v, .marshals c)
  | .queries c, .query v (some e) =>
    some (g.finish c none (some (if n.isNotFound e then n.errNotFound else e)), v,
      .deletes c false)
  | .queries c, .panic => some (g, v, .deletes c true)
  | .marshals c, .none =>
    match n.marshal v with
    | .ok data => some (g.finish c (some data) none, v, .deletes c false)
    | .error e => some (g.finish c none (some e), v, .deletes c false)
  | .deletes c panics, .none => some (g.delete, v, .completes c panics)
  | .completes c panics, .none =>
    some (g.complete c, v, if panics then .panicked true else .reads c)
  | .reads c, .none => g.made[c]?.map fun flight => (g, v, .returned c flight.err)
  | _, _ => none

/-- The callers of `Take`. -/
def takes (n : CacheNode V E) : Program (FlightGroup V E) (Caller V E) (Answer V E) where
  act g l answer :=
    (n.proceed g l.v l.position answer).map fun (g, v, position) => (g, l.move v position, [])
  meet _ _ _ := none

/-- A caller for each of the values, none of which has begun. -/
def start (values : List V) : State (FlightGroup V E) (Caller V E) :=
  ⟨.new, values.map fun v => ⟨v, v, .starts⟩⟩

end CacheNode

end FastGoZero.Stores
