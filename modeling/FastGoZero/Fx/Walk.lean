import FastGoZero.Lib.Concurrent

/-!
# Walking a stream in parallel

`Walk` starts a goroutine that takes the items from the source and starts a goroutine for each,
which calls the function with the item and the output channel. With limited workers a place in the
pool is taken before the goroutine is started and given back after the wait group has been told of
its end. When the source is exhausted and the wait group is done, the output channel is closed.

An item is described by what the function writes when it is called with it, be it that it then
returns or panics, which `GoSafe` recovers from. Items are known by their positions in the source,
and what is in the output channel is tagged with the position of its item, which the program does
not see. A consumer receives from the output channel until it is closed.
-/

namespace FastGoZero.Fx

open Lib.Concurrent

universe u
variable {β : Type u}

def defaultWorkers : Nat := 16

def minWorkers : Int := 1

/-- `rxOptions`. -/
structure Options where
  unlimitedWorkers : Bool
  workers : Nat
  deriving DecidableEq

inductive WalkOption where
  | unlimitedWorkers
  | withWorkers (workers : Int)
  deriving DecidableEq

def newOptions : Options := ⟨false, defaultWorkers⟩

def WalkOption.apply (options : Options) : WalkOption → Options
  | .unlimitedWorkers => { options with unlimitedWorkers := true }
  | .withWorkers workers =>
    { options with workers := if workers < minWorkers then minWorkers.toNat else workers.toNat }

def buildOptions (opts : List WalkOption) : Options := opts.foldl WalkOption.apply newOptions

/-- The channels, the pool and the wait group. The last four record what has happened: how many
goroutines were started for items, the items that the function was called with, those for which it
has returned, and what was received from the output channel. -/
structure Pipes (β : Type u) where
  source : List (List β)
  pipe : List (Nat × β)
  closed : Bool
  pool : Nat
  wg : Nat
  sentOnClosed : Bool
  launched : Nat
  called : List Nat
  returned : List Nat
  received : List (Nat × β)

/-- Where a goroutine is: the one that takes the items, one that works on an item, or the
consumer. -/
inductive Walker (β : Type u) where
  | takes
  | admits (outputs : List β)
  | adds (outputs : List β)
  | launches (outputs : List β)
  | waits
  | closes
  | closed
  | begins (item : Nat) (outputs : List β)
  | writes (item : Nat) (left : List β)
  | completes (item : Nat)
  | leaves (item : Nat)
  | left
  | consumes
  | consumed

namespace Pipes

def start (items : List (List β)) : Pipes β := ⟨items, [], false, 0, 0, false, 0, [], [], []⟩

def proceed (options : Options) (p : Pipes β) :
    Walker β → Option (Pipes β × Walker β × List (Walker β))
  | .takes =>
    match p.source with
    | [] => some (p, .waits, [])
    | outputs :: source =>
      some ({ p with source := source },
        if options.unlimitedWorkers then .adds outputs else .admits outputs, [])
  | .admits outputs =>
    if p.pool < options.workers then some ({ p with pool := p.pool + 1 }, .adds outputs, [])
    else none
  | .adds outputs => some ({ p with wg := p.wg + 1 }, .launches outputs, [])
  | .launches outputs =>
    some ({ p with launched := p.launched + 1 }, .takes, [.begins p.launched outputs])
  | .waits => if p.wg = 0 then some (p, .closes, []) else none
  | .closes => some ({ p with closed := true }, .closed, [])
  | .closed => none
  | .begins item outputs =>
    some ({ p with called := p.called ++ [item] }, .writes item outputs, [])
  | .writes item (output :: left) =>
    if p.closed then some ({ p with sentOnClosed := true }, .completes item, [])
    else if p.pipe.length < options.workers then
      some ({ p with pipe := p.pipe ++ [(item, output)] }, .writes item left, [])
    else none
  | .writes item [] => some ({ p with returned := p.returned ++ [item] }, .completes item, [])
  | .completes item =>
    some ({ p with wg := p.wg - 1 },
      if options.unlimitedWorkers then .left else .leaves item, [])
  | .leaves _ => some ({ p with pool := p.pool - 1 }, .left, [])
  | .left => none
  | .consumes =>
    match p.pipe with
    | output :: pipe =>
      some ({ p with pipe := pipe, received := p.received ++ [output] }, .consumes, [])
    | [] => if p.closed then some (p, .consumed, []) else none
  | .consumed => none

end Pipes

def walk (options : Options) : Program (Pipes β) (Walker β) Unit where
  act p walker _ := p.proceed options walker
  meet _ _ _ := none

/-- The walk of a source, before anything has happened. -/
def walkStart (items : List (List β)) : State (Pipes β) (Walker β) :=
  ⟨.start items, [.takes, .consumes]⟩

/-- What the output stream has got, in order. -/
def Pipes.content (p : Pipes β) : List (Nat × β) := p.received ++ p.pipe

/-- The outputs of one item. -/
def outputsOf (item : Nat) (content : List (Nat × β)) : List β :=
  (content.filter fun entry => entry.1 == item).map Prod.snd

/-- The steps of the goroutines, one by one. -/
inductive WalkStep (options : Options) (p : Pipes β) :
    Walker β → Pipes β → Walker β → List (Walker β) → Prop
  | exhausted (none : p.source = []) : WalkStep options p .takes p .waits []
  | taken (outputs : List β) (source : List (List β)) (next : p.source = outputs :: source) :
      WalkStep options p .takes { p with source := source }
        (if options.unlimitedWorkers then .adds outputs else .admits outputs) []
  | admitted (outputs : List β) (room : p.pool < options.workers) :
      WalkStep options p (.admits outputs) { p with pool := p.pool + 1 } (.adds outputs) []
  | added (outputs : List β) :
      WalkStep options p (.adds outputs) { p with wg := p.wg + 1 } (.launches outputs) []
  | launched (outputs : List β) :
      WalkStep options p (.launches outputs) { p with launched := p.launched + 1 } .takes
        [.begins p.launched outputs]
  | waited (zero : p.wg = 0) : WalkStep options p .waits p .closes []
  | closed : WalkStep options p .closes { p with closed := true } .closed []
  | began (item : Nat) (outputs : List β) :
      WalkStep options p (.begins item outputs) { p with called := p.called ++ [item] }
        (.writes item outputs) []
  | sentOnClosed (item : Nat) (output : β) (left : List β) (late : p.closed = true) :
      WalkStep options p (.writes item (output :: left)) { p with sentOnClosed := true }
        (.completes item) []
  | wrote (item : Nat) (output : β) (left : List β) (inTime : p.closed = false)
      (room : p.pipe.length < options.workers) :
      WalkStep options p (.writes item (output :: left))
        { p with pipe := p.pipe ++ [(item, output)] } (.writes item left) []
  | returned (item : Nat) :
      WalkStep options p (.writes item []) { p with returned := p.returned ++ [item] }
        (.completes item) []
  | completed (item : Nat) :
      WalkStep options p (.completes item) { p with wg := p.wg - 1 }
        (if options.unlimitedWorkers then .left else .leaves item) []
  | left (item : Nat) : WalkStep options p (.leaves item) { p with pool := p.pool - 1 } .left []
  | received (output : Nat × β) (pipe : List (Nat × β)) (next : p.pipe = output :: pipe) :
      WalkStep options p .consumes { p with pipe := pipe, received := p.received ++ [output] }
        .consumes []
  | drained (empty : p.pipe = []) (closed : p.closed = true) :
      WalkStep options p .consumes p .consumed []

variable {options : Options} {p p' : Pipes β} {w w' : Walker β} {started : List (Walker β)}

theorem step_of_proceed (proceeds : p.proceed options w = some (p', w', started)) :
    WalkStep options p w p' w' started := by
  revert proceeds
  fun_cases Pipes.proceed options p w
  all_goals
    rintro ⟨⟩
  all_goals constructor <;> simp_all

end FastGoZero.Fx
