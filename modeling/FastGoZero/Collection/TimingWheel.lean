import FastGoZero.Collection.SafeMap
import FastGoZero.Lib.Heap
import FastGoZero.Lib.Runs

/-!
# The timing wheel

One goroutine owns the wheel and handles ticks and the requests of the exported
methods one at a time; a handled request is one step. Entries are shared by
pointer between the slot lists and the timers map, so they live in a heap: a move
that rewrites an entry is seen by the slot that still lists it, and a drained
entry stays reachable through the timers map.

Durations are mathematical integers. A task that the wheel hands to `execute`,
and one that a drain hands to its function, is an output of the step that does
so; the goroutines that run them are outside the model.
-/

namespace FastGoZero.Collection

open Lib

universe u v

inductive TimingWheelError where
  | arguments
  | errArgument
deriving DecidableEq

structure BaseEntry (K : Type u) where
  delay : Int
  key : K

structure TimingEntry (K : Type u) (V : Type v) extends BaseEntry K where
  value : V
  circle : Nat := 0
  diff : Nat := 0
  removed : Bool := false

/-- Where a key's entry sits, and the pointer to it. -/
structure PositionEntry where
  pos : Nat
  item : Nat

structure TimingWheel (K : Type u) (V : Type v) where
  interval : Int
  slots : List (List Nat)
  timers : SafeMap K PositionEntry
  tickedPos : Nat
  numSlots : Nat
  heap : Heap (TimingEntry K V)

/-- What a step hands out: to the wheel's `execute`, or to a drain's function. -/
inductive TimingOutput (K : Type u) (V : Type v) where
  | executed (key : K) (value : V)
  | drained (key : K) (value : V)
deriving DecidableEq

namespace TimingWheel

variable {K : Type u} {V : Type v}

/-- The wheel starts at the last slot of the previous virtual circle. -/
def init (interval : Int) (numSlots : Nat) : TimingWheel K V where
  interval := interval
  slots := List.replicate numSlots []
  timers := SafeMap.newSafeMap
  tickedPos := numSlots - 1
  numSlots := numSlots
  heap := Heap.empty

def newTimingWheel (interval numSlots : Int) : Except TimingWheelError (TimingWheel K V) :=
  if interval ≤ 0 ∨ numSlots ≤ 0 then .error .arguments else .ok (init interval numSlots.toNat)

section

variable (tw : TimingWheel K V)

def slot (pos : Nat) : List Nat := tw.slots.getD pos []

def pushBack (pos item : Nat) : TimingWheel K V :=
  { tw with slots := tw.slots.modify pos (· ++ [item]) }

def removeElement (pos item : Nat) : TimingWheel K V :=
  { tw with slots := tw.slots.modify pos (·.erase item) }

/-- Assign to fields of an entry through its pointer. -/
def write (item : Nat) (change : TimingEntry K V → TimingEntry K V) : TimingWheel K V :=
  { tw with heap := tw.heap.modify item change }

def markRemoved (item : Nat) : TimingWheel K V :=
  tw.write item fun entry => { entry with removed := true }

def getPositionAndCircle (d : Int) : Nat × Nat :=
  let steps := (d / tw.interval).toNat
  ((tw.tickedPos + steps) % tw.numSlots, (steps - 1) / tw.numSlots)

end

variable [DecidableEq K] (tw : TimingWheel K V)

/-- A position entry that is already in the map is changed in place. -/
def setTimerPosition (pos : Nat) (key : K) (item : Nat) : TimingWheel K V :=
  match tw.timers.get key with
  | some _ => { tw with timers := tw.timers.modify key fun _ => ⟨pos, item⟩ }
  | none => { tw with timers := tw.timers.set key ⟨pos, item⟩ }

/-- Allocate an entry, append it to a slot and record its position. -/
def place (pos : Nat) (task : TimingEntry K V) : TimingWheel K V :=
  (({ tw with heap := tw.heap.alloc task }).pushBack pos tw.heap.size).setTimerPosition
    pos task.key tw.heap.size

def moveTask (task : BaseEntry K) : TimingWheel K V × List (TimingOutput K V) :=
  match tw.timers.get task.key with
  | none => (tw, [])
  | some timer =>
    match tw.heap.read timer.item with
    | none => (tw, [])
    | some item =>
      if task.delay < tw.interval then (tw, [.executed item.key item.value])
      else
        let (pos, circle) := tw.getPositionAndCircle task.delay
        if timer.pos ≤ pos then
          (tw.write timer.item fun entry =>
            { entry with circle := circle, diff := pos - timer.pos }, [])
        else if 0 < circle then
          (tw.write timer.item fun entry =>
            { entry with circle := circle - 1, diff := tw.numSlots + pos - timer.pos }, [])
        else
          ((tw.markRemoved timer.item).place pos
            { toBaseEntry := task, value := item.value }, [])

/-- The delay of a set request, raised to one interval. -/
def setDelay (delay : Int) : Int :=
  if delay < tw.interval then tw.interval else delay

def setTask (task : TimingEntry K V) : TimingWheel K V × List (TimingOutput K V) :=
  let task := { task with delay := tw.setDelay task.delay }
  match tw.timers.get task.key with
  | some entry =>
    (tw.write entry.item fun item => { item with value := task.value }).moveTask task.toBaseEntry
  | none =>
    let (pos, circle) := tw.getPositionAndCircle task.delay
    (tw.place pos { task with circle := circle }, [])

def removeTask (key : K) : TimingWheel K V :=
  match tw.timers.get key with
  | none => tw
  | some timer =>
    { tw.markRemoved timer.item with timers := tw.timers.del key }

/-- Take an entry of the ticked slot over to another slot. -/
def relocate (pos : Nat) (key : K) (item : Nat) : TimingWheel K V :=
  ((tw.removeElement tw.tickedPos item).pushBack pos item).setTimerPosition pos key item

def scanTask (item : Nat) : TimingWheel K V × List (TimingOutput K V) :=
  match tw.heap.read item with
  | none => (tw, [])
  | some task =>
    if task.removed then (tw.removeElement tw.tickedPos item, [])
    else if 0 < task.circle then
      (tw.write item fun entry => { entry with circle := entry.circle - 1 }, [])
    else if 0 < task.diff then
      let pos := (tw.tickedPos + task.diff) % tw.numSlots
      ((tw.relocate pos task.key item).write item fun entry => { entry with diff := 0 }, [])
    else
      ({ tw.removeElement tw.tickedPos item with timers := tw.timers.del task.key },
        [.executed task.key task.value])

/-- The entries present when the scan starts, front to back. A relocated entry
goes to another slot, so the scan does not meet it again. -/
def scanAndRunTasks (tw : TimingWheel K V) :
    List Nat → TimingWheel K V × List (TimingOutput K V)
  | [] => (tw, [])
  | item :: rest =>
    let scanned := tw.scanTask item
    let others := scanned.1.scanAndRunTasks rest
    (others.1, scanned.2 ++ others.2)

def onTick : TimingWheel K V × List (TimingOutput K V) :=
  let ticked := { tw with tickedPos := (tw.tickedPos + 1) % tw.numSlots }
  ticked.scanAndRunTasks (ticked.slot ticked.tickedPos)

/-- Empties every slot; the timers map is left as it is. -/
def drainAll : TimingWheel K V × List (TimingOutput K V) :=
  ({ tw with slots := tw.slots.map fun _ => [] },
    (tw.slots.flatten.filterMap tw.heap.read).filterMap fun task =>
      if task.removed then none else some (.drained task.key task.value))

/-- The calls of the exported methods, with a nil key as `none`, and the ticker. -/
inductive Call (K : Type u) (V : Type v) where
  | setTimer (key : Option K) (value : V) (delay : Int)
  | moveTimer (key : Option K) (delay : Int)
  | removeTimer (key : Option K)
  | drain
  | tick

/-- The requests the goroutine receives. -/
inductive Request (K : Type u) (V : Type v) where
  | set (task : TimingEntry K V)
  | move (task : BaseEntry K)
  | remove (key : K)
  | drain
  | tick

/-- The argument checks that an exported method makes before it sends. -/
def Call.send : Call K V → Except TimingWheelError (Request K V)
  | .setTimer none _ _ => .error .errArgument
  | .setTimer (some key) value delay =>
    if delay ≤ 0 then .error .errArgument
    else .ok (.set { delay := delay, key := key, value := value })
  | .moveTimer none _ => .error .errArgument
  | .moveTimer (some key) delay =>
    if delay ≤ 0 then .error .errArgument else .ok (.move { delay := delay, key := key })
  | .removeTimer none => .error .errArgument
  | .removeTimer (some key) => .ok (.remove key)
  | .drain => .ok .drain
  | .tick => .ok .tick

def handle : Request K V → TimingWheel K V × List (TimingOutput K V)
  | .set task => tw.setTask task
  | .move task => tw.moveTask task
  | .remove key => (tw.removeTask key, [])
  | .drain => tw.drainAll
  | .tick => tw.onTick

/-- A refused call sends nothing and leaves the wheel as it is. -/
def step (call : Call K V) : TimingWheel K V × List (TimingOutput K V) :=
  match call.send with
  | .error _ => (tw, [])
  | .ok request => tw.handle request

theorem step_tick : tw.step .tick = tw.onTick := rfl

/-- The wheel after a list of calls, with all that it handed out. -/
def run (calls : List (Call K V)) : TimingWheel K V × List (TimingOutput K V) :=
  Runs.run step tw calls

@[simp] theorem run_nil : tw.run [] = (tw, []) := rfl

theorem run_cons (call : Call K V) (rest : List (Call K V)) :
    tw.run (call :: rest) = (((tw.step call).1.run rest).1,
      (tw.step call).2 ++ ((tw.step call).1.run rest).2) := rfl

end TimingWheel

end FastGoZero.Collection
