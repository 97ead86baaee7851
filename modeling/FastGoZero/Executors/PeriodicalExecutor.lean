import FastGoZero.Lib.Concurrent

/-!
# The periodical executor

Tasks are added to a container. When the container asks for it, the goroutine that adds sends
the tasks to a background loop over a channel with one place, and waits for a confirmation.
The loop executes what it is sent, flushes the container at the ticks of a timer, and quits
when nothing has come for long; the next `Add` starts it again.

Every access to the lock, the channels, the wait group, its barrier and the counter of batches
in flight is a step of its own.
-/

namespace FastGoZero.Executors

open Lib

universe u

/-- The value that `RemoveAll` returns, as `hasTasks` looks at it: nil, something with a length,
or anything else. -/
inductive Batch (Task : Type u) where
  | nil
  | collection (tasks : List Task)
  | other (tasks : List Task)
deriving DecidableEq

namespace Batch

variable {Task : Type u} {batch : Batch Task}

def tasks : Batch Task → List Task
  | nil => []
  | collection tasks => tasks
  | other tasks => tasks

def hasTasks : Batch Task → Bool
  | nil => false
  | collection tasks => 0 < tasks.length
  | other _ => true

theorem hasTasks_of_mem {task : Task} (mem : task ∈ batch.tasks) : batch.hasTasks = true := by
  cases batch with
  | nil => exact absurd mem List.not_mem_nil
  | collection tasks => exact decide_eq_true (List.length_pos_of_mem mem)
  | other tasks => rfl

theorem tasks_eq_nil (empty : batch.hasTasks = false) : batch.tasks = [] := by
  rw [List.eq_nil_iff_forall_not_mem]
  intro task mem
  rw [hasTasks_of_mem mem] at empty
  contradiction

end Batch

/-- A container that gives back exactly the tasks added since the last `RemoveAll`. -/
structure TaskContainer (Task : Type u) where
  Content : Type u
  new : Content
  addTask : Content → Task → Content × Bool
  removeAll : Content → Content × Batch Task
  tasks : Content → Multiset Task
  tasks_new : tasks new = 0
  tasks_addTask : ∀ content task, tasks (addTask content task).1 = task ::ₘ tasks content
  tasks_removeAll : ∀ content, tasks (removeAll content).1 = 0
  removed : ∀ content, ((removeAll content).2.tasks : Multiset Task) = tasks content

variable {Task : Type u} {container : TaskContainer Task}

/-- A batch, with a number that tells it from all others. -/
structure Parcel (Task : Type u) where
  serial : Nat
  batch : Batch Task
deriving DecidableEq

/-- The fields of the executor. The last four record what has happened: how many batches were
removed, the tasks that were added, those that were handed to `Execute`, and the batches that
`Execute` has returned from. -/
structure PeriodicalExecutor (container : TaskContainer Task) where
  commander : Option (Parcel Task)
  content : container.Content
  lock : Bool
  waitGroup : Nat
  wgBarrier : Bool
  inflight : BitVec 32
  guarded : Bool
  removals : Nat
  added : Multiset Task
  handed : Multiset Task
  finished : List (Parcel Task)

/-- Where `executeTasks` returns to: a call of `Flush`, the one inside `Wait`, the flush at a
tick, the last flush of a loop, or the command that the loop executes. -/
inductive Caller where
  | flush
  | wait
  | tick
  | quit
  | command
deriving DecidableEq

/-- The next step of a goroutine. -/
inductive Position (Task : Type u) where
  | idle
  -- `Add` and `addAndCheck`
  | addLock (task : Task)
  | addTask (task : Task)
  | addInflight (task : Task)
  | addRemoveAll (task : Task)
  | addGuard (task : Task) (vals : Option (Parcel Task))
  | addUnlock (task : Task) (vals : Option (Parcel Task)) (start : Bool)
  | addStart (task : Task) (vals : Option (Parcel Task))
  | addSend (task : Task) (vals : Parcel Task)
  | addConfirm (task : Task) (vals : Parcel Task)
  -- `Flush`
  | flushEnter (caller : Caller)
  | flushLock (caller : Caller)
  | flushRemoveAll (caller : Caller)
  | flushUnlock (caller : Caller) (vals : Parcel Task)
  -- `executeTasks`
  | execute (caller : Caller) (vals : Parcel Task)
  | executing (caller : Caller) (vals : Parcel Task)
  | doneExecution (caller : Caller) (ok : Bool)
  -- `Wait`, after its flush
  | waitBarrier
  | waitGroup
  -- `backgroundFlush` and `shallQuit`
  | select (commanded : Bool)
  | commandInflight (vals : Parcel Task)
  | commandEnter (vals : Parcel Task)
  | commandConfirm (vals : Parcel Task)
  | shallQuit
  | quitLock
  | quitCheck
  | quitUnlock (stop : Bool)
  | exited
deriving DecidableEq

/-- A goroutine, with the batches that its calls of `Add` have sent, each with the task of the
call. -/
structure Goroutine (Task : Type u) where
  position : Position Task
  sent : List (Task × Parcel Task) := []
deriving DecidableEq

inductive Call (Task : Type u) where
  | add (task : Task)
  | flush
  | wait
deriving DecidableEq

/-- What a step may depend on beside the state: the call an idle goroutine makes, whether the
ticker fires, and whether the last execution is more than ten intervals ago. -/
inductive Choice (Task : Type u) where
  | proceed
  | call (call : Call Task)
  | tick
  | sinceLast (long : Bool)
deriving DecidableEq

def Call.entry : Call Task → Position Task
  | .add task => .addLock task
  | .flush => .flushEnter .flush
  | .wait => .flushEnter .wait

/-- Where `Add` goes on when `addAndCheck` has returned. -/
def addAndCheckReturns (task : Task) : Option (Parcel Task) → Position Task
  | some vals => .addSend task vals
  | none => .idle

/-- Where the caller of `executeTasks` goes on. -/
def Caller.resume (ok : Bool) : Caller → Position Task
  | .flush => .idle
  | .wait => .waitBarrier
  | .tick => if ok then .select false else .shallQuit
  | .quit => .exited
  | .command => .select true

attribute [grind =] addAndCheckReturns.eq_def Caller.resume.eq_def

def Position.choose : Position Task → Choice Task → Option (Position Task)
  | .idle, .call call => some call.entry
  | .select commanded, .tick => some (if commanded then .select false else .flushEnter .tick)
  | .shallQuit, .sinceLast long => some (if long then .quitLock else .select false)
  | _, _ => none

namespace PeriodicalExecutor

variable {container : TaskContainer Task} (e : PeriodicalExecutor container)

def removeAll : PeriodicalExecutor container × Parcel Task :=
  ({ e with content := (container.removeAll e.content).1, removals := e.removals + 1 },
    ⟨e.removals, (container.removeAll e.content).2⟩)

/-- The next step of a goroutine that waits for nobody else's choice, with the loop that it
starts. A step that has to wait gives nothing. -/
def proceed : Position Task →
    Option (PeriodicalExecutor container × Position Task × List (Goroutine Task))
  | .idle => none
  | .addLock task => if e.lock then none else some ({ e with lock := true }, .addTask task, [])
  | .addTask task =>
    let (content, full) := container.addTask e.content task
    some ({ e with content, added := task ::ₘ e.added },
      if full then .addInflight task else .addGuard task none, [])
  | .addInflight task => some ({ e with inflight := e.inflight + 1 }, .addRemoveAll task, [])
  | .addRemoveAll task => some (e.removeAll.1, .addGuard task (some e.removeAll.2), [])
  | .addGuard task vals => some ({ e with guarded := true }, .addUnlock task vals !e.guarded, [])
  | .addUnlock task vals start =>
    some ({ e with lock := false },
      if start then .addStart task vals else addAndCheckReturns task vals, [])
  | .addStart task vals =>
    some (e, addAndCheckReturns task vals, [{ position := .select false }])
  | .addSend task vals =>
    if e.commander.isSome then none
    else some ({ e with commander := some vals }, .addConfirm task vals, [])
  | .addConfirm _ _ => none
  | .flushEnter caller =>
    if e.wgBarrier then none
    else some ({ e with waitGroup := e.waitGroup + 1 }, .flushLock caller, [])
  | .flushLock caller =>
    if e.lock then none else some ({ e with lock := true }, .flushRemoveAll caller, [])
  | .flushRemoveAll caller => some (e.removeAll.1, .flushUnlock caller e.removeAll.2, [])
  | .flushUnlock caller vals => some ({ e with lock := false }, .execute caller vals, [])
  | .execute caller vals =>
    if vals.batch.hasTasks then
      some ({ e with handed := vals.batch.tasks + e.handed }, .executing caller vals, [])
    else some (e, .doneExecution caller false, [])
  | .executing caller vals =>
    some ({ e with finished := vals :: e.finished }, .doneExecution caller true, [])
  | .doneExecution caller ok =>
    some ({ e with waitGroup := e.waitGroup - 1 }, caller.resume ok, [])
  | .waitBarrier => if e.wgBarrier then none else some ({ e with wgBarrier := true }, .waitGroup, [])
  | .waitGroup =>
    if e.waitGroup = 0 then some ({ e with wgBarrier := false }, .idle, []) else none
  | .select _ =>
    e.commander.map fun vals => ({ e with commander := none }, .commandInflight vals, [])
  | .commandInflight vals => some ({ e with inflight := e.inflight - 1 }, .commandEnter vals, [])
  | .commandEnter vals =>
    if e.wgBarrier then none
    else some ({ e with waitGroup := e.waitGroup + 1 }, .commandConfirm vals, [])
  | .commandConfirm _ => none
  | .shallQuit => none
  | .quitLock => if e.lock then none else some ({ e with lock := true }, .quitCheck, [])
  | .quitCheck =>
    if e.inflight = 0 then some ({ e with guarded := false }, .quitUnlock true, [])
    else some (e, .quitUnlock false, [])
  | .quitUnlock stop =>
    some ({ e with lock := false }, if stop then .flushEnter .quit else .select false, [])
  | .exited => none

/-- The next step of a goroutine. -/
def act (g : Goroutine Task) :
    Choice Task → Option (PeriodicalExecutor container × Goroutine Task × List (Goroutine Task))
  | .proceed =>
    (e.proceed g.position).map fun (e, position, started) => (e, { g with position }, started)
  | choice => (g.position.choose choice).map fun position => (e, { g with position }, [])

/-- The loop confirms, and some goroutine that waits for a confirmation receives it. -/
def confirm (loop adder : Goroutine Task) :
    Option (PeriodicalExecutor container × Goroutine Task × Goroutine Task) :=
  match loop.position, adder.position with
  | .commandConfirm vals, .addConfirm task own =>
    some (e, { loop with position := .execute .command vals },
      { position := .idle, sent := (task, own) :: adder.sent })
  | _, _ => none

end PeriodicalExecutor

/-- What a goroutine does: it proceeds, or only goes on elsewhere. -/
theorem PeriodicalExecutor.act_cases {e e' : PeriodicalExecutor container}
    {g after : Goroutine Task} {choice : Choice Task} {started : List (Goroutine Task)}
    (acted : e.act g choice = some (e', after, started)) : ∃ position, after = { g with position } ∧
      (e.proceed g.position = some (e', position, started) ∨
        g.position.choose choice = some position ∧ e' = e ∧ started = []) := by
  cases choice with
  | proceed =>
    obtain ⟨⟨_, position, _⟩, moved, ⟨⟩⟩ := Option.map_eq_some_iff.mp acted
    exact ⟨position, rfl, Or.inl moved⟩
  | _ =>
    obtain ⟨position, chosen, ⟨⟩⟩ := Option.map_eq_some_iff.mp acted
    exact ⟨position, rfl, Or.inr ⟨chosen, rfl, rfl⟩⟩

/-- What two goroutines do together: the loop confirms its batch, and an adder returns. -/
theorem PeriodicalExecutor.confirm_cases {e e' : PeriodicalExecutor container}
    {loop adder loop' adder' : Goroutine Task}
    (met : e.confirm loop adder = some (e', loop', adder')) :
    ∃ vals task own, loop.position = .commandConfirm vals ∧
      adder.position = .addConfirm task own ∧ e' = e ∧
      loop' = { loop with position := .execute .command vals } ∧
      adder' = { position := .idle, sent := (task, own) :: adder.sent } := by
  unfold confirm at met
  split at met
  · rename_i vals task own confirming waiting
    cases met
    exact ⟨vals, task, own, confirming, waiting, rfl, rfl, rfl⟩
  · simp at met

variable (container : TaskContainer Task)

/-- The executor with any number of goroutines that call it. -/
def executor :
    Concurrent.Program (PeriodicalExecutor container) (Goroutine Task) (Choice Task) where
  act := PeriodicalExecutor.act
  meet := PeriodicalExecutor.confirm

def newPeriodicalExecutor : PeriodicalExecutor container where
  commander := none
  content := container.new
  lock := false
  waitGroup := 0
  wgBarrier := false
  inflight := 0
  guarded := false
  removals := 0
  added := 0
  handed := 0
  finished := []

def start (callers : Nat) : Concurrent.State (PeriodicalExecutor container) (Goroutine Task) :=
  ⟨newPeriodicalExecutor container, List.replicate callers { position := .idle }⟩

end FastGoZero.Executors
