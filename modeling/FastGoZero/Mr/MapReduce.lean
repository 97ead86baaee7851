import FastGoZero.Lib.Runs
import Mathlib.Data.Multiset.AddSub

/-!
# Map and reduce

`MapReduce` runs a generator, a dispatcher that starts mappers, the mappers, a reducer and the
caller as goroutines. They are connected by three channels: `source` and `output` without a
buffer, `collector` with a place for each worker. `done` is closed when all should stop.

What the user supplies is described by what it does to the channels: the generator by the items
it sends, a call of the mapper by its writes and cancellations, the reducer by an automaton that
decides after each value received.
-/

namespace FastGoZero.Mr

open Option

variable {T U V E : Type} {branch : Branch} {workers : Nat}

/-- An error that `MapReduce` may return. -/
inductive Failure (E : Type) where
  | given (err : E)
  | cancelWithNil
  | reduceNoOutput
  | deadlineExceeded
deriving DecidableEq

/-- The error that `cancel` stores. -/
def Failure.of : Option E → Failure E
  | some err => given err
  | none => cancelWithNil

inductive MapAction (U E : Type) where
  | write (v : U)
  | cancel (err : Option E)
deriving DecidableEq

/-- An item, with what the mapper does when it is called with it. -/
structure Job (T U E : Type) where
  item : T
  actions : List (MapAction U E)
deriving DecidableEq

inductive ReduceAction (State U V E : Type) where
  | receive (next : Option U → State)
  | write (v : V) (next : State)
  | cancel (err : Option E) (next : State)
  | stop

/-- A reducer. Nothing is received when the pipe is closed and empty. -/
structure Reducer (U V E : Type) where
  State : Type
  start : State
  next : State → ReduceAction State U V E

inductive Once where
  | idle
  | running
  | done
deriving DecidableEq

/-- A run-time panic of a channel operation. -/
inductive Misuse where
  | sendOnClosed
  | closeOfClosed
deriving DecidableEq

/-- The channels and variables that the goroutines share. The last five record what has
happened: the items passed to the mapper, the values written to the collector, those the reducer
has received, what it has written to the output, and the panics of channel operations. -/
structure Common (T U V E : Type) where
  sourceClosed : Bool := false
  collector : List U := []
  collectorClosed : Bool := false
  outputClosed : Bool := false
  doneClosed : Bool := false
  ctxDone : Bool := false
  pool : Nat := 0
  wg : Nat := 0
  failed : BitVec 32 := 0
  panicWrote : Bool := false
  retErr : Option (Failure E) := none
  cancelOnce : Once := .idle
  closeOnce : Once := .idle
  passed : List T := []
  written : Multiset U := 0
  received : List U := []
  outputs : List V := []
  misuse : List Misuse := []

inductive FinishStep where
  | once
  | closeDone
  | closeOutput
deriving DecidableEq

inductive CancelStep (E : Type) where
  | once (err : Failure E)
  | set (err : Failure E)
  | drain
  | finish (step : FinishStep)
deriving DecidableEq

namespace Common

variable (c : Common T U V E)

def noteClose (closed : Bool) : List Misuse :=
  if closed then .closeOfClosed :: c.misuse else c.misuse

/-- A step of `finish`, and where it goes on unless it returns. -/
def finish : FinishStep → Option (Common T U V E × Option FinishStep)
  | .once =>
    match c.closeOnce with
    | .idle => some ({ c with closeOnce := .running }, some .closeDone)
    | .running => none
    | .done => some (c, none)
  | .closeDone =>
    some ({ c with doneClosed := true, misuse := c.noteClose c.doneClosed }, some .closeOutput)
  | .closeOutput =>
    some ({ c with
      outputClosed := true, closeOnce := .done, misuse := c.noteClose c.outputClosed }, none)

/-- A step of `cancel`, and where it goes on unless it returns. -/
def cancel : CancelStep E → Option (Common T U V E × Option (CancelStep E))
  | .once err =>
    match c.cancelOnce with
    | .idle => some ({ c with cancelOnce := .running }, some (.set err))
    | .running => none
    | .done => some (c, none)
  | .set err => some ({ c with retErr := some err }, some .drain)
  | .drain => if c.sourceClosed then some (c, some (.finish .once)) else none
  | .finish step =>
    (c.finish step).map fun (c, rest) =>
      match rest with
      | some step => (c, some (.finish step))
      | none => ({ c with cancelOnce := .done }, none)

def stopped : Bool := c.ctxDone || c.doneClosed

end Common

/-- Which branch a `select` takes. -/
inductive Branch where
  | ready
  | context
  | done
deriving DecidableEq

inductive Reason where
  | sendOnClosed
  | moreThanOneElement
deriving DecidableEq

/-- `mapReduceWithPanicChan` from its `select` on. -/
inductive Caller (V E : Type) where
  | select
  | cancelling (step : CancelStep E)
  | load (received : Option V)
  | deferred (val : Option V) (err : Option (Failure E))
  | returned (val : Option V) (err : Option (Failure E))
  | drainOutput
  | panicked (reason : Reason)
deriving DecidableEq

def Caller.next (c : Common T U V E) :
    Caller V E → Branch → Option (Common T U V E × Caller V E)
  | .select, .context =>
    if c.ctxDone then some (c, .cancelling (.once .deadlineExceeded)) else none
  | .select, .ready => if c.outputClosed then some (c, .load none) else none
  | .cancelling step, .ready =>
    (c.cancel step).map fun (c, rest) =>
      (c, match rest with
        | some step => .cancelling step
        | none => .deferred none (some .deadlineExceeded))
  | .load received, .ready =>
    some (c, match c.retErr, received with
      | some err, _ => .deferred none (some err)
      | none, some v => .deferred (some v) none
      | none, none => .deferred none (some .reduceNoOutput))
  | .deferred val err, .ready => if c.outputClosed then some (c, .returned val err) else none
  | .drainOutput, .ready => if c.outputClosed then some (c, .panicked .sendOnClosed) else none
  | _, _ => none

/-- The goroutine of `buildSource`. -/
inductive Generator (T U E : Type) where
  | generate (jobs : List (Job T U E))
  | exited
deriving DecidableEq

def Generator.next (c : Common T U V E) :
    Generator T U E → Option (Common T U V E × Generator T U E)
  | .generate [] => some ({ c with sourceClosed := true }, .exited)
  | .generate (_ :: _) => none
  | .exited => none

/-- The goroutine of a mapper. -/
inductive Mapper (U E : Type) where
  | run (actions : List (MapAction U E))
  | send (v : U) (rest : List (MapAction U E))
  | cancelling (step : CancelStep E) (rest : List (MapAction U E))
  | failed
  | panicWrite
  | panicSend
  | done
  | release
  | exited
deriving DecidableEq

def Mapper.next (workers : Nat) (c : Common T U V E) :
    Mapper U E → Option (Common T U V E × Mapper U E)
  | .run [] => some (c, .done)
  | .run (.write v :: rest) => some (c, if c.stopped then .run rest else .send v rest)
  | .run (.cancel err :: rest) => some (c, .cancelling (.once (Failure.of err)) rest)
  | .send v rest =>
    if c.collectorClosed then some ({ c with misuse := .sendOnClosed :: c.misuse }, .failed)
    else if c.collector.length < workers then
      some ({ c with collector := c.collector ++ [v], written := v ::ₘ c.written }, .run rest)
    else none
  | .cancelling step rest =>
    (c.cancel step).map fun (c, step) =>
      (c, match step with
        | some step => .cancelling step rest
        | none => .run rest)
  | .failed => some ({ c with failed := c.failed + 1 }, .panicWrite)
  | .panicWrite =>
    if c.panicWrote then some (c, .done) else some ({ c with panicWrote := true }, .panicSend)
  | .panicSend => none
  | .done => some ({ c with wg := c.wg - 1 }, .release)
  | .release => some ({ c with pool := c.pool - 1 }, .exited)
  | .exited => none

/-- The goroutine of `executeMappers`. -/
inductive Dispatcher (T U E : Type) where
  | check
  | select
  | receive
  | giveBack
  | addWg (job : Job T U E)
  | start (job : Job T U E)
  | wait
  | closeCollector
  | drainSource
  | exited
deriving DecidableEq

/-- The next step of the dispatcher, with the mapper that it starts. -/
def Dispatcher.next (workers : Nat) (c : Common T U V E) :
    Dispatcher T U E → Branch →
      Option (Common T U V E × Dispatcher T U E × List (Mapper U E))
  | .check, .ready => some (c, if c.failed = 0 then .select else .wait, [])
  | .select, .context => if c.ctxDone then some (c, .wait, []) else none
  | .select, .done => if c.doneClosed then some (c, .wait, []) else none
  | .select, .ready =>
    if c.pool < workers then some ({ c with pool := c.pool + 1 }, .receive, []) else none
  | .receive, .ready => if c.sourceClosed then some (c, .giveBack, []) else none
  | .giveBack, .ready => some ({ c with pool := c.pool - 1 }, .wait, [])
  | .addWg job, .ready => some ({ c with wg := c.wg + 1 }, .start job, [])
  | .start job, .ready =>
    some ({ c with passed := c.passed ++ [job.item] }, .check, [.run job.actions])
  | .wait, .ready => if c.wg = 0 then some (c, .closeCollector, []) else none
  | .closeCollector, .ready =>
    some ({ c with collectorClosed := true, misuse := c.noteClose c.collectorClosed },
      .drainSource, [])
  | .drainSource, .ready => if c.sourceClosed then some (c, .exited, []) else none
  | _, _ => none

/-- The steps of the dispatcher. -/
inductive Dispatcher.Acts (workers : Nat) (c : Common T U V E) :
    Dispatcher T U E → Common T U V E → Dispatcher T U E → List (Mapper U E) → Prop where
  | goesOn (fine : c.failed = 0) : Acts workers c .check c .select []
  | fails (failed : c.failed ≠ 0) : Acts workers c .check c .wait []
  | context (ended : c.ctxDone = true) : Acts workers c .select c .wait []
  | done (closed : c.doneClosed = true) : Acts workers c .select c .wait []
  | acquires (room : c.pool < workers) :
      Acts workers c .select { c with pool := c.pool + 1 } .receive []
  | ends (closed : c.sourceClosed = true) : Acts workers c .receive c .giveBack []
  | givesBack : Acts workers c .giveBack { c with pool := c.pool - 1 } .wait []
  | adds {job} : Acts workers c (.addWg job) { c with wg := c.wg + 1 } (.start job) []
  | starts {job} : Acts workers c (.start job) { c with passed := c.passed ++ [job.item] } .check
      [.run job.actions]
  | waits (zero : c.wg = 0) : Acts workers c .wait c .closeCollector []
  | closes : Acts workers c .closeCollector
      { c with collectorClosed := true, misuse := c.noteClose c.collectorClosed } .drainSource []
  | exits : Acts workers c .drainSource c .exited []

variable {position after : Dispatcher T U E}

theorem Dispatcher.acts_of_next {c c' : Common T U V E} {started : List (Mapper U E)}
    (acted : position.next workers c branch = some (c', after, started)) :
    Acts workers c position c' after started := by
  cases position <;> cases branch <;> simp [next] at acted <;> first
    | obtain ⟨rfl, rfl, rfl⟩ := acted
    | obtain ⟨condition, rfl, rfl, rfl⟩ := acted
  case check =>
    split
    · exact .goesOn (by assumption)
    · exact .fails (by assumption)
  case select.done => exact .done (by assumption)
  all_goals constructor <;> assumption

theorem Dispatcher.Acts.started_eq_nil {c c' : Common T U V E} {started : List (Mapper U E)}
    (acts : Acts workers c position c' after started) (other : ∀ job, position ≠ .start job) :
    started = [] := by
  cases acts with
  | starts => exact absurd rfl (other _)
  | _ => rfl

/-- The goroutine of the reducer. -/
inductive Reducing (State V E : Type) where
  | run (state : State)
  | send (v : V) (state : State)
  | cancelling (step : CancelStep E) (state : State)
  | drain (panicked : Bool)
  | panicWrite
  | panicSend
  | finish (step : FinishStep)
  | exited

def Reducing.next (reducer : Reducer U V E) (c : Common T U V E) :
    Reducing reducer.State V E → Option (Common T U V E × Reducing reducer.State V E)
  | .run state =>
    match reducer.next state with
    | .receive next =>
      match c.collector with
      | v :: rest =>
        some ({ c with collector := rest, received := c.received ++ [v] }, .run (next (some v)))
      | [] => if c.collectorClosed then some (c, .run (next none)) else none
    | .write v next => some (c, if c.stopped then .run next else .send v next)
    | .cancel err next => some (c, .cancelling (.once (Failure.of err)) next)
    | .stop => some (c, .drain false)
  | .send _ _ =>
    if c.outputClosed then some ({ c with misuse := .sendOnClosed :: c.misuse }, .drain true)
    else none
  | .cancelling step state =>
    (c.cancel step).map fun (c, step) =>
      (c, match step with
        | some step => .cancelling step state
        | none => .run state)
  | .drain panicked =>
    match c.collector with
    | _ :: rest => some ({ c with collector := rest }, .drain panicked)
    | [] =>
      if c.collectorClosed then some (c, if panicked then .panicWrite else .finish .once)
      else none
  | .panicWrite =>
    if c.panicWrote then some (c, .finish .once)
    else some ({ c with panicWrote := true }, .panicSend)
  | .panicSend => none
  | .finish step =>
    (c.finish step).map fun (c, rest) =>
      (c, match rest with
        | some step => .finish step
        | none => .exited)
  | .exited => none

structure MapReduce (T : Type) {U V E : Type} (reducer : Reducer U V E) where
  common : Common T U V E
  caller : Caller V E
  generator : Generator T U E
  dispatcher : Dispatcher T U E
  reduce : Reducing reducer.State V E
  mappers : List (Mapper U E)

/-- Who receives from `source`. -/
inductive Receiver where
  | dispatcher
  | caller
  | reducer
  | mapper (i : Nat)
deriving DecidableEq

/-- A step of one goroutine, or of a sender and a receiver at a channel without a buffer. -/
inductive Move where
  | context
  | caller (branch : Branch)
  | generator
  | dispatcher (branch : Branch)
  | reducer
  | mapper (i : Nat)
  | item (receiver : Receiver)
  | output
  | reducerPanic
  | mapperPanic (i : Nat)
deriving DecidableEq

namespace MapReduce

variable {reducer : Reducer U V E} (workers : Nat) (s : MapReduce T reducer)

/-- An item goes to the dispatcher, or to a goroutine that drains the source. -/
def receiveItem (job : Job T U E) : Receiver → Option (MapReduce T reducer)
  | .dispatcher =>
    match s.dispatcher with
    | .receive => some { s with dispatcher := .addWg job }
    | .drainSource => some s
    | _ => none
  | .caller =>
    match s.caller with
    | .cancelling .drain => some s
    | _ => none
  | .reducer =>
    match s.reduce with
    | .cancelling .drain _ => some s
    | _ => none
  | .mapper i =>
    match s.mappers[i]? with
    | some (.cancelling .drain _) => some s
    | _ => none

def receiveOutput (v : V) : Option (MapReduce T reducer) :=
  match s.caller with
  | .select => some { s with caller := .load (some v) }
  | .deferred _ _ => some { s with caller := .panicked .moreThanOneElement }
  | .drainOutput => some s
  | _ => none

def receivePanic : Option (MapReduce T reducer) :=
  match s.caller with
  | .select => some { s with caller := .drainOutput }
  | _ => none

/-- The state after a move, if the move is possible. -/
def next : Move → Option (MapReduce T reducer)
  | .context =>
    if s.common.ctxDone then none else some { s with common := { s.common with ctxDone := true } }
  | .caller branch =>
    (s.caller.next s.common branch).map fun (common, caller) => { s with common, caller }
  | .generator =>
    (s.generator.next s.common).map fun (common, generator) => { s with common, generator }
  | .dispatcher branch =>
    (s.dispatcher.next workers s.common branch).map fun (common, dispatcher, started) =>
      { s with common, dispatcher, mappers := s.mappers ++ started }
  | .reducer =>
    (s.reduce.next reducer s.common).map fun (common, reduce) => { s with common, reduce }
  | .mapper i =>
    s.mappers[i]?.bind fun mapper =>
      (mapper.next workers s.common).map fun (common, mapper) =>
        { s with common, mappers := s.mappers.set i mapper }
  | .item receiver =>
    match s.generator with
    | .generate (job :: jobs) =>
      (s.receiveItem job receiver).map fun s => { s with generator := .generate jobs }
    | _ => none
  | .output =>
    match s.reduce with
    | .send v state =>
      if s.common.outputClosed then none
      else
        (s.receiveOutput v).map fun s =>
          { s with
            common := { s.common with outputs := s.common.outputs ++ [v] }
            reduce := .run state }
    | _ => none
  | .reducerPanic =>
    match s.reduce with
    | .panicSend => s.receivePanic.map fun s => { s with reduce := .finish .once }
    | _ => none
  | .mapperPanic i =>
    match s.mappers[i]? with
    | some .panicSend =>
      s.receivePanic.map fun s => { s with mappers := s.mappers.set i .done }
    | _ => none

def step (move : Move) : MapReduce T reducer × List Unit := ((s.next workers move).getD s, [])

def start (reducer : Reducer U V E) (jobs : List (Job T U E)) : MapReduce T reducer where
  common := {}
  caller := .select
  generator := .generate jobs
  dispatcher := .check
  reduce := .run reducer.start
  mappers := []

variable {workers s} {s' : MapReduce T reducer} {receiver : Receiver}

theorem next_caller (moved : s.next workers (.caller branch) = some s') :
    ∃ common caller, s.caller.next s.common branch = some (common, caller) ∧
      s' = { s with common, caller } := by
  obtain ⟨⟨common, caller⟩, acted, rfl⟩ := map_eq_some_iff.mp moved
  exact ⟨common, caller, acted, rfl⟩

theorem next_generator (moved : s.next workers .generator = some s') :
    s.generator = .generate [] ∧
      s' = { s with common := { s.common with sourceClosed := true }, generator := .exited } := by
  obtain ⟨⟨common, generator⟩, acted, rfl⟩ := map_eq_some_iff.mp moved
  cases position : s.generator with
  | exited => simp [position, Generator.next] at acted
  | generate jobs =>
    cases jobs with
    | cons job jobs => simp [position, Generator.next] at acted
    | nil =>
      rw [position] at acted
      cases acted
      exact ⟨rfl, rfl⟩

theorem next_dispatcher (moved : s.next workers (.dispatcher branch) = some s') :
    ∃ common dispatcher started,
      Dispatcher.Acts workers s.common s.dispatcher common dispatcher started ∧
      s' = { s with common, dispatcher, mappers := s.mappers ++ started } := by
  obtain ⟨⟨common, dispatcher, started⟩, acted, rfl⟩ := map_eq_some_iff.mp moved
  exact ⟨common, dispatcher, started, Dispatcher.acts_of_next acted, rfl⟩

theorem next_reducer (moved : s.next workers .reducer = some s') :
    ∃ common reduce, s.reduce.next reducer s.common = some (common, reduce) ∧
      s' = { s with common, reduce } := by
  obtain ⟨⟨common, reduce⟩, acted, rfl⟩ := map_eq_some_iff.mp moved
  exact ⟨common, reduce, acted, rfl⟩

theorem next_mapper {i : Nat} (moved : s.next workers (.mapper i) = some s') :
    ∃ mapper common after, s.mappers[i]? = some mapper ∧
      mapper.next workers s.common = some (common, after) ∧
      s' = { s with common, mappers := s.mappers.set i after } := by
  obtain ⟨mapper, found, mapped⟩ := bind_eq_some_iff.mp moved
  obtain ⟨⟨common, after⟩, acted, rfl⟩ := map_eq_some_iff.mp mapped
  exact ⟨mapper, common, after, found, acted, rfl⟩

/-- Some goroutine receives from the source only to drop what it receives. -/
def Draining (s : MapReduce T reducer) : Prop :=
  s.dispatcher = .drainSource ∨ s.caller = .cancelling .drain ∨
    (∃ state, s.reduce = .cancelling .drain state) ∨
    ∃ m ∈ s.mappers, ∃ rest, m = .cancelling .drain rest

theorem receiveItem_cases {job : Job T U E} (received : s.receiveItem job receiver = some s') :
    s.dispatcher = .receive ∧ s' = { s with dispatcher := .addWg job } ∨ Draining s ∧ s' = s := by
  revert received
  fun_cases receiveItem s job receiver with
  | case1 waits =>
    rintro ⟨⟩
    exact Or.inl ⟨waits, rfl⟩
  | case2 drains =>
    rintro ⟨⟩
    exact Or.inr ⟨Or.inl drains, rfl⟩
  | case4 drains =>
    rintro ⟨⟩
    exact Or.inr ⟨Or.inr (Or.inl drains), rfl⟩
  | case6 state drains =>
    rintro ⟨⟩
    exact Or.inr ⟨Or.inr (Or.inr (Or.inl ⟨state, drains⟩)), rfl⟩
  | case8 i rest found =>
    rintro ⟨⟩
    exact Or.inr ⟨Or.inr (Or.inr (Or.inr ⟨_, List.mem_of_getElem? found, rest, rfl⟩)), rfl⟩
  | _ => rintro ⟨⟩

/-- An item goes to the dispatcher that waits for it, or is dropped by who drains. -/
theorem next_item (moved : s.next workers (.item receiver) = some s') :
    ∃ job jobs, s.generator = .generate (job :: jobs) ∧
      (s.dispatcher = .receive ∧
          s' = { s with dispatcher := .addWg job, generator := .generate jobs } ∨
        Draining s ∧ s' = { s with generator := .generate jobs }) := by
  rw [next] at moved
  split at moved
  · rename_i job jobs position
    obtain ⟨between, received, rfl⟩ := map_eq_some_iff.mp moved
    refine ⟨job, jobs, position, ?_⟩
    rcases receiveItem_cases received with ⟨waits, rfl⟩ | ⟨drains, rfl⟩
    · exact Or.inl ⟨waits, rfl⟩
    · exact Or.inr ⟨drains, rfl⟩
  · simp at moved

theorem next_output (moved : s.next workers .output = some s') :
    ∃ v state, s.reduce = .send v state ∧ s.common.outputClosed = false ∧
      ∃ caller, (s.caller = .select ∧ caller = .load (some v) ∨
          (∃ val err, s.caller = .deferred val err) ∧ caller = .panicked .moreThanOneElement ∨
          s.caller = .drainOutput ∧ caller = .drainOutput) ∧
        s' = { s with
          common := { s.common with outputs := s.common.outputs ++ [v] }
          caller
          reduce := .run state } := by
  rw [next] at moved
  split at moved
  · rename_i v state sending
    split at moved
    · simp at moved
    rename_i opened
    obtain ⟨between, received, rfl⟩ := map_eq_some_iff.mp moved
    refine ⟨v, state, sending, eq_false_of_ne_true opened, ?_⟩
    revert received
    fun_cases receiveOutput s v with
    | case1 position =>
      rintro ⟨⟩
      exact ⟨_, Or.inl ⟨position, rfl⟩, rfl⟩
    | case2 val err position =>
      rintro ⟨⟩
      exact ⟨_, Or.inr (Or.inl ⟨⟨val, err, position⟩, rfl⟩), rfl⟩
    | case3 position =>
      rintro ⟨⟩
      exact ⟨_, Or.inr (Or.inr ⟨position, position⟩), rfl⟩
    | case4 => rintro ⟨⟩
  · simp at moved

theorem next_reducerPanic (moved : s.next workers .reducerPanic = some s') :
    s.reduce = .panicSend := by
  rw [next] at moved
  split at moved
  · assumption
  · simp at moved

theorem next_mapperPanic {i : Nat} (moved : s.next workers (.mapperPanic i) = some s') :
    s.mappers[i]? = some .panicSend := by
  rw [next] at moved
  split at moved
  · assumption
  · simp at moved

end MapReduce

end FastGoZero.Mr
