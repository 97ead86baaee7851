import FastGoZero.Mr.Cancellation

/-!
# The pipeline without cancellation

When nobody cancels, items flow from the generator through the dispatcher to the mappers, and
values from the mappers through the collector to the reducer. Nothing is dropped on the way: the
collector is closed after the last write, and `done` after the reducer has seen it closed.
-/

namespace FastGoZero.Mr

open Lib.Concurrent List Option

variable {T U V E State : Type} {reducer : Reducer U V E}

def MapAction.isWrite : MapAction U E → Bool
  | write _ => true
  | cancel _ => false

def writesOf (actions : List (MapAction U E)) : Multiset U :=
  (actions.filterMap fun
    | .write v => some v
    | .cancel _ => none : List U)

/-- The mapper only writes. -/
def Job.Plain (job : Job T U E) : Prop := ∀ action ∈ job.actions, action.isWrite = true

/-- The values that the mapper writes for the jobs. -/
def allWrites (jobs : List (Job T U E)) : Multiset U :=
  (jobs.map fun job => writesOf job.actions).sum

/-- What the reducer does from a state on with the values that are still to come: it stops when
it has seen the pipe closed, and writes the listed values. -/
inductive Reducer.Serves (reducer : Reducer U V E) :
    reducer.State → Bool → List U → List V → Prop where
  | stop {state} (action : reducer.next state = .stop) : reducer.Serves state true [] []
  | receive {state next v values outs} (action : reducer.next state = .receive next)
      (rest : reducer.Serves (next (some v)) false values outs) :
      reducer.Serves state false (v :: values) outs
  | close {state next seen outs} (action : reducer.next state = .receive next)
      (rest : reducer.Serves (next none) true [] outs) : reducer.Serves state seen [] outs
  | write {state v next seen values outs} (action : reducer.next state = .write v next)
      (rest : reducer.Serves next seen values outs) :
      reducer.Serves state seen values (v :: outs)

/-- The reducer drains its pipe and writes exactly one value, whatever it receives. -/
def Reducer.Drains (reducer : Reducer U V E) : Prop :=
  ∀ values, ∃ v, reducer.Serves reducer.start false values [v]

namespace Mapper

def Plain : Mapper U E → Prop
  | run actions => ∀ action ∈ actions, action.isWrite = true
  | send _ rest => ∀ action ∈ rest, action.isWrite = true
  | done | release | exited => True
  | _ => False

/-- The values that the mapper has still to write. -/
def pending : Mapper U E → Multiset U
  | run actions => writesOf actions
  | send v rest => v ::ₘ writesOf rest
  | _ => 0

/-- The mapper has not given back its place in the pool. -/
def slot : Mapper U E → Nat
  | exited => 0
  | _ => 1

def running : Mapper U E → Nat
  | done | release | exited => 0
  | _ => 1

end Mapper

namespace Dispatcher

/-- The job that the dispatcher has received and not started. -/
def jobs : Dispatcher T U E → List (Job T U E)
  | addWg job => [job]
  | start job => [job]
  | _ => []

def slot : Dispatcher T U E → Nat
  | receive | giveBack | addWg _ | start _ => 1
  | _ => 0

def past : Dispatcher T U E → Bool
  | giveBack | wait | closeCollector | drainSource | exited => true
  | _ => false

end Dispatcher

def Generator.jobs : Generator T U E → List (Job T U E)
  | generate jobs => jobs
  | exited => []

/-- Nothing is left in the collector, and nothing will come. -/
def Common.drained (c : Common T U V E) : Bool := c.collectorClosed && c.collector.isEmpty

/-- The reducer in its state will write one value in all, counting those written. -/
structure Expects (reducer : Reducer U V E) (drained : Bool) (received : List U)
    (outputs : List V) (state : reducer.State) (seen : Bool) : Prop where
  drained : seen = true → drained = true
  serves : ∀ values, (seen = true → values = []) →
    ∃ outs, reducer.Serves state seen values outs ∧ (outputs ++ outs).length = 1
  history : ∀ values outs, reducer.Serves state seen values outs →
    reducer.Serves reducer.start false (received ++ values) (outputs ++ outs)

/-- The reducer has received everything and written its value. -/
structure Settled (reducer : Reducer U V E) (drained : Bool) (received : List U)
    (outputs : List V) : Prop where
  drained : drained = true
  wrote : ∃ v, outputs = [v] ∧ reducer.Serves reducer.start false received [v]

def Reducing.Follows (reducer : Reducer U V E) (drained : Bool) (received : List U)
    (outputs : List V) : Reducing reducer.State V E → Prop
  | run state => ∃ seen, Expects reducer drained received outputs state seen
  | send v state => ∃ seen, Expects reducer drained received (outputs ++ [v]) state seen
  | drain panicked => panicked = false ∧ Settled reducer drained received outputs
  | finish _ | exited => Settled reducer drained received outputs
  | _ => False

theorem Reducer.Serves.nil_of_seen {state : reducer.State} {values : List U} {outs : List V}
    (serves : reducer.Serves state true values outs) : values = [] := by
  generalize seen : true = closed at serves
  induction serves with
  | stop => rfl
  | receive => contradiction
  | close => rfl
  | write action rest ih => exact ih seen

namespace Expects

variable {reducer : Reducer U V E} {drained : Bool} {received : List U} {outputs : List V}
  {state : reducer.State} {seen : Bool} {next : Option U → reducer.State}

theorem receive (expects : Expects reducer false received outputs state seen)
    (action : reducer.next state = .receive next) (v : U) (drained : Bool) :
    Expects reducer drained (received ++ [v]) outputs (next (some v)) false := by
  have unseen : seen = false := by
    rw [← Bool.not_eq_true]
    intro closed
    exact absurd (expects.drained closed) (by simp)
  subst unseen
  refine ⟨by simp, ?_, ?_⟩
  · intro values _
    obtain ⟨outs, serves, one⟩ := expects.serves (v :: values) (by simp)
    refine ⟨outs, ?_, one⟩
    cases serves with
    | receive other rest =>
      cases action.symm.trans other
      exact rest
    | write other rest =>
      cases action.symm.trans other
  · intro values outs serves
    rw [append_assoc]
    exact expects.history (v :: values) outs (.receive action serves)

section

variable (expects : Expects reducer drained received outputs state seen)

include expects

theorem close (closed : drained = true) (action : reducer.next state = .receive next) :
    Expects reducer drained received outputs (next none) true := by
  refine ⟨fun _ => closed, ?_, ?_⟩
  · intro values none
    obtain ⟨outs, serves, one⟩ := expects.serves [] (by simp)
    rw [none rfl]
    refine ⟨outs, ?_, one⟩
    cases serves with
    | stop other | write other =>
      cases action.symm.trans other
    | close other rest =>
      cases action.symm.trans other
      exact rest
  · intro values outs serves
    obtain rfl := serves.nil_of_seen
    exact expects.history [] outs (.close action serves)

theorem write {v : V} {next : reducer.State} (action : reducer.next state = .write v next) :
    Expects reducer drained received (outputs ++ [v]) next seen := by
  refine ⟨expects.drained, ?_, ?_⟩
  · intro values none
    obtain ⟨outs, serves, one⟩ := expects.serves values none
    cases serves with
    | stop other | receive other rest | close other rest =>
      cases action.symm.trans other
    | @write _ _ _ _ _ outs other rest =>
      cases action.symm.trans other
      exact ⟨outs, rest, by simpa using one⟩
  · intro values outs serves
    rw [append_assoc]
    exact expects.history values (v :: outs) (.write action serves)

/-- A reducer that stops has written its value and seen the pipe closed. -/
theorem stop (action : reducer.next state = .stop) : Settled reducer drained received outputs := by
  obtain ⟨outs, serves, one⟩ := expects.serves [] (by simp)
  have history := expects.history [] outs serves
  cases serves with
  | stop other =>
    rw [append_nil] at one history
    obtain ⟨v, rfl⟩ := length_eq_one_iff.mp one
    exact ⟨expects.drained rfl, v, rfl, by simpa using history⟩
  | close other rest | write other rest =>
    cases action.symm.trans other

theorem not_cancel {err : Option E} {next : reducer.State} :
    reducer.next state ≠ .cancel err next := by
  intro action
  obtain ⟨outs, serves, -⟩ := expects.serves [] (by simp)
  cases serves with
  | stop other | close other rest | write other rest =>
    cases action.symm.trans other

end

theorem outputs_eq_nil {v : V}
    (expects : Expects reducer drained received (outputs ++ [v]) state seen) : outputs = [] := by
  obtain ⟨outs, -, one⟩ := expects.serves [] (by simp)
  rw [← length_eq_zero_iff]
  simp only [length_append, length_cons, length_nil] at one
  omega

end Expects

/-- While the collector is not drained the reducer has not seen it closed. -/
theorem Reducing.Follows.opens {received : List U} {outputs : List V}
    {reduce : Reducing reducer.State V E} (follows : reduce.Follows reducer false received outputs)
    (drained : Bool) : reduce.Follows reducer drained received outputs := by
  have unseen : ∀ {outputs state seen}, Expects reducer false received outputs state seen →
      Expects reducer drained received outputs state seen := by
    intro outputs state seen expects
    exact ⟨fun closed => absurd (expects.drained closed) (by simp), expects.serves, expects.history⟩
  cases reduce with
  | run state | send v state => exact follows.imp fun _ => unseen
  | drain panicked => exact absurd follows.2.drained (by simp)
  | finish step | exited => exact absurd follows.drained (by simp)
  | cancelling step state | panicWrite | panicSend => exact follows.elim

/-- The channels that the reducer has closed at its end. -/
def Reducing.closes : Reducing State V E → Once × Bool × Bool
  | finish .closeDone => (.running, false, false)
  | finish .closeOutput => (.running, true, false)
  | exited => (.done, true, true)
  | _ => (.idle, false, false)

def Caller.hasReturned : Caller V E → Bool
  | returned _ _ => true
  | _ => false

/-- The caller has received what the reducer has written. -/
def Caller.Follows (outputs : List V) : Caller V E → Prop
  | select => outputs = []
  | load received => ∃ v, received = some v ∧ outputs = [v]
  | deferred val err | returned val err => err = none ∧ ∃ v, val = some v ∧ outputs = [v]
  | _ => False

/-- The moves that a job can cause. -/
def Job.weight (job : Job T U E) : Nat := 4 * job.actions.length

def Generator.weight : Generator T U E → Nat
  | generate jobs => jobs.foldr (fun job rest => job.weight + 9 + rest) 2
  | exited => 0

def Dispatcher.weight : Dispatcher T U E → Nat
  | addWg job => job.weight + 14
  | start job => job.weight + 13
  | check => 8
  | select => 7
  | receive => 6
  | giveBack => 5
  | wait => 4
  | closeCollector => 3
  | drainSource => 2
  | exited => 0

def Mapper.weight : Mapper U E → Nat
  | run actions => 4 * actions.length + 4
  | send _ rest => 4 * rest.length + 7
  | done => 3
  | release => 2
  | _ => 0

def Reducing.weight (written : Nat) : Reducing State V E → Nat
  | run _ => 4 * (1 - written) + 10
  | send _ _ => 13
  | drain _ => 9
  | finish .once => 8
  | finish .closeDone => 7
  | finish .closeOutput => 6
  | _ => 0

def Caller.weight : Caller V E → Nat
  | select => 5
  | load _ => 4
  | deferred _ _ => 3
  | _ => 0

namespace MapReduce

variable {reducer : Reducer U V E}

structure Flows (workers : Nat) (jobs : List (Job T U E)) (s : MapReduce T reducer) : Prop where
  ctxDone : s.common.ctxDone = false
  failed : s.common.failed = 0
  retErr : s.common.retErr = none
  caller : s.caller.Follows s.common.outputs
  source : s.common.sourceClosed = true ↔ s.generator = .exited
  past : s.dispatcher.past = true → s.generator = .exited
  items : s.common.passed ++ (s.dispatcher.jobs ++ s.generator.jobs).map Job.item =
    jobs.map Job.item
  plainJobs : ∀ job ∈ s.dispatcher.jobs ++ s.generator.jobs, job.Plain
  plain : ∀ m ∈ s.mappers, m.Plain
  values : s.common.written + total Mapper.pending (s.mappers : Multiset (Mapper U E)) +
    allWrites (s.dispatcher.jobs ++ s.generator.jobs) = allWrites jobs
  received : (s.common.received : Multiset U) + s.common.collector = s.common.written
  wg : s.common.wg = total Mapper.active (s.mappers : Multiset (Mapper U E)) + s.dispatcher.adding
  waited : s.dispatcher.waited = true → s.common.wg = 0
  collector : s.common.collectorClosed = s.dispatcher.closed
  pool : s.common.pool = total Mapper.slot (s.mappers : Multiset (Mapper U E)) + s.dispatcher.slot
  poolMost : s.common.pool ≤ workers
  reduce : s.reduce.Follows reducer s.common.drained s.common.received s.common.outputs
  closes : (s.common.closeOnce, s.common.doneClosed, s.common.outputClosed) = s.reduce.closes
  ended : s.caller.hasReturned = true → s.reduce = .exited

def weight (s : MapReduce T reducer) : Nat :=
  s.caller.weight + s.generator.weight + s.dispatcher.weight +
    s.reduce.weight s.common.outputs.length + 2 * s.common.collector.length +
    total Mapper.weight (s.mappers : Multiset (Mapper U E))

/-- The reducer receives from the closed and empty collector. -/
def Polls (s s' : MapReduce T reducer) : Prop :=
  s.common.drained = true ∧ ∃ state next, s.reduce = .run state ∧
    reducer.next state = .receive next ∧ s' = { s with reduce := .run (next none) }

variable {workers : Nat} {jobs : List (Job T U E)} {s s' : MapReduce T reducer}

theorem Flows.start (plain : ∀ job ∈ jobs, job.Plain) (drains : reducer.Drains) :
    Flows workers jobs (start reducer jobs) where
  ctxDone := rfl
  failed := rfl
  retErr := rfl
  caller := rfl
  source := by simp [MapReduce.start]
  past := by simp [MapReduce.start, Dispatcher.past]
  items := rfl
  plainJobs := plain
  plain := by simp [MapReduce.start]
  values := by simp [MapReduce.start, Dispatcher.jobs, Generator.jobs]
  received := rfl
  wg := rfl
  waited := by simp [MapReduce.start, Dispatcher.waited]
  collector := rfl
  pool := rfl
  poolMost := Nat.zero_le _
  reduce := by
    refine ⟨false, by simp, ?_, fun _ _ serves => serves⟩
    intro values _
    obtain ⟨v, serves⟩ := drains values
    exact ⟨[v], serves, rfl⟩
  closes := rfl
  ended := by simp [MapReduce.start, Caller.hasReturned]

/-- The reducer closes `done` only after it has seen the collector closed. -/
theorem Flows.collector_of_done (flows : Flows workers jobs s)
    (done : s.common.doneClosed = true) : s.common.collectorClosed = true := by
  have closes := flows.closes
  have follows := flows.reduce
  rw [done] at closes
  cases position : s.reduce with
  | finish step | exited =>
    rw [position] at follows
    exact (Bool.and_eq_true_iff.mp follows.drained).1
  | _ => simp [position, Reducing.closes] at closes

theorem Flows.wrote_of_closed (flows : Flows workers jobs s)
    (closed : s.common.outputClosed = true) : s.reduce = .exited := by
  have closes := flows.closes
  rw [closed] at closes
  cases position : s.reduce with
  | finish step => cases step <;> simp [position, Reducing.closes] at closes
  | exited => rfl
  | _ => simp [position, Reducing.closes] at closes

theorem Flows.opens (flows : Flows workers jobs s) (opened : s.common.collectorClosed = false)
    (drained : Bool) : s.reduce.Follows reducer drained s.common.received s.common.outputs := by
  have follows := flows.reduce
  rw [Common.drained, opened, Bool.false_and] at follows
  exact follows.opens _

/-- While the reducer runs, its writes go through. -/
theorem Flows.stopped_of_run (flows : Flows workers jobs s) {state : reducer.State}
    (position : s.reduce = .run state) : s.common.stopped = false := by
  have closes := flows.closes
  simp only [position, Reducing.closes, Prod.mk.injEq] at closes
  rw [Common.stopped, flows.ctxDone, closes.2.1]
  rfl

/-- What a move does while nobody cancels: it uses up work, or polls the drained collector. -/
structure Onward (workers : Nat) (jobs : List (Job T U E)) (s s' : MapReduce T reducer) :
    Prop where
  flows : Flows workers jobs s'
  pays : s'.weight < s.weight ∨ Polls s s'

section

variable (flows : Flows workers jobs s) {i : Nat} {branch : Branch}

include flows

theorem Flows.callerMove (moved : s.next workers (.caller branch) = some s') :
    Onward workers jobs s s' := by
  obtain ⟨common, caller, acted, rfl⟩ := next_caller moved
  obtain ⟨c, position, generator, dispatcher, reduce, mappers⟩ := s
  have follows := flows.caller
  revert acted
  fun_cases Caller.next c position branch with
  | case1 ended => exact absurd ended (ne_true_of_eq_false flows.ctxDone)
  | case3 closed =>
    have wrote := flows.reduce
    rw [flows.wrote_of_closed closed] at wrote
    obtain ⟨v, outputs, -⟩ := wrote.wrote
    have none : c.outputs = [] := follows
    rw [none] at outputs
    contradiction
  | case6 received =>
    rintro ⟨⟩
    obtain ⟨v, rfl, outputs⟩ := follows
    have retErr : common.retErr = none := flows.retErr
    rw [retErr]
    refine ⟨?_, Or.inl (by simp [weight, Caller.weight])⟩
    exact { flows with
      caller := ⟨rfl, v, rfl, outputs⟩
      ended := by simp [Caller.hasReturned] }
  | case7 val err closed =>
    rintro ⟨⟩
    refine ⟨?_, Or.inl (by simp [weight, Caller.weight])⟩
    exact { flows with
      caller := follows
      ended := fun _ => flows.wrote_of_closed closed }
  | case5 | case9 => exact follows.elim
  | _ => rintro ⟨⟩

theorem Flows.generatorMove (moved : s.next workers .generator = some s') :
    Onward workers jobs s s' := by
  obtain ⟨position, rfl⟩ := next_generator moved
  obtain ⟨c, caller, generator, dispatcher, reduce, mappers⟩ := s
  cases position
  refine ⟨?_, Or.inl (by simp [weight, Generator.weight])⟩
  exact { flows with
    source := by simp
    past := fun _ => rfl }

theorem Flows.dispatcherMove (moved : s.next workers (.dispatcher branch) = some s') :
    Onward workers jobs s s' := by
  obtain ⟨common, dispatcher, started, acts, rfl⟩ := next_dispatcher moved
  obtain ⟨c, caller, generator, position, reduce, mappers⟩ := s
  by_cases starts : ∃ job, position = .start job
  · obtain ⟨job, rfl⟩ := starts
    cases acts
    -- what the dispatcher held goes over to the mapper that it starts
    have plain := flows.plainJobs
    rw [Dispatcher.jobs, singleton_append, forall_mem_cons] at plain
    constructor
    · exact { flows with
        past := by simp [Dispatcher.past]
        items := by simpa [Dispatcher.jobs] using flows.items
        plainJobs := plain.2
        plain := forall_mem_append.mpr ⟨flows.plain, forall_mem_singleton.mpr plain.1⟩
        values := by
          have values := flows.values
          rw [Dispatcher.jobs, singleton_append, allWrites, map_cons, sum_cons,
            ← add_assoc] at values
          rwa [total_concat, ← add_assoc]
        wg := by
          rw [total_concat]
          exact flows.wg
        waited := by simp [Dispatcher.waited]
        pool := by
          rw [total_concat]
          exact flows.pool }
    · left
      simp only [weight, Dispatcher.weight, total_concat, Mapper.weight, Job.weight]
      omega
  · obtain rfl := acts.started_eq_nil fun job same => starts ⟨job, same⟩
    rw [append_nil]
    refine ⟨?_, Or.inl (by cases acts <;> simp [weight, Dispatcher.weight])⟩
    cases acts with
    | goesOn fine => exact { flows with }
    | fails failed => exact absurd flows.failed failed
    | acquires room =>
      exact { flows with
        past := by simp [Dispatcher.past]
        pool := congrArg (· + 1) flows.pool
        poolMost := room }
    | context ended => exact absurd ended (ne_true_of_eq_false flows.ctxDone)
    | done closed =>
      have closed := (flows.collector_of_done closed).symm.trans flows.collector
      contradiction
    | ends closed => exact { flows with past := fun _ => flows.source.mp closed }
    | givesBack =>
      have pool : c.pool = total Mapper.slot (mappers : Multiset (Mapper U E)) + 1 := flows.pool
      have most : c.pool ≤ workers := flows.poolMost
      exact { flows with
        past := fun _ => flows.past rfl
        pool := by
          rw [pool]
          rfl
        poolMost := by
          dsimp only
          omega }
    | adds =>
      exact { flows with
        wg := congrArg (· + 1) flows.wg
        waited := by simp [Dispatcher.waited] }
    | waits zero =>
      exact { flows with
        past := fun _ => flows.past rfl
        waited := fun _ => zero }
    | closes =>
      exact { flows with
        past := fun _ => flows.past rfl
        waited := fun _ => flows.waited rfl
        collector := rfl
        reduce := flows.opens flows.collector _ }
    | exits =>
      exact { flows with
        past := fun _ => flows.past rfl
        waited := fun _ => flows.waited rfl }

/-- A mapper that still runs finds the collector open. -/
theorem Flows.collector_open {m : Mapper U E} (mem : m ∈ s.mappers) (active : m.active = 1) :
    s.common.collectorClosed = false :=
  collector_open_of_active flows.wg flows.waited flows.collector mem active

/-- A mapper goes on, and may leave the wait group or give back its place in the pool. -/
theorem Flows.mapperGoesOn {mapper : Mapper U E} (found : s.mappers[i]? = some mapper)
    (after : Mapper U E) (plain : after.Plain) (pending : after.pending = mapper.pending)
    (active : after.active ≤ mapper.active) (slot : after.slot ≤ mapper.slot)
    (less : after.weight < mapper.weight) :
    Onward workers jobs s { s with
      common := { s.common with
        wg := s.common.wg - (mapper.active - after.active)
        pool := s.common.pool - (mapper.slot - after.slot) }
      mappers := s.mappers.set i after } := by
  obtain ⟨rest, whole, replaced⟩ := crowd_set found
  have wg := flows.wg
  have pool := flows.pool
  have most := flows.poolMost
  rw [whole, total_cons] at wg pool
  constructor
  · exact { flows with
      plain := forall_mem_set flows.plain plain
      values := by
        rw [total_set found _ pending]
        exact flows.values
      wg := by
        rw [replaced, total_cons]
        dsimp only
        omega
      waited := fun waited => Nat.sub_eq_zero_of_le ((flows.waited waited).trans_le (Nat.zero_le _))
      pool := by
        rw [replaced, total_cons]
        dsimp only
        omega
      poolMost := (Nat.sub_le _ _).trans most }
  · left
    simp only [weight, replaced, whole, total_cons]
    omega

theorem Flows.mapperMove (moved : s.next workers (.mapper i) = some s') :
    Onward workers jobs s s' := by
  obtain ⟨mapper, common, after, found, acted, rfl⟩ := next_mapper moved
  have mem := mem_of_getElem? found
  have plain := flows.plain mapper mem
  obtain ⟨others, whole, replaced⟩ := crowd_set found
  revert acted
  fun_cases Mapper.next workers s.common mapper with
  | case1 =>
    rintro ⟨⟩
    exact flows.mapperGoesOn found .done trivial rfl le_rfl le_rfl (by simp [Mapper.weight])
  | case2 v rest =>
    rintro ⟨⟩
    have opened := flows.collector_open mem rfl
    have running : s.common.stopped = false := by
      rw [Common.stopped, flows.ctxDone, Bool.false_or, ← Bool.not_eq_true]
      intro done
      rw [flows.collector_of_done done] at opened
      contradiction
    rw [running]
    refine flows.mapperGoesOn found (.send v rest) (forall_mem_cons.mp plain).2 rfl le_rfl le_rfl ?_
    simp only [Mapper.weight, length_cons]
    omega
  | case3 => exact absurd (plain _ mem_cons_self) (by simp [MapAction.isWrite])
  | case4 v rest closed =>
    exact absurd closed (ne_true_of_eq_false (flows.collector_open mem rfl))
  | case5 v rest =>
    rintro ⟨⟩
    constructor
    · exact { flows with
        plain := forall_mem_set flows.plain plain
        values := by
          have values := flows.values
          rw [whole, total_cons] at values
          rw [replaced, total_cons, ← values]
          simp [Mapper.pending]
        received := by
          rw [← flows.received, ← Multiset.coe_add, ← add_assoc, Multiset.coe_singleton,
            ← Multiset.singleton_add, add_comm]
        wg := by
          rw [total_set found (.run rest) rfl]
          exact flows.wg
        pool := by
          rw [total_set found (.run rest) rfl]
          exact flows.pool
        reduce := flows.opens (flows.collector_open mem rfl) _ }
    · left
      simp only [weight, replaced, whole, total_cons, Mapper.weight, length_append,
        length_singleton]
      omega
  | case12 =>
    rintro ⟨⟩
    exact flows.mapperGoesOn found .release trivial rfl zero_le_one le_rfl (by simp [Mapper.weight])
  | case13 =>
    rintro ⟨⟩
    exact flows.mapperGoesOn found .exited trivial rfl le_rfl zero_le_one (by simp [Mapper.weight])
  | case6 | case14 => rintro ⟨⟩
  | _ => exact plain.elim

theorem Flows.reducerMove (moved : s.next workers .reducer = some s') :
    Onward workers jobs s s' := by
  obtain ⟨common, after, acted, rfl⟩ := next_reducer moved
  obtain ⟨c, caller, generator, dispatcher, position, mappers⟩ := s
  have follows := flows.reduce
  have closes := flows.closes
  -- the caller has not returned, since the reducer goes on
  have ended : ∀ {after : Reducing reducer.State V E}, caller.hasReturned = true →
      after = .exited := by
    intro after returned
    cases flows.ended returned
    simp [Reducing.next] at acted
  revert acted
  fun_cases Reducing.next reducer c position with
  | case1 state next action v rest buffer =>
    rintro ⟨⟩
    obtain ⟨seen, expects⟩ := follows
    have left : c.drained = false := by simp [Common.drained, buffer]
    rw [left] at expects
    constructor
    · exact { flows with
        received := by
          have received := flows.received
          rw [buffer] at received
          rw [← received]
          simp
        reduce := ⟨false, expects.receive action v _⟩
        ended := ended }
    · left
      simp only [weight, buffer, Reducing.weight, length_cons]
      omega
  | case2 state next action buffer closed =>
    rintro ⟨⟩
    obtain ⟨seen, expects⟩ := follows
    have drained : common.drained = true := by simp [Common.drained, buffer, closed]
    refine ⟨?_, Or.inr ⟨drained, state, next, rfl, action, rfl⟩⟩
    exact { flows with
      reduce := ⟨true, expects.close drained action⟩
      ended := ended }
  | case4 state v next action =>
    rintro ⟨⟩
    obtain ⟨seen, expects⟩ := follows
    have none : common.outputs = [] := (expects.write action).outputs_eq_nil
    have running : common.stopped = false := flows.stopped_of_run rfl
    rw [running]
    refine ⟨?_, Or.inl (by simp [weight, Reducing.weight, none])⟩
    exact { flows with
      reduce := ⟨seen, expects.write action⟩
      ended := ended }
  | case5 state err next action =>
    obtain ⟨seen, expects⟩ := follows
    exact absurd action expects.not_cancel
  | case6 state action =>
    rintro ⟨⟩
    obtain ⟨seen, expects⟩ := follows
    constructor
    · exact { flows with
        reduce := ⟨rfl, expects.stop action⟩
        ended := ended }
    · left
      simp only [weight, Reducing.weight]
      omega
  | case7 v state closed =>
    simp only [Reducing.closes, Prod.mk.injEq] at closes
    exact absurd closed (ne_true_of_eq_false closes.2.2)
  | case10 panicked v rest buffer =>
    obtain ⟨-, empty⟩ := Bool.and_eq_true_iff.mp follows.2.drained
    cases buffer.symm.trans (isEmpty_iff.mp empty)
  | case11 panicked =>
    rintro ⟨⟩
    obtain ⟨rfl, settled⟩ := follows
    refine ⟨?_, Or.inl (by simp [weight, Reducing.weight])⟩
    exact { flows with
      reduce := settled
      ended := ended }
  | case16 step =>
    intro acted
    cases step with
    | once | closeDone | closeOutput =>
      simp only [Reducing.closes, Prod.mk.injEq] at closes
      simp only [Common.finish, closes, map_some, some.injEq, Prod.mk.injEq] at acted
      obtain ⟨rfl, rfl⟩ := acted
      refine ⟨?_, Or.inl (by simp [weight, Reducing.weight])⟩
      exact { flows with
        reduce := follows
        closes := by simp [Reducing.closes]
        ended := ended }
  | case9 | case13 | case14 => exact follows.elim
  | _ => rintro ⟨⟩

theorem Flows.not_draining {job : Job T U E} {rest : List (Job T U E)}
    (position : s.generator = .generate (job :: rest)) : ¬ Draining s := by
  rintro (drains | drains | ⟨state, drains⟩ | ⟨m, mem, rest, drains⟩)
  · have exited := flows.past (by rw [drains]; rfl)
    rw [position] at exited
    contradiction
  · have follows := flows.caller
    rwa [drains] at follows
  · have follows := flows.reduce
    rwa [drains] at follows
  · have plain := flows.plain m mem
    rwa [drains] at plain

theorem Flows.item {receiver : Receiver} (moved : s.next workers (.item receiver) = some s') :
    Onward workers jobs s s' := by
  obtain ⟨job, rest, position, ⟨waits, rfl⟩ | ⟨drains, -⟩⟩ := next_item moved
  · obtain ⟨c, caller, generator, dispatcher, reduce, mappers⟩ := s
    cases position
    cases waits
    constructor
    · exact { flows with
        source := by
          have source := flows.source
          simp at source ⊢
          exact source
        past := by simp [Dispatcher.past] }
    · left
      simp only [weight, Generator.weight, Dispatcher.weight, foldr_cons]
      omega
  · exact absurd drains (flows.not_draining position)

theorem Flows.output (moved : s.next workers .output = some s') : Onward workers jobs s s' := by
  obtain ⟨v, state, sending, opened, caller, who, rfl⟩ := next_output moved
  have follows := flows.reduce
  have closes := flows.closes
  rw [sending] at follows closes
  obtain ⟨seen, expects⟩ := follows
  have first := expects.outputs_eq_nil
  have waits := flows.caller
  rcases who with ⟨position, rfl⟩ | ⟨⟨val, err, position⟩, -⟩ | ⟨position, -⟩
  · constructor
    · exact { flows with
        caller := ⟨v, rfl, by rw [first]; rfl⟩
        reduce := ⟨seen, expects⟩
        closes := closes
        ended := by simp [Caller.hasReturned] }
    · left
      simp only [weight, sending, position, first, Caller.weight, Reducing.weight,
        nil_append, length_singleton]
      omega
  · rw [position, first] at waits
    obtain ⟨-, other, -, some⟩ := waits
    contradiction
  · rw [position] at waits
    exact waits.elim

end

/-- Every move but the end of the context keeps the invariant. -/
theorem Flows.next {move : Move} (noContext : move ≠ .context) (flows : Flows workers jobs s)
    (moved : s.next workers move = some s') : Onward workers jobs s s' := by
  cases move with
  | context => exact absurd rfl noContext
  | caller branch => exact flows.callerMove moved
  | generator => exact flows.generatorMove moved
  | dispatcher branch => exact flows.dispatcherMove moved
  | reducer => exact flows.reducerMove moved
  | mapper i => exact flows.mapperMove moved
  | item receiver => exact flows.item moved
  | output => exact flows.output moved
  | reducerPanic =>
    have follows := flows.reduce
    rw [next_reducerPanic moved] at follows
    exact follows.elim
  | mapperPanic i =>
    exact (flows.plain _ (mem_of_getElem? (next_mapperPanic moved))).elim

end MapReduce

end FastGoZero.Mr
