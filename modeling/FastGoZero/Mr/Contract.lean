import FastGoZero.Mr.Pipeline
import Mathlib.Order.WellFounded

/-!
# The contract of MapReduce

Without cancellation every run ends, because each move uses up work, and a run that cannot go on
has returned the value of the reducer to the caller. A receive from the closed and empty collector
uses up nothing; the reducer makes only finitely many of them.
-/

namespace FastGoZero.Mr

open Lib Lib.Concurrent

variable {T U V E : Type}

namespace MapReduce

variable {reducer : Reducer U V E} {workers : Nat} {jobs : List (Job T U E)}
  {s s' : MapReduce T reducer}

/-- A move other than the end of the context leads from the second state to the first. -/
def After (workers : Nat) (s' s : MapReduce T reducer) : Prop :=
  ∃ move, move ≠ .context ∧ s.next workers move = some s'

theorem Flows.acc_of_less (flows : Flows workers jobs s)
    (less : ∀ s' : MapReduce T reducer, Flows workers jobs s' → s'.weight < s.weight →
      Acc (After workers) s')
    (polls : ∀ s' : MapReduce T reducer, Polls s s' → Flows workers jobs s' →
      Acc (After workers) s') : Acc (After workers) s := by
  constructor
  rintro s' ⟨move, noContext, moved⟩
  obtain ⟨after, smaller | polled⟩ := flows.next noContext moved
  · exact less s' after smaller
  · exact polls s' polled after

theorem Flows.acc_of_run {state : reducer.State} {seen : Bool} {outs : List V}
    (serves : reducer.Serves state seen [] outs) (position : s.reduce = .run state)
    (flows : Flows workers jobs s)
    (less : ∀ s' : MapReduce T reducer, Flows workers jobs s' → s'.weight < s.weight →
      Acc (After workers) s') : Acc (After workers) s := by
  generalize values : [] = nothing at serves
  induction serves generalizing s with
  | stop action | write action =>
    apply flows.acc_of_less less
    rintro s' ⟨-, polled, next, run, receive, -⟩
    cases position.symm.trans run
    cases action.symm.trans receive
  | receive => contradiction
  | close action rest ih =>
    apply flows.acc_of_less less
    rintro s' ⟨-, polled, next, run, receive, rfl⟩ after
    cases position.symm.trans run
    cases action.symm.trans receive
    refine ih rfl after ?_ rfl
    intro s' flows smaller
    refine less s' flows ?_
    simpa [weight, position, Reducing.weight] using smaller

/-- From every state that is reached, every run ends. -/
theorem Flows.acc (flows : Flows workers jobs s) : Acc (After workers) s := by
  generalize size : s.weight = n
  induction n using Nat.strong_induction_on generalizing s with
  | _ n ih =>
    have less : ∀ s' : MapReduce T reducer, Flows workers jobs s' → s'.weight < s.weight →
        Acc (After workers) s' := by
      intro s' flows smaller
      exact ih s'.weight (size ▸ smaller) flows rfl
    by_cases runs : ∃ state, s.reduce = .run state
    · obtain ⟨state, position⟩ := runs
      have follows := flows.reduce
      rw [position] at follows
      obtain ⟨seen, expects⟩ := follows
      obtain ⟨outs, serves, -⟩ := expects.serves [] (by simp)
      exact flows.acc_of_run serves position less
    · apply flows.acc_of_less less
      rintro s' ⟨-, state, -, run, -⟩
      exact absurd ⟨state, run⟩ runs

/-- No goroutine can move. -/
def Stuck (workers : Nat) (s : MapReduce T reducer) : Prop :=
  ∀ move, move ≠ .context → s.next workers move = none

section

variable (flows : Flows workers jobs s)

include flows

section

variable (stuck : s.Stuck workers)

include stuck

/-- A mapper that cannot move has exited, or waits for a place in the collector. -/
theorem Flows.stuck_mapper {m : Mapper U E} (mem : m ∈ s.mappers) :
    m = .exited ∨ workers ≤ s.common.collector.length := by
  obtain ⟨i, found⟩ := List.mem_iff_getElem?.mp mem
  have halted : m.next workers s.common = none := by
    have none := stuck (.mapper i) (by simp)
    rw [MapReduce.next, found] at none
    simpa using none
  have plain := flows.plain m mem
  revert halted
  fun_cases Mapper.next workers s.common m with
  | case6 v rest _ full => exact fun _ => Or.inr (Nat.le_of_not_lt full)
  | case7 | case11 => exact plain.elim
  | case14 => exact fun _ => Or.inl rfl
  | _ => rintro ⟨⟩

/-- The dispatcher goes on until it has closed the collector. -/
theorem Flows.stuck_dispatcher (some : 1 ≤ workers) (exited : ∀ m ∈ s.mappers, m = .exited) :
    s.common.collectorClosed = true := by
  have halted : ∀ branch, s.dispatcher.next workers s.common branch = none := by
    intro branch
    simpa [MapReduce.next] using stuck (.dispatcher branch) (by simp)
  have ready := halted .ready
  have none {count : Mapper U E → Nat} (zero : count .exited = 0) :
      total count (s.mappers : Multiset (Mapper U E)) = 0 := by
    rw [total_eq_zero_iff]
    intro m mem
    rw [exited m mem, zero]
  rw [flows.collector]
  cases position : s.dispatcher with
  | check | closeCollector => simp [position, Dispatcher.next] at ready
  | select =>
    have pool : s.common.pool = 0 := by
      rw [flows.pool, none rfl, position]
      rfl
    simp [position, Dispatcher.next] at ready
    omega
  | receive =>
    simp [position, Dispatcher.next] at ready
    have source := flows.source
    rw [ready] at source
    cases generates : s.generator with
    | exited => simp [generates] at source
    | generate jobs =>
      cases jobs with
      | nil =>
        have none := stuck .generator (by simp)
        simp [MapReduce.next, generates, Generator.next] at none
      | cons job rest =>
        have none := stuck (.item .dispatcher) (by simp)
        simp [MapReduce.next, generates, receiveItem, position] at none
  | giveBack | addWg job | start job => simp [position, Dispatcher.next] at ready
  | wait =>
    have idle : s.common.wg = 0 := by
      rw [flows.wg, none rfl, position]
      rfl
    simp [position, Dispatcher.next, idle] at ready
  | drainSource | exited => rfl

theorem Flows.stuck_reducer (some : 1 ≤ workers) : s.reduce = .exited := by
  have halted : s.reduce.next reducer s.common = none := by
    simpa [MapReduce.next] using stuck .reducer (by simp)
  have follows := flows.reduce
  have closes := flows.closes
  cases position : s.reduce with
  | run state =>
    rw [position] at follows
    obtain ⟨seen, expects⟩ := follows
    cases action : reducer.next state with
    | receive next =>
      cases buffer : s.common.collector with
      | cons v rest => simp [position, Reducing.next, action, buffer] at halted
      | nil =>
        -- nobody waits for a place in the collector, so the mappers have exited
        have closed : s.common.collectorClosed = true := by
          refine flows.stuck_dispatcher stuck some ?_
          intro m mem
          refine (flows.stuck_mapper stuck mem).resolve_right ?_
          rw [buffer, List.length_nil]
          omega
        simp [position, Reducing.next, action, buffer, closed] at halted
    | write v next => simp [position, Reducing.next, action] at halted
    | cancel err next => exact absurd action expects.not_cancel
    | stop => simp [position, Reducing.next, action] at halted
  | send v state =>
    simp only [position, Reducing.closes, Prod.mk.injEq] at closes
    have none := stuck .output (by simp)
    simp [MapReduce.next, position, closes] at none
    have waits := flows.caller
    cases caller : s.caller with
    | select | deferred | drainOutput => simp [receiveOutput, caller] at none
    | load received =>
      have none := stuck (.caller .ready) (by simp)
      simp [MapReduce.next, caller, Caller.next] at none
    | returned val err =>
      have exited := flows.ended (by rw [caller]; rfl)
      rw [position] at exited
      contradiction
    | cancelling step => exact (caller ▸ waits : Caller.Follows _ (.cancelling step)).elim
    | panicked reason => exact (caller ▸ waits : Caller.Follows _ (.panicked reason)).elim
  | drain panicked =>
    rw [position] at follows
    obtain ⟨closed, empty⟩ := Bool.and_eq_true_iff.mp follows.2.drained
    simp [position, Reducing.next, List.isEmpty_iff.mp empty, closed] at halted
  | finish step =>
    rw [position] at closes
    cases step <;> simp [Reducing.closes] at closes <;>
      simp [position, Reducing.next, Common.finish, closes] at halted
  | exited => rfl
  | cancelling step state | panicWrite | panicSend =>
    rw [position] at follows
    exact follows.elim

theorem Flows.stuck_caller (some : 1 ≤ workers) : s.caller.hasReturned = true := by
  have closes := flows.closes
  simp only [flows.stuck_reducer stuck some, Reducing.closes, Prod.mk.injEq] at closes
  have halted : s.caller.next s.common .ready = none := by
    simpa [MapReduce.next] using stuck (.caller .ready) (by simp)
  have follows := flows.caller
  cases position : s.caller with
  | select | deferred => simp [position, Caller.next, closes] at halted
  | load received => simp [position, Caller.next] at halted
  | returned val err => rfl
  | cancelling step | drainOutput | panicked reason =>
    rw [position] at follows
    exact follows.elim

end

end

/-- The reducer has received what the mappers wrote for all items, and its value is returned. -/
structure Fulfilled (jobs : List (Job T U E)) (s : MapReduce T reducer) : Prop where
  passed : s.common.passed = jobs.map Job.item
  written : s.common.written = allWrites jobs
  received : (s.common.received : Multiset U) = s.common.written
  value : ∃ v, s.common.outputs = [v] ∧
    reducer.Serves reducer.start false s.common.received [v] ∧
    s.caller = .returned (some v) none

theorem Flows.fulfilled (flows : Flows workers jobs s) (returned : s.caller.hasReturned = true) :
    Fulfilled jobs s := by
  have settled := flows.reduce
  rw [flows.ended returned] at settled
  obtain ⟨closed, empty⟩ := Bool.and_eq_true_iff.mp settled.drained
  have ended : s.dispatcher.past = true ∧ s.dispatcher.waited = true ∧ s.dispatcher.jobs = [] := by
    rw [flows.collector] at closed
    cases position : s.dispatcher <;>
      simp_all [Dispatcher.closed, Dispatcher.past, Dispatcher.waited, Dispatcher.jobs]
  obtain ⟨past, waited, none⟩ := ended
  have exited := flows.past past
  have items := flows.items
  have values := flows.values
  have received := flows.received
  have pending : total Mapper.pending (s.mappers : Multiset (Mapper U E)) = 0 := by
    have idle := flows.wg
    rw [flows.waited waited, eq_comm, Nat.add_eq_zero_iff, total_eq_zero_iff] at idle
    apply total_eq_zero
    intro m mem
    have inactive := idle.1 m mem
    cases m <;> simp_all [Mapper.active, Mapper.pending]
  rw [none, exited, Generator.jobs] at items values
  refine ⟨by simpa using items, ?_, ?_, ?_⟩
  · simpa [pending, allWrites] using values
  · rwa [List.isEmpty_iff.mp empty, Multiset.coe_nil, add_zero] at received
  · obtain ⟨v, outputs, serves⟩ := settled.wrote
    have follows := flows.caller
    cases position : s.caller with
    | returned val err =>
      rw [position, outputs] at follows
      obtain ⟨rfl, w, rfl, ⟨⟩⟩ := follows
      exact ⟨v, outputs, serves, rfl⟩
    | _ => simp [position, Caller.hasReturned] at returned

theorem Flows.running_le (flows : Flows workers jobs s) :
    total Mapper.running (s.mappers : Multiset (Mapper U E)) ≤ workers := by
  have least : total Mapper.running (s.mappers : Multiset (Mapper U E)) ≤
      total Mapper.slot (s.mappers : Multiset (Mapper U E)) := by
    apply total_le_total
    intro m _
    cases m <;> simp [Mapper.running, Mapper.slot]
  have pool := flows.pool
  have most := flows.poolMost
  omega

/-- Where the mappers only write and the reducer drains its pipe and writes one value, and the
context is never done: every run ends, and when it can go no further `MapReduce` has returned.
When it has, each item has been passed to the mapper once, the reducer has received what the
mappers wrote, and its value is returned without an error. No more mappers run than there are
workers. -/
theorem mapReduce_contract (reducer : Reducer U V E) (drains : reducer.Drains) (workers : Nat)
    (some : 1 ≤ workers) (jobs : List (Job T U E)) (plain : ∀ job ∈ jobs, job.Plain) :
    (¬ ∃ states : Nat → MapReduce T reducer, states 0 = start reducer jobs ∧
      ∀ n, After workers (states (n + 1)) (states n)) ∧
    ∀ moves, (∀ move ∈ moves, move ≠ .context) →
      let s := (Runs.run (step workers) (start reducer jobs) moves).1
      (s.Stuck workers → s.caller.hasReturned = true) ∧
      (s.caller.hasReturned = true → Fulfilled jobs s) ∧
      s.common.passed <+: jobs.map Job.item ∧
      total Mapper.running (s.mappers : Multiset (Mapper U E)) ≤ workers := by
  constructor
  · rintro ⟨states, starts, after⟩
    have ends : Acc (After workers) (states 0) := by
      rw [starts]
      exact (Flows.start plain drains).acc
    exact (acc_iff_isEmpty_descending_chain.mp ends).false ⟨states, rfl, after⟩
  · intro moves noContext s
    have flows : Flows workers jobs s := by
      refine Runs.run_invariant (step workers) (fun _ move => move ≠ .context)
        (Flows workers jobs) ?_ _ moves (Flows.start plain drains)
        (Runs.meets_of_forall _ _ _ _ noContext)
      intro s move flows noContext
      cases moved : s.next workers move with
      | none =>
        rwa [step, moved]
      | some s' =>
        rw [step, moved]
        exact (flows.next noContext moved).flows
    exact ⟨fun stuck => flows.stuck_caller stuck some, flows.fulfilled,
      ⟨_, flows.items⟩, flows.running_le⟩

/-- The reducer that adds up what it receives. -/
inductive Summing where
  | adding (sum : Nat)
  | writing (sum : Nat)
  | wrote
deriving DecidableEq

def Summing.receive (sum : Nat) : Option Nat → Summing
  | some n => adding (sum + n)
  | none => writing sum

def sums : Reducer Nat Nat Unit where
  State := Summing
  start := .adding 0
  next
    | .adding sum => .receive (Summing.receive sum)
    | .writing sum => .write sum .wrote
    | .wrote => .stop

theorem sums_drains : sums.Drains := by
  have adds : ∀ values sum, sums.Serves (.adding sum) false values [sum + values.sum] := by
    intro values
    induction values with
    | nil =>
      intro sum
      exact .close rfl (.write rfl (.stop rfl))
    | cons n values ih =>
      intro sum
      rw [List.sum_cons, ← Nat.add_assoc]
      exact .receive rfl (ih (sum + n))
  intro values
  exact ⟨_, adds values 0⟩

/-- One worker maps one item to two numbers, and they are added up. -/
def wholeRun : List Move :=
  [.dispatcher .ready, .dispatcher .ready, .item .dispatcher, .dispatcher .ready,
    .dispatcher .ready, .mapper 0, .mapper 0, .reducer, .mapper 0, .mapper 0, .mapper 0, .mapper 0,
    .mapper 0, .generator, .dispatcher .ready, .dispatcher .ready, .dispatcher .ready,
    .dispatcher .ready, .dispatcher .ready, .dispatcher .ready, .reducer, .reducer, .reducer,
    .output, .reducer, .reducer, .reducer, .reducer, .reducer, .caller .ready, .caller .ready]

theorem mapReduce_contract_sums :
    let s := (Runs.run (step 1) (start sums [⟨(), [.write 2, .write 3]⟩]) wholeRun).1
    s.caller = .returned (some 5) none ∧ Fulfilled [⟨(), [.write 2, .write 3]⟩] s :=
  ⟨by decide +kernel,
    ((mapReduce_contract sums sums_drains 1 le_rfl [⟨(), [.write 2, .write 3]⟩]
      (by simp [Job.Plain, MapAction.isWrite])).2 wholeRun (by decide)).2.1 (by decide +kernel)⟩

end MapReduce

end FastGoZero.Mr
