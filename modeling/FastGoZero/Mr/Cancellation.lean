import FastGoZero.Mr.MapReduce
import FastGoZero.Lib.Concurrent

/-!
# Cancelling

`cancel` and `finish` close `done` and then `output`, each through a `sync.Once`. The collector is
closed when no mapper is left that could write to it. For the output there is no such order: the
reducer looks at `done` and sends in two steps, and in between the output may be closed.
-/

namespace FastGoZero.Mr

open Lib Lib.Concurrent List Option

variable {T U V E : Type} {c : Common T U V E}

/-- The goroutines that are about to close `done`, and those about to close `output`. -/
def FinishStep.closing : Option FinishStep → Nat × Nat
  | some closeDone => (1, 0)
  | some closeOutput => (0, 1)
  | _ => (0, 0)

/-- The step of `finish` that a step of `cancel` makes. -/
def CancelStep.finishing : CancelStep E → Option FinishStep
  | finish step => some step
  | _ => none

/-- Which channels are closed, given how many goroutines are inside `closeOnce.Do`. -/
def Closes (c : Common T U V E) (closing : Nat × Nat) : Prop :=
  match c.closeOnce with
  | .idle => closing = (0, 0) ∧ c.doneClosed = false ∧ c.outputClosed = false
  | .running =>
    closing = (1, 0) ∧ c.doneClosed = false ∧ c.outputClosed = false ∨
      closing = (0, 1) ∧ c.doneClosed = true ∧ c.outputClosed = false
  | .done => closing = (0, 0) ∧ c.doneClosed = true ∧ c.outputClosed = true

theorem Closes.outputClosed {closing : Nat × Nat} (closes : Closes c closing)
    (done : c.closeOnce = .done) : c.outputClosed = true := by
  rw [Closes, done] at closes
  exact closes.2.2

theorem Closes.outputOpen {closing : Nat × Nat} (closes : Closes c closing)
    (running : c.stopped = false) : c.outputClosed = false := by
  rw [Common.stopped, Bool.or_eq_false_iff] at running
  cases once : c.closeOnce <;> simp_all [Closes]

namespace Common

variable {c c' : Common T U V E} {rest : Option FinishStep} {step : FinishStep} {others : Nat × Nat}

/-- What a step of `finish` does to the shared variables, given the others inside
`closeOnce.Do`. -/
structure Finishes (c c' : Common T U V E) (step rest : Option FinishStep)
    (others : Nat × Nat) : Prop where
  closes : Closes c' (FinishStep.closing rest + others)
  misuse : c'.misuse = c.misuse
  cancelled : c'.cancelOnce = .done → c'.closeOnce = .done
  wg : c'.wg = c.wg
  collectorClosed : c'.collectorClosed = c.collectorClosed
  outputs : c'.outputs = c.outputs
  output : c'.outputClosed = true ↔ c.outputClosed = true ∨ step = some .closeOutput

theorem finish_finishes (moved : c.finish step = some (c', rest))
    (closes : Closes c (FinishStep.closing (some step) + others))
    (cancelled : c.cancelOnce = .done → c.closeOnce = .done) :
    Finishes c c' (some step) rest others ∧ (rest = none → c'.closeOnce = .done) := by
  obtain ⟨beforeDone, beforeOutput⟩ := others
  revert moved
  fun_cases finish c step with
  | case1 once =>
    rintro ⟨⟩
    refine ⟨⟨?_, rfl, ?_, rfl, rfl, rfl, by simp⟩, by simp⟩
    · simpa [Closes, once, FinishStep.closing] using closes
    · simpa [once] using cancelled
  | case2 => rintro ⟨⟩
  | case3 once =>
    rintro ⟨⟩
    exact ⟨⟨closes, rfl, cancelled, rfl, rfl, rfl, by simp⟩, fun _ => once⟩
  | case4 | case5 =>
    rintro ⟨⟩
    cases once : c.closeOnce <;> simp [Closes, once, FinishStep.closing] at closes
    constructor
    · constructor <;> simp_all [Closes, FinishStep.closing, noteClose]
    · simp

/-- `cancel` returns only when the channels are closed. -/
theorem cancel_finishes {step : CancelStep E} {rest : Option (CancelStep E)}
    (moved : c.cancel step = some (c', rest))
    (closes : Closes c (FinishStep.closing step.finishing + others))
    (cancelled : c.cancelOnce = .done → c.closeOnce = .done) :
    Finishes c c' step.finishing (rest.bind CancelStep.finishing) others ∧
      (rest = none → c'.outputClosed = true) := by
  revert moved
  fun_cases cancel c step with
  | case1 =>
    rintro ⟨⟩
    exact ⟨⟨closes, rfl, by simp, rfl, rfl, rfl, by simp [CancelStep.finishing]⟩, by simp⟩
  | case2 | case6 => rintro ⟨⟩
  | case3 err once =>
    rintro ⟨⟩
    exact ⟨⟨closes, rfl, cancelled, rfl, rfl, rfl, by simp [CancelStep.finishing]⟩,
      fun _ => closes.outputClosed (cancelled once)⟩
  | case4 | case5 =>
    rintro ⟨⟩
    exact ⟨⟨closes, rfl, cancelled, rfl, rfl, rfl, by simp [CancelStep.finishing]⟩, by simp⟩
  | case7 step =>
    intro moved
    obtain ⟨⟨between, left⟩, finished, same⟩ := map_eq_some_iff.mp moved
    obtain ⟨finishes, done⟩ := finish_finishes finished closes cancelled
    cases left with
    | some step =>
      cases same
      exact ⟨finishes, by simp⟩
    | none =>
      cases same
      exact ⟨{ finishes with cancelled := fun _ => done rfl },
        fun _ => finishes.closes.outputClosed (done rfl)⟩

end Common

/-- The reducer may be in the state after so many writes. -/
inductive Reducer.Reaches (reducer : Reducer U V E) : reducer.State → Nat → Prop where
  | start : reducer.Reaches reducer.start 0
  | receive {state next writes} (v : Option U) (reached : reducer.Reaches state writes)
      (action : reducer.next state = .receive next) : reducer.Reaches (next v) writes
  | write {state v next writes} (reached : reducer.Reaches state writes)
      (action : reducer.next state = .write v next) : reducer.Reaches next (writes + 1)
  | cancel {state err next writes} (reached : reducer.Reaches state writes)
      (action : reducer.next state = .cancel err next) : reducer.Reaches next writes

/-- The reducer writes at most once, whatever it receives. -/
def Reducer.WritesOnce (reducer : Reducer U V E) : Prop :=
  ∀ state writes, reducer.Reaches state writes → writes ≤ 1

namespace Caller

def finishing : Caller V E → Option FinishStep
  | cancelling step => step.finishing
  | _ => none

/-- The caller does not receive from the output any more, unless to see it closed. -/
def answered : Caller V E → Bool
  | load _ | deferred _ _ | returned _ _ => true
  | _ => false

def panics : Caller V E → Bool
  | drainOutput => true
  | panicked _ => true
  | _ => false

end Caller

namespace Mapper

def finishing : Mapper U E → Option FinishStep
  | cancelling step _ => step.finishing
  | _ => none

/-- The mapper has not called `wg.Done`. -/
def active : Mapper U E → Nat
  | release => 0
  | exited => 0
  | _ => 1

def panics : Mapper U E → Bool
  | failed | panicWrite | panicSend => true
  | _ => false

end Mapper

namespace Dispatcher

def adding : Dispatcher T U E → Nat
  | start _ => 1
  | _ => 0

def waited : Dispatcher T U E → Bool
  | closeCollector | drainSource | exited => true
  | _ => false

def closed : Dispatcher T U E → Bool
  | drainSource => true
  | exited => true
  | _ => false

end Dispatcher

namespace Reducing

variable {State : Type}

def finishing : Reducing State V E → Option FinishStep
  | cancelling step _ => step.finishing
  | finish step => some step
  | _ => none

def panics : Reducing State V E → Bool
  | drain panicked => panicked
  | panicWrite => true
  | panicSend => true
  | _ => false

def sends : Reducing State V E → Bool
  | send _ _ => true
  | _ => false

/-- The state of the reducer while it runs. -/
def state : Reducing State V E → Option State
  | run state | send _ state | cancelling _ state => some state
  | _ => none

end Reducing

namespace MapReduce

variable {reducer : Reducer U V E} {workers : Nat} (s : MapReduce T reducer)

/-- The goroutines inside `closeOnce.Do`. -/
def closing : Nat × Nat :=
  FinishStep.closing s.caller.finishing + FinishStep.closing s.reduce.finishing +
    total (fun m : Mapper U E => FinishStep.closing m.finishing) (s.mappers : Multiset (Mapper U E))

structure Safe (s : MapReduce T reducer) : Prop where
  misuse : s.common.misuse = []
  closes : Closes s.common s.closing
  cancelled : s.common.cancelOnce = .done → s.common.closeOnce = .done
  wg : s.common.wg = total Mapper.active (s.mappers : Multiset (Mapper U E)) + s.dispatcher.adding
  waited : s.dispatcher.waited = true → s.common.wg = 0
  collector : s.common.collectorClosed = s.dispatcher.closed
  mappers : ∀ m ∈ s.mappers, m.panics = false
  reduce : s.reduce.panics = false
  caller : s.caller.panics = false
  sends : s.reduce.sends = true → s.common.outputClosed = false
  writes : ∀ state ∈ s.reduce.state, ∃ writes, reducer.Reaches state writes ∧
    s.common.outputs.length + s.reduce.sends.toNat ≤ writes
  answered : s.caller.answered = true → s.common.outputClosed = true ∨ s.common.outputs ≠ []

/-- The step of `finish` that a move makes. -/
def finishing : Move → Option FinishStep
  | .caller _ => s.caller.finishing
  | .reducer => s.reduce.finishing
  | .mapper i => s.mappers[i]?.bind Mapper.finishing
  | _ => none

/-- The output is not closed while the reducer is between the check and the send of a write. -/
def ClosesBetween (move : Move) : Prop :=
  s.finishing move = some .closeOutput → s.reduce.sends = false

instance (s : MapReduce T reducer) (move : Move) : Decidable (s.ClosesBetween move) :=
  inferInstanceAs (Decidable (s.finishing move = some .closeOutput → s.reduce.sends = false))

theorem Safe.start (jobs : List (Job T U E)) : Safe (start reducer jobs) where
  misuse := rfl
  closes := ⟨rfl, rfl, rfl⟩
  cancelled := by simp [MapReduce.start]
  wg := rfl
  waited := by simp [MapReduce.start, Dispatcher.waited]
  collector := rfl
  mappers := by simp [MapReduce.start]
  reduce := rfl
  caller := rfl
  sends := by simp [MapReduce.start, Reducing.sends]
  writes := by
    rintro _ ⟨⟩
    exact ⟨0, .start, Nat.zero_le _⟩
  answered := by simp [MapReduce.start, Caller.answered]

variable {s s' : MapReduce T reducer} {c' : Common T U V E} {i : Nat} {branch : Branch}

theorem Safe.context (safe : Safe s) (moved : s.next workers .context = some s') : Safe s' := by
  simp only [next, ite_none_left_eq_some, some.injEq] at moved
  obtain ⟨-, rfl⟩ := moved
  exact { safe with }

theorem Safe.generator (safe : Safe s) (moved : s.next workers .generator = some s') : Safe s' := by
  obtain ⟨-, rfl⟩ := next_generator moved
  exact { safe with }

/-- Who closes the output finds no reducer at its send. -/
theorem Safe.sends_finishes {step rest : Option FinishStep} {others : Nat × Nat} (safe : Safe s)
    (finishes : Common.Finishes s.common c' step rest others)
    (between : step = some .closeOutput → s.reduce.sends = false) :
    s.reduce.sends = true → c'.outputClosed = false := by
  intro sends
  rw [← Bool.not_eq_true, finishes.output]
  rintro (closed | closer)
  · rw [safe.sends sends] at closed
    contradiction
  · rw [between closer] at sends
    contradiction

/-- What is left to show after a step of `finish`. -/
theorem Safe.finishes {step rest : Option FinishStep} {others : Nat × Nat} (safe : Safe s)
    (finishes : Common.Finishes s.common s'.common step rest others)
    (same : s'.dispatcher = s.dispatcher) (closing : s'.closing = FinishStep.closing rest + others)
    (active : total Mapper.active (s'.mappers : Multiset (Mapper U E)) =
      total Mapper.active (s.mappers : Multiset (Mapper U E)))
    (mappers : ∀ m ∈ s'.mappers, m.panics = false) (reduce : s'.reduce.panics = false)
    (caller : s'.caller.panics = false)
    (sends : s'.reduce.sends = true → s'.common.outputClosed = false)
    (writes : ∀ state ∈ s'.reduce.state, ∃ writes, reducer.Reaches state writes ∧
      s.common.outputs.length + s'.reduce.sends.toNat ≤ writes)
    (answered : s'.caller.answered = true →
      s.caller.answered = true ∨ s'.common.outputClosed = true) : Safe s' where
  misuse := finishes.misuse.trans safe.misuse
  closes := closing ▸ finishes.closes
  cancelled := finishes.cancelled
  wg := by rw [finishes.wg, active, same, safe.wg]
  waited := by
    rw [same, finishes.wg]
    exact safe.waited
  collector := by rw [finishes.collectorClosed, same, safe.collector]
  mappers := mappers
  reduce := reduce
  caller := caller
  sends := sends
  writes := by
    rwa [finishes.outputs]
  answered := by
    intro done
    rcases answered done with before | closed
    · rw [finishes.outputs, finishes.output]
      exact (safe.answered before).imp_left Or.inl
    · exact Or.inl closed

theorem Safe.callerMove (between : s.ClosesBetween (.caller branch)) (safe : Safe s)
    (moved : s.next workers (.caller branch) = some s') : Safe s' := by
  obtain ⟨common, caller, acted, rfl⟩ := next_caller moved
  obtain ⟨c, position, generator, dispatcher, reduce, mappers⟩ := s
  revert acted
  fun_cases Caller.next c position branch with
  | case1 =>
    rintro ⟨⟩
    exact { safe with caller := rfl }
  | case3 closed =>
    rintro ⟨⟩
    exact { safe with caller := rfl, answered := fun _ => Or.inl closed }
  | case5 step =>
    intro acted
    obtain ⟨⟨after, rest⟩, cancelled, ⟨⟩⟩ := map_eq_some_iff.mp acted
    have closes := safe.closes
    rw [closing, add_assoc] at closes
    obtain ⟨finishes, returned⟩ := Common.cancel_finishes cancelled closes safe.cancelled
    have sends := safe.sends_finishes finishes between
    refine safe.finishes finishes rfl ?_ rfl safe.mappers safe.reduce ?_ sends safe.writes ?_
    · cases rest <;> exact add_assoc ..
    · cases rest <;> rfl
    · cases rest with
      | none => exact fun _ => Or.inr (returned rfl)
      | some step => simp [Caller.answered]
  | case6 received =>
    rintro ⟨⟩
    have answered := safe.answered rfl
    cases common.retErr <;> cases received <;>
      exact { safe with caller := rfl, answered := fun _ => answered }
  | case7 =>
    rintro ⟨⟩
    exact { safe with caller := rfl, answered := fun _ => safe.answered rfl }
  | case9 => exact absurd safe.caller (by simp [Caller.panics])
  | _ => rintro ⟨⟩

theorem Safe.dispatcherMove (safe : Safe s) (moved : s.next workers (.dispatcher branch) = some s')
    : Safe s' := by
  obtain ⟨common, dispatcher, started, acts, rfl⟩ := next_dispatcher moved
  obtain ⟨c, caller, generator, position, reduce, mappers⟩ := s
  by_cases starts : ∃ job, position = .start job
  · obtain ⟨job, rfl⟩ := starts
    cases acts
    -- the mapper that is started takes the place that was added to the wait group
    exact { safe with
      closes := by
        rw [closing, total_concat]
        exact safe.closes
      wg := by
        rw [total_concat]
        exact safe.wg
      waited := by simp [Dispatcher.waited]
      mappers := forall_mem_append.mpr ⟨safe.mappers, forall_mem_singleton.mpr rfl⟩ }
  · obtain rfl := acts.started_eq_nil fun job same => starts ⟨job, same⟩
    rw [append_nil]
    cases acts with
    | goesOn | fails | context | done | acquires | ends | givesBack => exact { safe with }
    | adds =>
      exact { safe with
        wg := congrArg (· + 1) safe.wg
        waited := by simp [Dispatcher.waited] }
    | waits zero => exact { safe with waited := fun _ => zero }
    | closes =>
      have opened : c.collectorClosed = false := safe.collector
      exact { safe with
        misuse := by simpa [Common.noteClose, opened] using safe.misuse
        collector := rfl
        waited := fun _ => safe.waited rfl }
    | exits => exact { safe with waited := fun _ => safe.waited rfl }

/-- A mapper that still runs finds the collector open. -/
theorem collector_open_of_active
    (wg : s.common.wg =
      total Mapper.active (s.mappers : Multiset (Mapper U E)) + s.dispatcher.adding)
    (waited : s.dispatcher.waited = true → s.common.wg = 0)
    (collector : s.common.collectorClosed = s.dispatcher.closed) {m : Mapper U E}
    (mem : m ∈ s.mappers) (active : m.active = 1) : s.common.collectorClosed = false := by
  rw [collector, ← Bool.not_eq_true]
  intro closed
  have ended : s.dispatcher.waited = true := by
    cases position : s.dispatcher <;> simp_all [Dispatcher.closed, Dispatcher.waited]
  have none := waited ended
  have some := le_total Mapper.active (Multiset.mem_coe.mpr mem)
  rw [wg] at none
  omega

/-- A mapper goes on, and may leave the wait group. -/
theorem Safe.mapperGoesOn {mapper : Mapper U E} (safe : Safe s)
    (found : s.mappers[i]? = some mapper) (after : Mapper U E)
    (active : after.active ≤ mapper.active)
    (idle : FinishStep.closing after.finishing = FinishStep.closing mapper.finishing)
    (quiet : after.panics = false) :
    Safe { s with
      common := { s.common with wg := s.common.wg - (mapper.active - after.active) }
      mappers := s.mappers.set i after } := by
  obtain ⟨others, whole, replaced⟩ := crowd_set found
  have wg := safe.wg
  rw [whole, total_cons] at wg
  exact { safe with
    closes := by
      rw [closing, total_set found _ idle]
      exact safe.closes
    wg := by
      rw [replaced, total_cons]
      dsimp only
      omega
    waited := fun waited => Nat.sub_eq_zero_of_le ((safe.waited waited).trans_le (Nat.zero_le _))
    mappers := forall_mem_set safe.mappers quiet }

theorem Safe.mapperMove (between : s.ClosesBetween (.mapper i)) (safe : Safe s)
    (moved : s.next workers (.mapper i) = some s') : Safe s' := by
  obtain ⟨mapper, common, after, found, acted, rfl⟩ := next_mapper moved
  have mem := mem_of_getElem? found
  revert acted
  fun_cases Mapper.next workers s.common mapper with
  | case1 =>
    rintro ⟨⟩
    exact safe.mapperGoesOn found .done le_rfl rfl rfl
  | case2 v rest =>
    rintro ⟨⟩
    split
    · exact safe.mapperGoesOn found (.run rest) le_rfl rfl rfl
    · exact safe.mapperGoesOn found (.send v rest) le_rfl rfl rfl
  | case3 err rest =>
    rintro ⟨⟩
    exact safe.mapperGoesOn found (.cancelling _ rest) le_rfl rfl rfl
  | case4 v rest closed =>
    have opened := collector_open_of_active safe.wg safe.waited safe.collector mem rfl
    exact absurd closed (ne_true_of_eq_false opened)
  | case5 v rest =>
    rintro ⟨⟩
    exact { safe.mapperGoesOn found (.run rest) le_rfl rfl rfl with }
  | case7 step rest =>
    intro acted
    obtain ⟨⟨common, left⟩, cancelled, ⟨⟩⟩ := map_eq_some_iff.mp acted
    obtain ⟨others, whole, replaced⟩ := crowd_set found
    have closes := safe.closes
    rw [closing, whole, total_cons, add_left_comm] at closes
    obtain ⟨finishes, -⟩ := Common.cancel_finishes cancelled closes safe.cancelled
    have sends := safe.sends_finishes finishes fun closer =>
      between (by rw [finishing, found]; exact closer)
    refine safe.finishes finishes rfl ?_ ?_ (forall_mem_set safe.mappers ?_) safe.reduce safe.caller
      sends safe.writes Or.inl
    · rw [closing, replaced, total_cons, add_left_comm]
      cases left <;> rfl
    · rw [whole, replaced, total_cons, total_cons]
      cases left <;> rfl
    · cases left <;> rfl
  | case8 | case9 | case10 => exact absurd (safe.mappers _ mem) (by simp [Mapper.panics])
  | case12 =>
    rintro ⟨⟩
    exact safe.mapperGoesOn found .release zero_le_one rfl rfl
  | case13 =>
    rintro ⟨⟩
    exact { safe.mapperGoesOn found .exited le_rfl rfl rfl with }
  | _ => rintro ⟨⟩

/-- The reducer takes a step of `finish`, inside `cancel` or at its end. -/
theorem Safe.reducerFinishes {after : Reducing reducer.State V E} (safe : Safe s)
    (finishes : Common.Finishes s.common c' s.reduce.finishing after.finishing
      (FinishStep.closing s.caller.finishing +
        total (fun m : Mapper U E => FinishStep.closing m.finishing) s.mappers))
    (quiet : after.panics = false) (still : after.sends = false)
    (writes : ∀ state ∈ after.state, ∃ writes, reducer.Reaches state writes ∧
      s.common.outputs.length ≤ writes) : Safe { s with common := c', reduce := after } := by
  refine safe.finishes finishes rfl ?_ rfl safe.mappers quiet safe.caller (by simp [still]) ?_ Or.inl
  · rw [closing, add_right_comm, add_comm (_ + _)]
  · rwa [still]

theorem Safe.reducerMove (safe : Safe s)
    (moved : s.next workers .reducer = some s') : Safe s' := by
  obtain ⟨common, after, acted, rfl⟩ := next_reducer moved
  obtain ⟨c, caller, generator, dispatcher, position, mappers⟩ := s
  revert acted
  fun_cases Reducing.next reducer c position with
  | case1 state next action v rest =>
    rintro ⟨⟩
    obtain ⟨writes, reached, most⟩ := safe.writes state rfl
    exact { safe with
      writes := by
        rintro _ ⟨⟩
        exact ⟨writes, .receive (some v) reached action, most⟩ }
  | case2 state next action =>
    rintro ⟨⟩
    obtain ⟨writes, reached, most⟩ := safe.writes state rfl
    exact { safe with
      writes := by
        rintro _ ⟨⟩
        exact ⟨writes, .receive none reached action, most⟩ }
  | case4 state v next action =>
    rintro ⟨⟩
    obtain ⟨writes, reached, most⟩ := safe.writes state rfl
    have wrote := reached.write action
    cases stopped : common.stopped with
    | true =>
      exact { safe with
        writes := by
          rintro _ ⟨⟩
          exact ⟨_, wrote, Nat.le_succ_of_le most⟩ }
    | false =>
      exact { safe with
        sends := fun _ => safe.closes.outputOpen stopped
        writes := by
          rintro _ ⟨⟩
          exact ⟨_, wrote, Nat.succ_le_succ most⟩ }
  | case5 state err next action =>
    rintro ⟨⟩
    obtain ⟨writes, reached, most⟩ := safe.writes state rfl
    exact { safe with
      writes := by
        rintro _ ⟨⟩
        exact ⟨_, reached.cancel action, most⟩ }
  | case6 =>
    rintro ⟨⟩
    exact { safe with writes := by simp [Reducing.state] }
  | case7 v state closed => exact absurd closed (ne_true_of_eq_false (safe.sends rfl))
  | case9 step state =>
    intro acted
    obtain ⟨⟨common, left⟩, cancelled, ⟨⟩⟩ := map_eq_some_iff.mp acted
    have closes := safe.closes
    rw [closing, add_right_comm, add_comm (_ + _)] at closes
    obtain ⟨finishes, -⟩ := Common.cancel_finishes cancelled closes safe.cancelled
    have writes := safe.writes state rfl
    cases left with
    | none | some step =>
      refine safe.reducerFinishes finishes rfl rfl ?_
      rintro _ ⟨⟩
      exact writes
  | case10 =>
    rintro ⟨⟩
    exact { safe with }
  | case11 panicked =>
    obtain rfl : panicked = false := safe.reduce
    rintro ⟨⟩
    exact { safe with reduce := rfl }
  | case13 | case14 | case15 => exact absurd safe.reduce (by simp [Reducing.panics])
  | case16 step =>
    intro acted
    obtain ⟨⟨common, left⟩, finished, ⟨⟩⟩ := map_eq_some_iff.mp acted
    have closes := safe.closes
    rw [closing, add_right_comm, add_comm (_ + _)] at closes
    have finishes := (Common.finish_finishes finished closes safe.cancelled).1
    cases left with
    | none | some step => exact safe.reducerFinishes finishes rfl rfl (by simp [Reducing.state])
  | _ => rintro ⟨⟩

theorem Safe.item {receiver : Receiver} (safe : Safe s)
    (moved : s.next workers (.item receiver) = some s') : Safe s' := by
  obtain ⟨job, jobs, -, ⟨waits, rfl⟩ | ⟨-, rfl⟩⟩ := next_item moved
  · exact { safe with
      wg := by simpa [waits, Dispatcher.adding] using safe.wg
      waited := by simp [Dispatcher.waited]
      collector := by simpa [waits, Dispatcher.closed] using safe.collector }
  · exact { safe with }

theorem Safe.output (once : reducer.WritesOnce) (safe : Safe s)
    (moved : s.next workers .output = some s') : Safe s' := by
  obtain ⟨v, state, sending, opened, caller, who, rfl⟩ := next_output moved
  obtain ⟨writes, reached, most⟩ := safe.writes state (by rw [sending]; rfl)
  have sends : s.reduce.sends.toNat = 1 := by rw [sending]; rfl
  have first : s.common.outputs.length = 0 := by
    have atMost := once state writes reached
    omega
  have loads : s.caller = .select ∧ caller = .load (some v) := by
    rcases who with select | ⟨⟨val, err, position⟩, -⟩ | ⟨position, -⟩
    · exact select
    · -- the caller has a value already, or the output is closed
      have answered := safe.answered (by rw [position]; rfl)
      rw [opened, length_eq_zero_iff.mp first] at answered
      simp at answered
    · exact absurd safe.caller (by simp [position, Caller.panics])
  obtain ⟨position, rfl⟩ := loads
  exact { safe with
    closes := by
      have closes := safe.closes
      rwa [closing, sending, position] at closes
    reduce := rfl
    caller := rfl
    sends := by simp [Reducing.sends]
    writes := by
      rintro _ ⟨⟩
      refine ⟨writes, reached, ?_⟩
      rw [length_append]
      rw [sends] at most
      simpa [Reducing.sends] using most
    answered := fun _ => Or.inr (by simp) }

/-- Every move that does not close the output under a write keeps the invariant. -/
theorem Safe.next (once : reducer.WritesOnce) {move : Move} (between : s.ClosesBetween move)
    (safe : Safe s) (moved : s.next workers move = some s') : Safe s' := by
  cases move with
  | context => exact safe.context moved
  | caller branch => exact safe.callerMove between moved
  | generator => exact safe.generator moved
  | dispatcher branch => exact safe.dispatcherMove moved
  | reducer => exact safe.reducerMove moved
  | mapper i => exact safe.mapperMove between moved
  | item receiver => exact safe.item moved
  | output => exact safe.output once moved
  | reducerPanic =>
    have panics := next_reducerPanic moved
    exact absurd safe.reduce (by simp [panics, Reducing.panics])
  | mapperPanic i =>
    have panics := next_mapperPanic moved
    exact absurd (safe.mappers _ (mem_of_getElem? panics)) (by simp [Mapper.panics])

/-- Where the output is never closed under a write of the reducer, no channel is misused and
`MapReduce` does not panic. -/
theorem never_panics (reducer : Reducer U V E) (once : reducer.WritesOnce) (workers : Nat)
    (jobs : List (Job T U E)) (moves : List Move)
    (between : Runs.Meets (step workers) ClosesBetween (start reducer jobs) moves) :
    let s := (Runs.run (step workers) (start reducer jobs) moves).1
    s.common.misuse = [] ∧ ∀ reason, s.caller ≠ .panicked reason := by
  intro s
  have safe : Safe s := by
    refine Runs.run_invariant (step workers) ClosesBetween Safe ?_ _ moves (Safe.start jobs) between
    intro s move safe between
    cases moved : s.next workers move with
    | none =>
      rwa [step, moved]
    | some s' =>
      rw [step, moved]
      exact safe.next once between moved
  refine ⟨safe.misuse, ?_⟩
  intro reason panicked
  have calm := safe.caller
  rw [panicked] at calm
  contradiction

/-- A reducer that writes at once and receives nothing. -/
def writesFirst : Reducer Unit Unit Unit where
  State := Bool
  start := false
  next
    | false => .write () true
    | true => .stop

theorem writesFirst_once : writesFirst.WritesOnce := by
  have count : ∀ state writes, writesFirst.Reaches state writes → writes = Bool.toNat state := by
    intro state writes reached
    induction reached with
    | start => rfl
    | @receive state next writes v reached action =>
      cases state <;> simp [writesFirst] at action
    | @write state v next writes reached action ih =>
      cases state with
      | false =>
        cases action
        exact congrArg (· + 1) ih
      | true => simp [writesFirst] at action
    | @cancel state err next writes reached action =>
      cases state <;> simp [writesFirst] at action
  intro state writes reached
  rw [count state writes reached]
  exact Bool.toNat_le _

/-- The moves up to the start of a mapper, and those of a mapper that cancels. -/
def startMapper : List Move :=
  [.dispatcher .ready, .dispatcher .ready, .item .dispatcher, .dispatcher .ready,
    .dispatcher .ready]

def cancels : List Move :=
  [.mapper 0, .mapper 0, .mapper 0, .generator] ++ List.replicate 7 (.mapper 0)

/-- The mapper cancels while the reducer is between its check and its send. -/
def closesUnderWrite : List Move :=
  startMapper ++ [.reducer] ++ cancels ++
    [.dispatcher .ready, .dispatcher .done, .dispatcher .ready, .dispatcher .ready, .reducer,
      .reducer, .reducer, .reducerPanic, .caller .ready]

theorem mapReduce_panics :
    writesFirst.WritesOnce ∧
      (Runs.run (step 1) (start writesFirst [⟨(), [.cancel none]⟩]) closesUnderWrite).1.caller =
        .panicked .sendOnClosed :=
  ⟨writesFirst_once, by decide +kernel⟩

/-- The caller receives the value before the mapper cancels. -/
def closesAfterWrite : List Move :=
  startMapper ++ [.reducer, .output] ++ cancels ++ [.caller .ready, .caller .ready]

theorem never_panics_afterWrite :
    let s := (Runs.run (step 1) (start writesFirst [⟨(), [.cancel none]⟩]) closesAfterWrite).1
    s.common.outputClosed = true ∧ s.common.misuse = [] ∧ ∀ reason, s.caller ≠ .panicked reason :=
  ⟨by decide +kernel, never_panics writesFirst writesFirst_once 1 _ closesAfterWrite
    (by decide +kernel)⟩

end MapReduce

end FastGoZero.Mr
