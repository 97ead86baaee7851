import Mathlib.Data.List.Basic

/-!
# Runs of an event-driven machine

A machine handles one event at a time, moves to its next state and emits a list
of outputs. A run handles a finite list of events and concatenates what they
emit. Invariants are proved for one step and carried to every run; a condition
on the steps of a run is checked in the state each step starts from.
-/

namespace FastGoZero.Lib.Runs

open List

universe u v w
variable {State : Type u} {Event : Type v} {Output : Type w}
variable (step : State → Event → State × List Output)

def run : State → List Event → State × List Output
  | state, [] => (state, [])
  | state, event :: rest =>
    ((run (step state event).1 rest).1, (step state event).2 ++ (run (step state event).1 rest).2)

/-- Each event meets the condition in the state it is handled in. -/
def Meets (condition : State → Event → Prop) : State → List Event → Prop
  | _, [] => True
  | state, event :: rest => condition state event ∧ Meets condition (step state event).1 rest

instance Meets.decidable (condition : State → Event → Prop)
    [∀ state event, Decidable (condition state event)] :
    ∀ state events, Decidable (Meets step condition state events)
  | _, [] => isTrue trivial
  | state, event :: rest =>
    have := Meets.decidable condition (step state event).1 rest
    inferInstanceAs (Decidable (condition state event ∧ _))

variable (state : State)

@[simp] theorem run_nil : run step state [] = (state, []) := rfl

theorem run_cons (event : Event) (rest : List Event) :
    run step state (event :: rest) =
      ((run step (step state event).1 rest).1,
        (step state event).2 ++ (run step (step state event).1 rest).2) := rfl

/-- A run splits at any point; the second part starts where the first ended. -/
theorem run_append (first second : List Event) :
    run step state (first ++ second) =
      ((run step (run step state first).1 second).1,
        (run step state first).2 ++ (run step (run step state first).1 second).2) := by
  induction first generalizing state with
  | nil => rfl
  | cons event rest ih =>
    simp only [cons_append, run_cons, ih, append_assoc]

variable (condition : State → Event → Prop)

theorem meets_append (first second : List Event) :
    Meets step condition state (first ++ second) ↔
      Meets step condition state first ∧
        Meets step condition (run step state first).1 second := by
  induction first generalizing state with
  | nil => simp [Meets]
  | cons event rest ih =>
    simp only [cons_append, Meets, ih, run_cons, and_assoc]

/-- A condition on events alone, met by every event of the list. -/
theorem meets_of_forall (condition : Event → Prop) (state : State) (events : List Event)
    (every : ∀ event ∈ events, condition event) : Meets step (fun _ => condition) state events := by
  induction events generalizing state with
  | nil => trivial
  | cons event rest ih =>
    exact ⟨every event mem_cons_self, ih _ fun other mem => every other (mem_cons_of_mem _ mem)⟩

/-- In a machine that emits at most one output a step, an output of a run comes from one of its
steps, and what stands before it from the steps before. -/
theorem exists_emits (single : ∀ state event, (step state event).2.length ≤ 1)
    (events : List Event) : ∀ (state : State) (front back : List Output) (output : Output),
    (run step state events).2 = front ++ output :: back →
    ∃ first event rest, events = first ++ event :: rest ∧ (run step state first).2 = front ∧
      (step (run step state first).1 event).2 = [output] := by
  induction events with
  | nil =>
    intro state front back output emitted
    simp at emitted
  | cons event events ih =>
    intro state front back output emitted
    rw [run_cons] at emitted
    have few := single state event
    cases out : (step state event).2 with
    | nil =>
      rw [out, nil_append] at emitted
      obtain ⟨first, next, rest, rfl, before, emits⟩ := ih _ _ _ _ emitted
      exact ⟨event :: first, next, rest, rfl, by rw [run_cons, out, before]; rfl, emits⟩
    | cons one others =>
      rw [out, length_cons] at few
      obtain rfl := eq_nil_of_length_eq_zero (Nat.le_zero.mp (Nat.le_of_succ_le_succ few))
      rw [out, singleton_append] at emitted
      cases front with
      | nil =>
        obtain ⟨rfl, _⟩ := cons.inj emitted
        exact ⟨[], event, events, rfl, rfl, out⟩
      | cons head front =>
        obtain ⟨rfl, later⟩ := cons.inj emitted
        obtain ⟨first, next, rest, rfl, before, emits⟩ := ih _ _ _ _ later
        exact ⟨event :: first, next, rest, rfl, by rw [run_cons, out, before]; rfl, emits⟩

variable (invariant : State → Prop)

/-- The invariant rule: what holds at the start and is kept by each step that
meets the condition holds at the end of the run. -/
theorem run_invariant
    (preserved : ∀ state event, invariant state → condition state event → invariant (step state event).1)
    (state : State) (events : List Event) (initial : invariant state)
    (met : Meets step condition state events) : invariant (run step state events).1 := by
  induction events generalizing state with
  | nil => exact initial
  | cons event rest ih =>
    exact ih _ (preserved state event initial met.1) met.2

/-- The invariant rule for a machine all of whose steps keep the invariant. -/
theorem run_invariant_always
    (preserved : ∀ state event, invariant state → invariant (step state event).1) (state : State)
    (events : List Event) (initial : invariant state) :
    invariant (run step state events).1 :=
  run_invariant step (fun _ _ => True) invariant (fun s e holds _ => preserved s e holds)
    state events initial (meets_of_forall step (fun _ => True) state events fun _ _ => trivial)

/-- The exact rule: where a step keeps the invariant precisely under the condition,
the invariant holds all along a run precisely when every step meets the condition. -/
theorem invariant_iff_meets
    (exact : ∀ state event, invariant state → (invariant (step state event).1 ↔ condition state event))
    (state : State) (events : List Event) (initial : invariant state) :
    (∀ done, done <+: events → invariant (run step state done).1) ↔
      Meets step condition state events := by
  induction events generalizing state with
  | nil =>
    constructor
    · intro _
      trivial
    · intro _ done isPrefix
      rwa [prefix_nil.mp isPrefix]
  | cons event rest ih =>
    constructor
    · intro throughout
      have after := throughout [event] (prefix_append [event] rest)
      refine ⟨(exact state event initial).mp after, (ih _ after).mp ?_⟩
      intro done isPrefix
      exact throughout (event :: done) ((prefix_cons_inj event).mpr isPrefix)
    · rintro ⟨now, later⟩ done isPrefix
      have after := (exact state event initial).mpr now
      cases done with
      | nil => exact initial
      | cons first others =>
        obtain ⟨rfl, shorter⟩ := cons_prefix_cons.mp isPrefix
        exact (ih _ after).mpr later others shorter

end FastGoZero.Lib.Runs
