import FastGoZero.Lib.Concurrent

/-!
# Locked calls

`Do` finds the wait group of a running call of its key in a map and waits for it, or it registers
its own, runs its function, takes the key out of the map and releases those who wait. A section
under the lock is one step. A function returns a value or panics; its call then panics after the
deferred steps.
-/

namespace FastGoZero.Syncx

open Lib.Concurrent

universe u v
variable {K : Type u} {V : Type v} [DecidableEq K]

/-- The map of the running calls, and the wait groups that are done. -/
structure LockedGroup (K : Type u) where
  m : K → Option Nat
  made : Nat
  done : Nat → Bool

/-- Where a call of `Do` is; a panic of its function is the result `none`. -/
inductive DoPosition (V : Type v) where
  | begins
  | waits (wg : Nat)
  | runs (wg : Nat)
  | deletes (wg : Nat) (result : Option V)
  | releases (wg : Nat) (result : Option V)
  | returned (result : Option V)

/-- A call of `Do`, with the results of the executions of its function. -/
structure DoCall (K : Type u) (V : Type v) where
  key : K
  position : DoPosition V
  executions : List (Option V)

/-- One step of a call; the choice is the result of its function. -/
def LockedGroup.proceed (lg : LockedGroup K) (call : DoCall K V) (result : Option V) :
    Option (LockedGroup K × DoCall K V) :=
  match call.position with
  | .begins =>
    match lg.m call.key with
    | some wg => some (lg, { call with position := .waits wg })
    | none =>
      some ({ lg with m := Function.update lg.m call.key (some lg.made), made := lg.made + 1 },
        { call with position := .runs lg.made })
  | .waits wg => if lg.done wg then some (lg, { call with position := .begins }) else none
  | .runs wg =>
    some (lg, { call with position := .deletes wg result, executions := result :: call.executions })
  | .deletes wg result =>
    some ({ lg with m := Function.update lg.m call.key none },
      { call with position := .releases wg result })
  | .releases wg result =>
    some ({ lg with done := Function.update lg.done wg true },
      { call with position := .returned result })
  | .returned _ => none

namespace DoCall

/-- The function of the call runs. -/
def runs (key : K) (call : DoCall K V) : Nat :=
  match call.position with
  | .runs _ => if call.key = key then 1 else 0
  | _ => 0

/-- The call is in the map. -/
def registers (key : K) (call : DoCall K V) : Nat :=
  match call.position with
  | .runs _ | .deletes _ _ => if call.key = key then 1 else 0
  | _ => 0

/-- The call is in the map with its wait group. -/
def leads (call : DoCall K V) (key : K) (wg : Nat) : Prop :=
  call.key = key ∧ (call.position = .runs wg ∨ ∃ result, call.position = .deletes wg result)

/-- The call runs, or has run, its function and has not released its wait group. -/
def runsUntil (call : DoCall K V) (key : K) (wg : Nat) : Prop :=
  call.leads key wg ∨ call.key = key ∧ ∃ result, call.position = .releases wg result

/-- The function has run once when its result is there, and not before. -/
def Once (call : DoCall K V) : Prop :=
  match call.position with
  | .begins | .waits _ | .runs _ => call.executions = []
  | .deletes _ result | .releases _ result | .returned result => call.executions = [result]

end DoCall

open DoCall

/-- The calls in the map are the running ones, and those who wait do so for one of them. -/
structure Locked (lg : LockedGroup K) (crowd : Multiset (DoCall K V)) : Prop where
  registered : ∀ key, total (registers key) crowd = (lg.m key).toList.length
  led : ∀ key wg, lg.m key = some wg → ∃ call ∈ crowd, call.leads key wg
  awaited : ∀ call ∈ crowd, ∀ wg, call.position = .waits wg →
    lg.done wg = true ∨ ∃ other ∈ crowd, other.runsUntil call.key wg
  once : ∀ call ∈ crowd, call.Once

variable {lg lg' : LockedGroup K} {call after : DoCall K V} {rest : Multiset (DoCall K V)}
  {result : Option V}

/-- What a step changes, as far as the other calls are concerned. -/
structure Changes (lg lg' : LockedGroup K) (call after : DoCall K V) : Prop where
  registered : ∀ key, after.registers key + (lg.m key).toList.length =
    call.registers key + (lg'.m key).toList.length
  led : ∀ key wg, lg'.m key = some wg →
    after.leads key wg ∨ lg.m key = some wg ∧ ¬ call.leads key wg
  finished : ∀ key wg, call.runsUntil key wg → after.runsUntil key wg ∨ lg'.done wg = true
  done : ∀ wg, lg.done wg = true → lg'.done wg = true
  found : ∀ wg, after.position = .waits wg → lg.m call.key = some wg ∧ ¬ call.leads call.key wg
  key : after.key = call.key
  once : call.Once → after.Once

theorem LockedGroup.proceed_changes (acted : lg.proceed call result = some (lg', after))
    (listed : call.registers call.key ≤ (lg.m call.key).toList.length) :
    Changes lg lg' call after := by
  obtain ⟨key, position, executions⟩ := call
  unfold LockedGroup.proceed at acted
  cases position with
  | begins =>
    dsimp only at acted
    split at acted
    · cases acted
      constructor <;> simp_all [registers, leads, runsUntil, Once]
    · rename_i absent
      cases acted
      constructor <;> simp_all only [registers, leads, runsUntil, Once, Function.update_apply]
      case registered | led =>
        intro other
        by_cases same : other = key
        · subst same
          simp [absent]
        · simp [same, Ne.symm same]
      all_goals simp
  | waits wg =>
    dsimp only at acted
    split at acted
    · cases acted
      constructor <;> simp_all [registers, leads, runsUntil, Once]
    · cases acted
  | runs wg =>
    cases acted
    constructor <;> simp_all [registers, leads, runsUntil, Once, em]
  | deletes wg result =>
    cases acted
    constructor <;> simp_all only [registers, leads, runsUntil, Once, Function.update_apply]
    case registered | led =>
      intro other
      by_cases same : other = key
      · cases here : lg.m other <;> simp_all
      · simp [same, Ne.symm same]
    all_goals simp
  | releases wg result =>
    cases acted
    constructor <;> simp_all [registers, leads, runsUntil, Once, Function.update_apply]
  | returned result => cases acted

theorem Locked.step (acted : lg.proceed call result = some (lg', after))
    (locked : Locked lg (call ::ₘ rest)) : Locked lg' (after ::ₘ rest) := by
  have changes := LockedGroup.proceed_changes acted <| by
    rw [← locked.registered, total_cons]
    exact Nat.le_add_right _ _
  have inRest {key : K} {wg : Nat} (listed : lg.m key = some wg) (other : ¬ call.leads key wg) :
      ∃ leader ∈ rest, leader.leads key wg := by
    obtain ⟨leader, mem, leads⟩ := locked.led key wg listed
    rcases Multiset.mem_cons.mp mem with rfl | mem
    · exact absurd leads other
    · exact ⟨leader, mem, leads⟩
  obtain ⟨own, others⟩ := Multiset.forall_mem_cons.mp locked.once
  refine ⟨?_, ?_, ?_, Multiset.forall_mem_cons.mpr ⟨changes.once own, others⟩⟩
  · intro key
    have before := locked.registered key
    have change := changes.registered key
    rw [total_cons] at before ⊢
    omega
  · intro key wg listed
    rcases changes.led key wg listed with leads | ⟨old, other⟩
    · exact ⟨after, Multiset.mem_cons_self _ _, leads⟩
    · obtain ⟨leader, mem, leads⟩ := inRest old other
      exact ⟨leader, Multiset.mem_cons_of_mem mem, leads⟩
  · intro waiter mem wg waits
    rcases Multiset.mem_cons.mp mem with rfl | mem
    · obtain ⟨leader, mem, leads⟩ := inRest (changes.found wg waits).1 (changes.found wg waits).2
      rw [changes.key]
      exact Or.inr ⟨leader, Multiset.mem_cons_of_mem mem, Or.inl leads⟩
    · rcases locked.awaited waiter (Multiset.mem_cons_of_mem mem) wg waits with done |
        ⟨other, among, runs⟩
      · exact Or.inl (changes.done wg done)
      · rcases Multiset.mem_cons.mp among with rfl | among
        · rcases changes.finished _ wg runs with still | done
          · exact Or.inr ⟨after, Multiset.mem_cons_self _ _, still⟩
          · exact Or.inl done
        · exact Or.inr ⟨other, Multiset.mem_cons_of_mem among, runs⟩

/-- The calls of a run, with their keys. -/
def doCalls (keys : List K) : State (LockedGroup K) (DoCall K V) :=
  ⟨⟨fun _ => none, 0, fun _ => false⟩, keys.map (⟨·, .begins, []⟩)⟩

theorem locked_doCalls (keys : List K) {s : State (LockedGroup K) (DoCall K V)}
    (starts : doCalls keys = s) : Locked s.shared s.crowd := by
  subst starts
  have begins : ∀ call ∈ (doCalls keys : State (LockedGroup K) (DoCall K V)).crowd,
      call.position = .begins ∧ call.executions = [] := by
    intro call mem
    obtain ⟨key, -, rfl⟩ := List.mem_map.mp mem
    exact ⟨rfl, rfl⟩
  refine ⟨fun key => total_eq_zero _ fun call mem => ?_, fun key wg listed => ?_, ?_, ?_⟩
  · simp [registers, begins call mem]
  · cases listed
  · intro call mem wg waits
    rw [(begins call mem).1] at waits
    cases waits
  · intro call mem
    simp [Once, begins call mem]

/-- In every interleaving some call can go on, whatever its function does, or all have returned. -/
theorem lockedCalls_progress (keys : List K) (moves : List (Move (Option V))) :
    let s := (Program.apart LockedGroup.proceed).after (doCalls keys) moves
    (∃ call ∈ s.crowd, ∀ result, s.shared.proceed call result ≠ none) ∨
      ∀ call ∈ s.crowd, ∃ result, call.position = .returned result := by
  intro s
  have locked : Locked s.shared s.crowd :=
    Keeps.run_always (Keeps.apart fun _ _ _ => Locked.step) moves (locked_doCalls keys rfl)
  by_contra! ⟨stuck, call, mem, busy⟩
  obtain ⟨wg, waits, blocked⟩ : ∃ wg, call.position = .waits wg ∧ s.shared.done wg = false := by
    grind [LockedGroup.proceed]
  rcases locked.awaited call mem wg waits with done | ⟨other, among, runs⟩
  · simp_all
  · grind [LockedGroup.proceed, runsUntil, leads]

end FastGoZero.Syncx
