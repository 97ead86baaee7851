import FastGoZero.Collection.TimingRequests

/-!
# How often a task runs

A recorded task stands for one execution that is still to come. A set adds at most
one, a tick pays for what it executes by dropping the record, and a move of at
least one interval executes nothing. A move by less than one interval executes the
task and keeps the record, so the same task runs again. A key without a record owes
nothing, so a removed task does not run before the key is set again.
-/

namespace FastGoZero.Collection.TimingWheel

open Lib Option

universe u v
variable {K : Type u} {V : Type v} [DecidableEq K]

/-- The call is a set of the key that the wheel accepts. -/
def Call.sets (key : K) : Call K V → Bool
  | .setTimer (some other) _ delay => decide (other = key ∧ 0 < delay)
  | _ => false

def sets (key : K) (calls : List (Call K V)) : Nat := calls.countP (Call.sets key)

variable (tw : TimingWheel K V) {key : K}

/-- The number of executions that the key's record stands for. -/
def owed (key : K) : Nat := (tw.seat key).toList.length

/-- The call does not move a recorded timer by less than one interval. -/
def Call.Unhurried : Call K V → Prop
  | .moveTimer (some key) delay => 0 < delay → delay < tw.interval → tw.seat key = none
  | _ => True

theorem owed_le_one (key : K) : tw.owed key ≤ 1 := by
  unfold owed
  cases tw.seat key <;> simp

variable {before after : TimingWheel K V}

theorem owed_congr (seats : after.seat key = before.seat key) :
    after.owed key = before.owed key := by
  rw [owed, owed, seats]

theorem owed_map {change : Seat K V → Seat K V}
    (seats : after.seat key = (before.seat key).map change) : after.owed key = before.owed key := by
  rw [owed, owed, seats]
  cases before.seat key <;> rfl

theorem onTick_owed (inv : tw.Inv) (key : K) :
    (executions key tw.onTick.2).length + tw.onTick.1.owed key ≤ tw.owed key := by
  obtain ⟨after, ran⟩ := onTick_seat tw inv key
  rw [ran, owed, owed, after]
  cases tw.seat key with
  | none => simp
  | some seat =>
    simp only [map_some, getD_some, bind_some, toList_some,
      List.length_singleton]
    split
    · unfold Seat.ran Seat.ticked
      by_cases circling : 0 < seat.task.circle
      · simp [circling]
      · by_cases moving : 0 < seat.task.diff <;> simp [circling, moving]
    · simp

theorem moveTask_owed (inv : tw.Inv) (task : BaseEntry K) (key : K) (unhurried :
      task.delay < tw.interval → key = task.key → tw.seat task.key = none) :
    (executions key (tw.moveTask task).2).length + (tw.moveTask task).1.owed key ≤
      tw.owed key := by
  rw [moveTask_executions tw inv]
  by_cases soon : task.delay < tw.interval
  · rw [moveTask_soon_state tw task soon]
    by_cases own : key = task.key
    · simp [own, unhurried soon own]
    · simp [own]
  · by_cases own : key = task.key
    · subst own
      have kept := owed_map (moveTask_seat_self tw inv task (Int.not_lt.mp soon))
      simp [soon, kept]
    · have kept := owed_congr (moveTask_seat_other tw inv task own)
      simp [own, kept]

/-- A set executes nothing, and only its own key may owe one more. -/
theorem setTask_owed (inv : tw.Inv) (task : TimingEntry K V) (key : K) :
    (executions key (tw.setTask task).2).length + (tw.setTask task).1.owed key ≤
      tw.owed key + if task.key = key then 1 else 0 := by
  rw [setTask_executions tw inv]
  by_cases own : key = task.key
  · have bounded := owed_le_one (tw.setTask task).1 key
    simp only [own, ↓reduceIte, List.length_nil] at bounded ⊢
    omega
  · have kept := owed_congr (setTask_seat_other tw inv task own)
    simp [kept]

/-- The accounting of one call: executions and what is owed after it are covered by
what was owed before and the call's own set. -/
theorem step_owed (inv : tw.Inv) (call : Call K V) (key : K)
    (unhurried : tw.seat key = none ∨ call.Unhurried tw) :
    (executions key (tw.step call).2).length + (tw.step call).1.owed key ≤
      tw.owed key + if call.sets key then 1 else 0 := by
  have stepped := step_cases tw call
  generalize tw.step call = result at stepped ⊢
  cases stepped with
  | refused => simp
  | set other value delay positive =>
    simpa [Call.sets, positive] using
      setTask_owed tw inv { delay := delay, key := other, value := value } key
  | move other delay positive =>
    refine moveTask_owed tw inv { delay := delay, key := other } key fun soon own => ?_
    rcases unhurried with absent | unhurried
    · exact own ▸ absent
    · exact unhurried positive soon
  | remove other =>
    rw [owed, removeTask_seat tw inv, owed]
    split <;> simp
  | drain =>
    have kept := owed_map (drainAll_seat tw key)
    rw [executions_drainAll, kept]
    simp
  | tick => exact Nat.le_trans (onTick_owed tw inv key) (Nat.le_add_right _ _)

theorem run_owed (inv : tw.Inv) (calls : List (Call K V))
    (unhurried : Runs.Meets step (fun tw call => call.Unhurried tw) tw calls) (key : K) :
    (executions key (tw.run calls).2).length + (tw.run calls).1.owed key ≤
      tw.owed key + sets key calls := by
  induction calls generalizing tw with
  | nil => simp [run_nil, sets]
  | cons call rest ih =>
    have now := step_owed tw inv call key (Or.inr unhurried.1)
    have later := ih (tw.step call).1 (step_inv tw inv call) unhurried.2
    have count : sets key (call :: rest) = sets key rest + if call.sets key then 1 else 0 :=
      List.countP_cons
    rw [run_cons, executions_append, List.length_append, count]
    dsimp only
    omega

/-- In a run that never moves a recorded timer by less than one interval, no key's
tasks run more often than the key was set. -/
theorem executions_le_sets (interval numSlots : Int) (start : TimingWheel K V)
    (made : newTimingWheel interval numSlots = .ok start) (calls : List (Call K V))
    (unhurried : Runs.Meets step (fun tw call => call.Unhurried tw) start calls) (key : K) :
    (executions key (start.run calls).2).length ≤ sets key calls := by
  have bound := run_owed start (newTimingWheel_inv made) calls unhurried key
  have nothing : start.owed key = 0 := by
    unfold newTimingWheel at made
    split at made
    · cases made
    · cases made
      rfl
  omega

/-- A set, a move by one interval and two ticks: the task has run once. -/
theorem executions_le_sets_moved :
    (executions 0 ((init 2 3 : TimingWheel Nat Nat).run
      [.setTimer (some 0) 7 4, .moveTimer (some 0) 2, .tick, .tick]).2).length ≤ 1 :=
  executions_le_sets 2 3 (init 2 3) rfl
    [.setTimer (some 0) 7 4, .moveTimer (some 0) 2, .tick, .tick]
    ⟨trivial, fun _ soon => absurd soon (by decide), trivial, trivial, trivial⟩ 0

/-- A timer set once and moved by less than one interval runs at the move and again
at its tick. -/
theorem moveTimer_runs_twice :
    newTimingWheel 2 3 = .ok (init 2 3 : TimingWheel Nat Nat) ∧
    sets 0 [(.setTimer (some 0) 7 2 : Call Nat Nat), .moveTimer (some 0) 1, .tick] = 1 ∧
    executions 0 ((init 2 3 : TimingWheel Nat Nat).run
      [.setTimer (some 0) 7 2, .moveTimer (some 0) 1, .tick]).2 = [7, 7] := by
  refine ⟨rfl, ?_, ?_⟩ <;> decide

/-- A slot lists the entry, it is the key's, and it is not removed. -/
def Live (key : K) (pos item : Nat) : Prop :=
  item ∈ tw.slot pos ∧ ∃ task, tw.heap.read item = some task ∧ task.key = key ∧
    task.removed = false

/-- Without a drain, the timers map records exactly the live entries and their slots. -/
theorem Inv.get_iff_live {tw : TimingWheel K V} (inv : tw.Inv) (listed : tw.AllListed) (key : K)
    (pos item : Nat) : tw.timers.get key = some ⟨pos, item⟩ ↔ tw.Live key pos item := by
  constructor
  · intro found
    obtain ⟨_, task, read, keyed, alive, _⟩ := inv.current key _ found
    have sits := listed key _ (seat_of_timer found read)
    exact ⟨of_decide_eq_true sits, task, read, keyed, alive⟩
  · rintro ⟨mem, task, read, rfl, alive⟩
    exact inv.registered pos item mem task read alive

/-- A key without a record stays so, and nothing of it is executed, until it is set. -/
theorem run_silent (inv : tw.Inv) (absent : tw.seat key = none) (calls : List (Call K V))
    (unset : ∀ call ∈ calls, call.sets key = false) : executions key (tw.run calls).2 = [] := by
  induction calls generalizing tw with
  | nil => rfl
  | cons call rest ih =>
    have paid := step_owed tw inv call key (Or.inl absent)
    rw [unset call List.mem_cons_self, owed, owed, absent] at paid
    obtain ⟨silent, gone⟩ : executions key (tw.step call).2 = [] ∧
        (tw.step call).1.seat key = none := by simpa using paid
    rw [run_cons, executions_append, silent]
    exact ih _ (step_inv tw inv call) gone fun other mem => unset other (List.mem_cons_of_mem _ mem)

/-- In every run without a drain, a key has at most one live entry, the timers map holds
the key exactly when there is one and records its slot; and after a removal nothing of
the key is executed until it is set again. -/
theorem removeTimer_final (interval numSlots : Int) (start : TimingWheel K V)
    (made : newTimingWheel interval numSlots = .ok start) (calls : List (Call K V))
    (undrained : ∀ call ∈ calls, call ≠ .drain) (key : K) :
    let tw := (start.run calls).1
    (∀ pos item other found, tw.Live key pos item → tw.Live key other found →
      other = pos ∧ found = item) ∧
    (∀ pos, (tw.slot pos).Nodup) ∧
    (∀ pos item, tw.timers.get key = some ⟨pos, item⟩ ↔ tw.Live key pos item) ∧
    ∀ later : List (Call K V), (∀ call ∈ later, call.sets key = false) →
      executions key ((tw.step (.removeTimer (some key))).1.run later).2 = [] := by
  intro tw
  have inv : tw.Inv := run_inv start (newTimingWheel_inv made) calls
  have listed : tw.AllListed :=
    run_allListed start (newTimingWheel_inv made) (init_allListed made) calls undrained
  have records := inv.get_iff_live listed key
  refine ⟨?_, inv.nodup, records, ?_⟩
  · intro pos item other found first second
    have same := ((records _ _).mpr second).symm.trans ((records _ _).mpr first)
    rwa [some.injEq, PositionEntry.mk.injEq] at same
  · intro later unset
    have gone : (tw.step (.removeTimer (some key))).1.seat key = none :=
      (removeTask_seat tw inv key key).trans (if_pos rfl)
    exact run_silent _ (step_inv tw inv _) gone later unset

/-- A timer is moved and removed before its tick. -/
theorem removeTimer_final_moved :
    executions 0 ((init 2 3 : TimingWheel Nat Nat).run [.setTimer (some 0) 7 4,
      .moveTimer (some 0) 2]).2 = [] ∧
    executions 0 ((((init 2 3 : TimingWheel Nat Nat).run [.setTimer (some 0) 7 4,
      .moveTimer (some 0) 2]).1.step (.removeTimer (some 0))).1.run [.tick, .tick]).2 = [] :=
  ⟨by decide, (removeTimer_final 2 3 (init 2 3) rfl [.setTimer (some 0) 7 4,
    .moveTimer (some 0) 2] (by simp) 0).2.2.2 [.tick, .tick] (by simp [Call.sets])⟩

end FastGoZero.Collection.TimingWheel
