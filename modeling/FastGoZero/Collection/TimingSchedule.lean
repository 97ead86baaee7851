import FastGoZero.Collection.TimingSeats

/-!
# When a task of the timing wheel runs

A listed seat is a countdown: the ticks until its slot comes up, a full turn for
each circle, and the slots that a move left to go. Every tick lowers the count by
one and the task runs when it reaches zero, whatever happens to other keys. So a
task fires at a given tick exactly when the count is that number, and a request is
right exactly when it leaves the right count behind.
-/

namespace FastGoZero.Collection.TimingWheel

open Option

universe u v
variable {K : Type u} {V : Type v}

/-- The number of ticks, at least one, until a slot is ticked. -/
def distance (numSlots ticked pos : Nat) : Nat := (pos + (numSlots - 1 - ticked)) % numSlots + 1

variable {numSlots ticked pos : Nat} {seat : Seat K V} {tw : TimingWheel K V} {key : K}
  {delay : Int}

theorem distance_of_gt (ahead : ticked < pos)
    (inside : pos < numSlots) : distance numSlots ticked pos = pos - ticked := by
  have wraps : pos + (numSlots - 1 - ticked) = (pos - ticked - 1) + numSlots := by omega
  rw [distance, wraps, Nat.add_mod_right, Nat.mod_eq_of_lt (by omega)]
  omega

theorem distance_of_le (behind : pos ≤ ticked)
    (inside : ticked < numSlots) : distance numSlots ticked pos = numSlots + pos - ticked := by
  rw [distance, Nat.mod_eq_of_lt (by omega)]
  omega

/-- Ticks until the task of a listed seat runs. -/
def Seat.due (seat : Seat K V) (numSlots ticked : Nat) : Nat :=
  distance numSlots ticked seat.pos + seat.task.circle * numSlots + seat.task.diff

/-- Stepping over to the next slot brings every other slot one tick closer. -/
theorem distance_advance (inside : pos < numSlots)
    (tickedInside : ticked < numSlots) (other : pos ≠ (ticked + 1) % numSlots) :
    distance numSlots ((ticked + 1) % numSlots) pos + 1 = distance numSlots ticked pos := by
  rcases Nat.lt_or_ge (ticked + 1) numSlots with more | last
  · rw [Nat.mod_eq_of_lt more] at other ⊢
    rcases Nat.lt_or_ge ticked pos with ahead | behind
    · rw [distance_of_gt (by omega) inside, distance_of_gt ahead inside]
      omega
    · rw [distance_of_le (by omega) more, distance_of_le behind tickedInside]
      omega
  · have wrapped : (ticked + 1) % numSlots = 0 := by
      have whole : ticked + 1 = numSlots := by omega
      rw [whole, Nat.mod_self]
    rw [wrapped] at other ⊢
    rw [distance_of_gt (by omega) inside, distance_of_le (by omega) tickedInside]
    omega

/-- The slot that is ticked next is one tick away. -/
theorem distance_next (inside : ticked < numSlots) :
    distance numSlots ticked ((ticked + 1) % numSlots) = 1 := by
  rcases Nat.lt_or_ge (ticked + 1) numSlots with more | last
  · rw [Nat.mod_eq_of_lt more, distance_of_gt (by omega) more]
    omega
  · have whole : ticked + 1 = numSlots := by omega
    rw [whole, Nat.mod_self, distance_of_le (by omega) inside]
    omega

/-- The slot reached after fewer ticks than a turn is as many ticks away. -/
theorem distance_target {steps : Nat} (inside : ticked < numSlots)
    (positive : 1 ≤ steps) (turn : steps ≤ numSlots) :
    distance numSlots ticked ((ticked + steps) % numSlots) = steps := by
  rcases Nat.lt_or_ge (ticked + steps) numSlots with more | wraps
  · rw [Nat.mod_eq_of_lt more, distance_of_gt (by omega) more]
    omega
  · have rest : (ticked + steps) % numSlots = ticked + steps - numSlots := by
      rw [Nat.mod_eq_sub_mod wraps, Nat.mod_eq_of_lt (by omega)]
    rw [rest, distance_of_le (by omega) inside]
    omega

theorem Seat.due_pos (seat : Seat K V) (numSlots ticked : Nat) : 1 ≤ seat.due numSlots ticked := by
  unfold due distance
  omega

/-- A seat whose slot was ticked and that still waits has one tick less to go: a
full turn replaces a circle, and a relocation the rest of its difference. -/
theorem Seat.ticked_waits {after : Seat K V}
    (tickedInside : ticked < numSlots) (small : seat.task.diff < numSlots)
    (next : seat.pos = (ticked + 1) % numSlots) (waits : seat.ticked numSlots = some after) :
    after.due numSlots ((ticked + 1) % numSlots) + 1 = seat.due numSlots ticked ∧
      after.task.value = seat.task.value ∧ (seat.listed = true → after.listed = true) ∧
      seat.ran = [] := by
  have positive : 0 < numSlots := Nat.zero_lt_of_lt tickedInside
  have nextInside : (ticked + 1) % numSlots < numSlots := Nat.mod_lt _ positive
  have near : distance numSlots ticked seat.pos = 1 := next ▸ distance_next tickedInside
  unfold Seat.ticked at waits
  unfold Seat.due Seat.ran
  split_ifs at waits with circling moving <;> cases waits
  · obtain ⟨circle, isSucc⟩ := Nat.exists_eq_add_of_lt circling
    have turn : distance numSlots ((ticked + 1) % numSlots) seat.pos = numSlots := by
      rw [← next, distance_of_le (Nat.le_refl _) (next ▸ nextInside)]
      omega
    refine ⟨?_, rfl, id, by simp [circling]⟩
    simp only [near, turn, isSucc, Nat.zero_add, Nat.add_sub_cancel, Nat.add_mul, Nat.one_mul]
    omega
  · have circleZero : seat.task.circle = 0 := Nat.eq_zero_of_not_pos circling
    have reached := distance_target nextInside moving (Nat.le_of_lt small)
    refine ⟨?_, rfl, fun _ => rfl, by simp [moving]⟩
    dsimp only
    rw [near, next, reached, circleZero]
    omega

/-- A seat that is used up by the tick was due at it. -/
theorem Seat.ticked_runs (inside : ticked < numSlots)
    (next : seat.pos = (ticked + 1) % numSlots) (runs : seat.ticked numSlots = none) :
    seat.due numSlots ticked = 1 ∧ seat.ran = [seat.task.value] := by
  have near : distance numSlots ticked seat.pos = 1 := next ▸ distance_next inside
  unfold Seat.ticked at runs
  split_ifs at runs with circling moving
  refine ⟨?_, by simp [Seat.ran, circling, moving]⟩
  rw [Seat.due, near, Nat.eq_zero_of_not_pos circling, Nat.eq_zero_of_not_pos moving]
  omega

variable [DecidableEq K] {value : V}

/-- The countdown of a key and the value its task will run with. -/
def pending (tw : TimingWheel K V) (key : K) : Option (Nat × V) :=
  (tw.seat key).bind fun seat =>
    if seat.listed then some (seat.due tw.numSlots tw.tickedPos, seat.task.value) else none

def countdown : Option (Nat × V) → Option (Nat × V)
  | none => none
  | some (ticks, value) => if ticks ≤ 1 then none else some (ticks - 1, value)

def expired : Option (Nat × V) → List V
  | none => []
  | some (ticks, value) => if ticks ≤ 1 then [value] else []

theorem Inv.seat_bounds (inv : tw.Inv) (seated : tw.seat key = some seat) :
    seat.pos < tw.numSlots ∧ seat.task.diff < tw.numSlots ∧ tw.timers.get key ≠ none := by
  cases found : tw.timers.get key with
  | none =>
    rw [seat_eq_none found] at seated
    cases seated
  | some timer =>
    obtain ⟨inside, task, read, _, _, small⟩ := inv.current key timer found
    cases (seat_of_timer found read).symm.trans seated
    exact ⟨inside, small, by simp⟩

theorem onTick_constants (tw : TimingWheel K V) :
    tw.onTick.1.tickedPos = (tw.tickedPos + 1) % tw.numSlots ∧
      tw.onTick.1.numSlots = tw.numSlots := by
  have scan : ∀ (items : List Nat) (tw : TimingWheel K V),
      (tw.scanAndRunTasks items).1.tickedPos = tw.tickedPos ∧
        (tw.scanAndRunTasks items).1.numSlots = tw.numSlots := by
    intro items
    induction items with
    | nil => exact fun tw => ⟨rfl, rfl⟩
    | cons item rest ih =>
      intro tw
      obtain ⟨ticked, count⟩ := scanTask_ticked tw item
      obtain ⟨restTicked, restCount⟩ := ih (tw.scanTask item).1
      exact ⟨restTicked.trans ticked, restCount.trans count⟩
  exact scan _ _

theorem pending_of_seat (seated : tw.seat key = some seat) (listed : seat.listed = true) :
    tw.pending key = some (seat.due tw.numSlots tw.tickedPos, seat.task.value) := by
  simp [pending, seated, listed]

theorem pending_eq_none (unlisted : ∀ seat, tw.seat key = some seat → seat.listed = false) :
    tw.pending key = none := by
  unfold pending
  cases seated : tw.seat key with
  | none => rfl
  | some seat => simp [unlisted seat seated]

/-- A tick counts every key down by one and runs the tasks whose count is used
up, each once. -/
theorem onTick_pending (tw : TimingWheel K V) (inv : tw.Inv) (key : K) :
    tw.onTick.1.pending key = countdown (tw.pending key) ∧
      executions key tw.onTick.2 = expired (tw.pending key) := by
  obtain ⟨after, ran⟩ := onTick_seat tw inv key
  obtain ⟨ticked, count⟩ := onTick_constants tw
  cases seated : tw.seat key with
  | none =>
    have absent : tw.pending key = none := pending_eq_none (by simp [seated])
    simp only [seated, bind_none, map_none, getD_none] at after ran
    rw [absent, ran]
    exact ⟨pending_eq_none (by simp [after]), rfl⟩
  | some seat =>
    obtain ⟨inside, small, _⟩ := inv.seat_bounds seated
    simp only [seated, bind_some, map_some, getD_some] at after ran
    cases listed : seat.listed with
    | false =>
      have absent : tw.pending key = none := pending_eq_none (by simp [seated, listed])
      simp only [listed, Bool.false_eq_true, false_and, ↓reduceIte] at after ran
      rw [absent, ran]
      exact ⟨pending_eq_none (by simp [after, listed]), rfl⟩
    | true =>
      rw [pending_of_seat seated listed]
      by_cases next : seat.pos = (tw.tickedPos + 1) % tw.numSlots
      · simp only [listed, next, and_self, ↓reduceIte] at after ran
        cases result : seat.ticked tw.numSlots with
        | none =>
          obtain ⟨now, runs⟩ := Seat.ticked_runs inv.ticked_lt next result
          rw [ran, runs, now]
          exact ⟨pending_eq_none (by simp [after, result]), rfl⟩
        | some waiting =>
          obtain ⟨closer, value, stays, silent⟩ :=
            Seat.ticked_waits inv.ticked_lt small next result
          have waitingDue := waiting.due_pos tw.numSlots ((tw.tickedPos + 1) % tw.numSlots)
          have later : ¬ seat.due tw.numSlots tw.tickedPos ≤ 1 := by omega
          rw [ran, silent, pending_of_seat (after.trans result) (stays listed), ticked, count]
          simp only [countdown, expired, later, ↓reduceIte, value, and_true, some.injEq,
            Prod.mk.injEq]
          omega
      · simp only [next, and_false, ↓reduceIte] at after ran
        have closer := distance_advance inside inv.ticked_lt next
        have waitingDue := seat.due_pos tw.numSlots ((tw.tickedPos + 1) % tw.numSlots)
        have lower : seat.due tw.numSlots ((tw.tickedPos + 1) % tw.numSlots) + 1 =
            seat.due tw.numSlots tw.tickedPos := by
          unfold Seat.due
          omega
        have later : ¬ seat.due tw.numSlots tw.tickedPos ≤ 1 := by omega
        rw [ran, pending_of_seat after listed, ticked, count]
        simp only [countdown, expired, later, ↓reduceIte, and_true, some.injEq, Prod.mk.injEq]
        omega

/-- The call is none of `SetTimer`, `MoveTimer` and `RemoveTimer` on the key, and
no drain. -/
def Call.Spares (key : K) : Call K V → Prop
  | .setTimer other _ _ | .moveTimer other _ | .removeTimer other => other ≠ some key
  | .drain => False
  | .tick => True

def Call.isTick : Call K V → Bool
  | .tick => true
  | _ => false

def ticks (calls : List (Call K V)) : Nat := calls.countP Call.isTick

theorem place_constants (tw : TimingWheel K V) (pos : Nat) (task : TimingEntry K V) :
    (tw.place pos task).tickedPos = tw.tickedPos ∧ (tw.place pos task).numSlots = tw.numSlots :=
  setTimerPosition_ticked _ _ _ _

theorem moveTask_constants (tw : TimingWheel K V) (task : BaseEntry K) :
    (tw.moveTask task).1.tickedPos = tw.tickedPos ∧
      (tw.moveTask task).1.numSlots = tw.numSlots := by
  fun_cases moveTask tw task with
  | case6 => exact place_constants _ _ _
  | _ => exact ⟨rfl, rfl⟩

theorem setTask_constants (tw : TimingWheel K V) (task : TimingEntry K V) :
    (tw.setTask task).1.tickedPos = tw.tickedPos ∧
      (tw.setTask task).1.numSlots = tw.numSlots := by
  fun_cases setTask tw task with
  | case1 => exact moveTask_constants _ _
  | case2 => exact place_constants _ _ _

theorem pending_congr {before after : TimingWheel K V}
    (constants : after.tickedPos = before.tickedPos ∧ after.numSlots = before.numSlots)
    (seats : after.seat key = before.seat key) : after.pending key = before.pending key := by
  rw [pending, pending, seats, constants.1, constants.2]

/-- A call other than a tick is invisible to a key that it spares. -/
theorem step_spared (tw : TimingWheel K V) (inv : tw.Inv) (key : K) (call : Call K V)
    (spares : call.Spares key) (quiet : call.isTick = false) :
    (tw.step call).1.pending key = tw.pending key ∧ executions key (tw.step call).2 = [] := by
  have stepped := step_cases tw call
  generalize tw.step call = result at stepped ⊢
  cases stepped with
  | refused => exact ⟨rfl, rfl⟩
  | set other value delay positive =>
    have different : key ≠ other := fun same => spares (congrArg some same.symm)
    exact ⟨pending_congr (setTask_constants _ _) (setTask_seat_other tw inv _ different),
      setTask_executions tw inv _ key⟩
  | move other delay positive =>
    have different : key ≠ other := fun same => spares (congrArg some same.symm)
    rw [moveTask_executions tw inv]
    exact ⟨pending_congr (moveTask_constants _ _) (moveTask_seat_other tw inv _ different),
      if_neg fun both => different both.1⟩
  | remove other =>
    have different : key ≠ other := fun same => spares (congrArg some same.symm)
    refine ⟨pending_congr ?_ ?_, rfl⟩
    · unfold removeTask
      split <;> exact ⟨rfl, rfl⟩
    · exact (removeTask_seat tw inv other key).trans (if_neg different)
  | drain => exact False.elim spares
  | tick => cases quiet

/-- What a run that spares a key executes for it: the pending task, once, if the
run has enough ticks. -/
theorem run_spared (tw : TimingWheel K V) (inv : tw.Inv) (key : K) (calls : List (Call K V))
    (spares : ∀ call ∈ calls, call.Spares key) :
    executions key (tw.run calls).2 =
      match tw.pending key with
      | none => []
      | some (due, value) => if due ≤ ticks calls then [value] else [] := by
  induction calls generalizing tw with
  | nil =>
    cases waiting : tw.pending key with
    | none => rfl
    | some entry =>
      obtain ⟨due, value⟩ := entry
      have later : ¬ due ≤ 0 := by
        obtain ⟨seat, _, isDue⟩ := bind_eq_some_iff.mp waiting
        split at isDue
        · cases isDue
          have := seat.due_pos tw.numSlots tw.tickedPos
          omega
        · cases isDue
      simp [ticks, later]
  | cons call rest ih =>
    have restSpares : ∀ other ∈ rest, other.Spares key := fun other mem =>
      spares other (List.mem_cons_of_mem _ mem)
    have after := ih (tw.step call).1 (step_inv tw inv call) restSpares
    rw [run_cons, executions_append, after]
    cases isTick : call.isTick with
    | false =>
      obtain ⟨same, silent⟩ := step_spared tw inv key call (spares call List.mem_cons_self) isTick
      have count : ticks (call :: rest) = ticks rest := by simp [ticks, isTick]
      rw [same, silent, count]
      rfl
    | true =>
      have count : ticks (call :: rest) = ticks rest + 1 := by simp [ticks, isTick]
      have called : call = .tick := by cases call <;> first | rfl | cases isTick
      subst called
      obtain ⟨counted, ran⟩ := onTick_pending tw inv key
      rw [step_tick, counted, ran, count]
      cases tw.pending key with
      | none => rfl
      | some entry =>
        obtain ⟨due, value⟩ := entry
        by_cases now : due ≤ 1
        · have within : due ≤ ticks rest + 1 := by omega
          simp [countdown, expired, now, within]
        · have shifted : due - 1 ≤ ticks rest ↔ due ≤ ticks rest + 1 := by omega
          simp [countdown, expired, now, shifted]

/-- The key's task runs with the value exactly once, at exactly the given tick
from now, in every run that spares the key. -/
def FiresAt (tw : TimingWheel K V) (key : K) (value : V) (tick : Nat) : Prop :=
  ∀ calls : List (Call K V), (∀ call ∈ calls, call.Spares key) →
    executions key (tw.run calls).2 = if tick ≤ ticks calls then [value] else []

omit [DecidableEq K] in
theorem ticks_replicate (count : Nat) :
    ticks (List.replicate count (Call.tick : Call K V)) = count := by
  simp only [ticks, List.countP_replicate]
  rfl

/-- A task fires at a tick exactly when that is its countdown. -/
theorem firesAt_iff (tw : TimingWheel K V) (inv : tw.Inv) (key : K) (value : V) (tick : Nat)
    (positive : 1 ≤ tick) : tw.FiresAt key value tick ↔ tw.pending key = some (tick, value) := by
  constructor
  · intro fires
    have spares : ∀ count, ∀ call ∈ List.replicate count (Call.tick : Call K V),
        call.Spares key := by
      intro count call mem
      rw [List.eq_of_mem_replicate mem]
      trivial
    have atTick := (run_spared tw inv key _ (spares tick)).symm.trans (fires _ (spares tick))
    have before := (run_spared tw inv key _ (spares (tick - 1))).symm.trans
      (fires _ (spares (tick - 1)))
    rw [ticks_replicate] at atTick before
    cases waiting : tw.pending key with
    | none => simp [waiting] at atTick
    | some entry =>
      obtain ⟨due, stored⟩ := entry
      have early : ¬ tick ≤ tick - 1 := by omega
      simp only [waiting, Nat.le_refl, early, ↓reduceIte] at atTick before
      by_cases late : due ≤ tick
      · simp only [late, ↓reduceIte, List.cons.injEq, and_true] at atTick
        by_cases soon : due ≤ tick - 1
        · simp [soon] at before
        · have exactly : due = tick := by omega
          rw [exactly, atTick]
      · simp [late] at atTick
  · intro waiting calls spares
    rw [run_spared tw inv key calls spares, waiting]

end FastGoZero.Collection.TimingWheel
