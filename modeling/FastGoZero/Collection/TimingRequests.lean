import FastGoZero.Collection.TimingSchedule

/-!
# What a request does to the countdown

A first `SetTimer` sets the countdown to the requested number of ticks. A move
rewrites the entry where it sits, relative to its slot; the result is right when
the old and the new slot lie on the same side of the ticked slot, or when the
move discards the entry for a new one. Otherwise the task runs one whole turn
late or early. A set on a recorded key is a move, so it inherits this, and after
a drain it may rewrite an entry that no slot lists any more.
-/

namespace FastGoZero.Collection.TimingWheel

open Lib Option

universe u v
variable {K : Type u} {V : Type v} (tw : TimingWheel K V)

/-- The number of ticks that a delay stands for. -/
def steps (delay : Int) : Nat := (delay / tw.interval).toNat

/-- The move leaves the old entry behind and puts a new one into its slot. -/
def Renews (pos : Nat) (delay : Int) : Prop :=
  (tw.getPositionAndCircle delay).1 < pos ∧ (tw.getPositionAndCircle delay).2 = 0

/-- The old and the new slot are on the same side of the ticked slot. -/
def SameSide (pos : Nat) (delay : Int) : Prop :=
  pos ≤ tw.tickedPos ↔ (tw.getPositionAndCircle delay).1 ≤ tw.tickedPos

instance (tw : TimingWheel K V) (pos : Nat) (delay : Int) : Decidable (tw.Renews pos delay) :=
  inferInstanceAs (Decidable (_ ∧ _))

instance (tw : TimingWheel K V) (pos : Nat) (delay : Int) : Decidable (tw.SameSide pos delay) :=
  inferInstanceAs (Decidable (_ ↔ _))

theorem steps_pos (delay : Int) (positive : 0 < tw.interval) (late : tw.interval ≤ delay) :
    1 ≤ tw.steps delay := by
  have quotient : 1 ≤ delay / tw.interval :=
    (Int.le_ediv_iff_mul_le positive).mpr (by omega)
  unfold steps
  omega

/-- Whole turns and the ticks to the new slot add up to the requested number. -/
theorem steps_split (delay : Int) (inside : tw.tickedPos < tw.numSlots)
    (positive : 1 ≤ tw.steps delay) :
    distance tw.numSlots tw.tickedPos (tw.getPositionAndCircle delay).1 +
      (tw.getPositionAndCircle delay).2 * tw.numSlots = tw.steps delay := by
  have slots : 0 < tw.numSlots := Nat.zero_lt_of_lt inside
  have split := Nat.div_add_mod (tw.steps delay - 1) tw.numSlots
  have rest : (tw.steps delay - 1) % tw.numSlots < tw.numSlots := Nat.mod_lt _ slots
  have target : (tw.tickedPos + tw.steps delay) % tw.numSlots =
      (tw.tickedPos + ((tw.steps delay - 1) % tw.numSlots + 1)) % tw.numSlots := by
    have whole : tw.tickedPos + tw.steps delay =
        tw.tickedPos + ((tw.steps delay - 1) % tw.numSlots + 1) +
          tw.numSlots * ((tw.steps delay - 1) / tw.numSlots) := by omega
    rw [whole, Nat.add_mul_mod_self_left]
  have reached : distance tw.numSlots tw.tickedPos (tw.getPositionAndCircle delay).1 =
      (tw.steps delay - 1) % tw.numSlots + 1 := by
    change distance _ _ ((tw.tickedPos + tw.steps delay) % tw.numSlots) = _
    rw [target]
    exact distance_target inside (by omega) (by omega)
  rw [reached, Nat.mul_comm]
  change _ + tw.numSlots * ((tw.steps delay - 1) / tw.numSlots) = _
  omega

/-- The fresh entry of a set request is due after the requested number of ticks. -/
theorem fresh_due (task : TimingEntry K V) (delay : Int) (inside : tw.tickedPos < tw.numSlots)
    (positive : 1 ≤ tw.steps delay) (straight : task.diff = 0) :
    (Seat.fresh task delay (tw.getPositionAndCircle delay).1
      (tw.getPositionAndCircle delay).2).due tw.numSlots tw.tickedPos = tw.steps delay := by
  have split := steps_split tw delay inside positive
  simpa [Seat.due, Seat.fresh, straight] using split

/-- A moved entry is due after the requested number of ticks exactly when its old
and new slots are on the same side of the ticked slot or the entry is renewed. -/
theorem moved_due_iff (seat : Seat K V) (task : BaseEntry K) (inside : tw.tickedPos < tw.numSlots)
    (seatInside : seat.pos < tw.numSlots) (positive : 1 ≤ tw.steps task.delay) :
    (seat.moved task (tw.getPositionAndCircle task.delay).1
      (tw.getPositionAndCircle task.delay).2 tw.numSlots).due tw.numSlots tw.tickedPos =
        tw.steps task.delay ↔
      tw.SameSide seat.pos task.delay ∨ tw.Renews seat.pos task.delay := by
  have split := steps_split tw task.delay inside positive
  have target : (tw.getPositionAndCircle task.delay).1 < tw.numSlots :=
    Nat.mod_lt _ (Nat.zero_lt_of_lt inside)
  unfold SameSide Renews Seat.moved Seat.due
  generalize (tw.getPositionAndCircle task.delay).1 = pos at *
  generalize (tw.getPositionAndCircle task.delay).2 = circle at *
  -- both distances are linear once the side of each slot is known
  have oldDistance : distance tw.numSlots tw.tickedPos seat.pos =
      if seat.pos ≤ tw.tickedPos then tw.numSlots + seat.pos - tw.tickedPos
      else seat.pos - tw.tickedPos := by
    split
    · exact distance_of_le ‹_› inside
    · exact distance_of_gt (Nat.not_le.mp ‹_›) seatInside
  have newDistance : distance tw.numSlots tw.tickedPos pos =
      if pos ≤ tw.tickedPos then tw.numSlots + pos - tw.tickedPos else pos - tw.tickedPos := by
    split
    · exact distance_of_le ‹_› inside
    · exact distance_of_gt (Nat.not_le.mp ‹_›) target
  by_cases ahead : seat.pos ≤ pos
  · simp only [ahead, ↓reduceIte]
    rw [oldDistance]
    rw [newDistance] at split
    split at split <;> split <;> omega
  · by_cases circling : 0 < circle
    · simp only [ahead, circling, ↓reduceIte]
      rw [oldDistance]
      rw [newDistance] at split
      have turn : (circle - 1) * tw.numSlots + tw.numSlots = circle * tw.numSlots := by
        rw [← Nat.succ_mul, Nat.succ_eq_add_one, Nat.sub_add_cancel circling]
      split at split <;> split <;> omega
    · simp only [ahead, circling, ↓reduceIte]
      have none : circle = 0 := Nat.eq_zero_of_not_pos circling
      subst none
      simp only [Nat.zero_mul, Nat.add_zero] at split ⊢
      simp only [split, true_iff]
      exact Or.inr ⟨Nat.not_le.mp ahead, trivial⟩

variable [DecidableEq K] {interval numSlots : Int} {start : TimingWheel K V}

theorem newTimingWheel_inv (made : newTimingWheel interval numSlots = .ok start) : start.Inv := by
  unfold newTimingWheel at made
  split at made
  · cases made
  · cases made
    exact init_inv _ _ (by omega) (by omega)

/-- The countdown that a move leaves is the requested one exactly when the entry
is listed and the two slots are on one side, or the entry is renewed. -/
theorem moved_pending_iff (after : TimingWheel K V) (key : K) (seat : Seat K V) (task : BaseEntry K)
    (constants : after.tickedPos = tw.tickedPos ∧ after.numSlots = tw.numSlots)
    (inside : tw.tickedPos < tw.numSlots) (seatInside : seat.pos < tw.numSlots)
    (positive : 1 ≤ tw.steps task.delay)
    (moved : after.seat key = some (seat.moved task (tw.getPositionAndCircle task.delay).1
      (tw.getPositionAndCircle task.delay).2 tw.numSlots)) :
    after.pending key = some (tw.steps task.delay, seat.task.value) ↔
      seat.listed = true ∧ tw.SameSide seat.pos task.delay ∨ tw.Renews seat.pos task.delay := by
  have exact := moved_due_iff tw seat task inside seatInside positive
  have value : (seat.moved task (tw.getPositionAndCircle task.delay).1
      (tw.getPositionAndCircle task.delay).2 tw.numSlots).task.value = seat.task.value := by
    fun_cases Seat.moved <;> rfl
  have listed : (seat.moved task (tw.getPositionAndCircle task.delay).1
      (tw.getPositionAndCircle task.delay).2 tw.numSlots).listed = true ↔
        seat.listed = true ∨ tw.Renews seat.pos task.delay := by
    unfold Seat.moved Renews
    split_ifs with ahead circling
    · simp [Nat.not_lt.mpr ahead]
    · simp [Nat.pos_iff_ne_zero.mp circling]
    · simp [Nat.not_le.mp ahead, Nat.eq_zero_of_not_pos circling]
  by_cases stays : (seat.moved task (tw.getPositionAndCircle task.delay).1
      (tw.getPositionAndCircle task.delay).2 tw.numSlots).listed = true
  · rw [pending_of_seat moved stays, constants.1, constants.2, value, some.injEq,
      Prod.mk.injEq, and_iff_left rfl, exact]
    tauto
  · have unlisted : after.pending key = none := pending_eq_none (by simp [moved, stays])
    rw [unlisted]
    constructor
    · rintro ⟨⟩
    · tauto

/-- No drain has happened, so every recorded entry is in its slot. -/
def AllListed : Prop :=
  ∀ key seat, tw.seat key = some seat → seat.listed = true

omit [DecidableEq K] in
theorem Seat.moved_listed (seat : Seat K V) (task : BaseEntry K) (pos circle numSlots : Nat)
    (listed : seat.listed = true) : (seat.moved task pos circle numSlots).listed = true := by
  fun_cases Seat.moved with
  | case1 | case2 => exact listed
  | case3 => rfl

theorem setTask_allListed (inv : tw.Inv) (all : tw.AllListed) (task : TimingEntry K V) :
    (tw.setTask task).1.AllListed := by
  intro key seat seated
  by_cases own : key = task.key
  · subst own
    cases found : tw.timers.get task.key with
    | none =>
      cases (setTask_seat_fresh tw inv task found).symm.trans seated
      rfl
    | some timer =>
      rw [setTask_seat_moved tw inv task timer found] at seated
      obtain ⟨old, before, rfl⟩ := map_eq_some_iff.mp seated
      exact Seat.moved_listed _ _ _ _ _ (all _ old before)
  · rw [setTask_seat_other tw inv task own] at seated
    exact all key seat seated

theorem moveTask_allListed (inv : tw.Inv) (all : tw.AllListed) (task : BaseEntry K) :
    (tw.moveTask task).1.AllListed := by
  intro key seat seated
  by_cases soon : task.delay < tw.interval
  · rw [moveTask_soon_state tw task soon] at seated
    exact all key seat seated
  · by_cases own : key = task.key
    · subst own
      rw [moveTask_seat_self tw inv task (Int.not_lt.mp soon)] at seated
      obtain ⟨old, before, rfl⟩ := map_eq_some_iff.mp seated
      exact Seat.moved_listed _ _ _ _ _ (all _ old before)
    · rw [moveTask_seat_other tw inv task own] at seated
      exact all key seat seated

theorem onTick_allListed (inv : tw.Inv) (all : tw.AllListed) : tw.onTick.1.AllListed := by
  intro key seat seated
  rw [(onTick_seat tw inv key).1] at seated
  obtain ⟨old, before, result⟩ := bind_eq_some_iff.mp seated
  have listed := all key old before
  unfold Seat.ticked at result
  split_ifs at result <;> cases result <;> first | exact listed | rfl

theorem step_allListed (inv : tw.Inv) (all : tw.AllListed) (call : Call K V)
    (undrained : call ≠ .drain) : (tw.step call).1.AllListed := by
  have stepped := step_cases tw call
  generalize tw.step call = result at stepped ⊢
  cases stepped with
  | refused => exact all
  | set key value delay positive => exact setTask_allListed tw inv all _
  | move key delay positive => exact moveTask_allListed tw inv all _
  | remove key =>
    intro other seat seated
    rw [removeTask_seat tw inv] at seated
    split at seated
    · cases seated
    · exact all other seat seated
  | drain => exact absurd rfl undrained
  | tick => exact onTick_allListed tw inv all

theorem init_allListed (made : newTimingWheel interval numSlots = .ok start) : start.AllListed := by
  unfold newTimingWheel at made
  split at made
  · cases made
  · cases made
    rintro key seat ⟨⟩

theorem run_allListed (inv : tw.Inv) (all : tw.AllListed) (calls : List (Call K V))
    (undrained : ∀ call ∈ calls, call ≠ .drain) : (tw.run calls).1.AllListed := by
  have both := Runs.run_invariant step (fun _ call => call ≠ .drain)
    (fun tw => tw.Inv ∧ tw.AllListed)
    (fun tw call holds met =>
      ⟨step_inv tw holds.1 call, step_allListed tw holds.1 holds.2 call met⟩)
    tw calls ⟨inv, all⟩ (Runs.meets_of_forall step _ tw calls undrained)
  exact both.2

/-- Once the call is handled and the key is left alone, the key's task runs with the
value exactly once, at exactly the given tick. -/
def FiresAfter (call : Call K V) (key : K) (value : V) (tick : Nat) : Prop :=
  ∀ calls : List (Call K V), (∀ later ∈ calls, later.Spares key) →
    executions key (tw.run (call :: calls)).2 = if tick ≤ ticks calls then [value] else []

/-- A silent call fires its task at a tick exactly when it leaves that countdown. -/
theorem firesAfter_iff (inv : tw.Inv) (call : Call K V) (key : K) (value : V) (tick : Nat)
    (positive : 1 ≤ tick) (silent : executions key (tw.step call).2 = []) :
    tw.FiresAfter call key value tick ↔ (tw.step call).1.pending key = some (tick, value) := by
  rw [← firesAt_iff (tw.step call).1 (step_inv tw inv call) key value tick positive]
  unfold FiresAfter FiresAt
  simp only [run_cons, executions_append, silent, List.nil_append]

/-- Moving a pending timer that sits in the wheel by at least one interval makes its
task run at the requested tick exactly when the old slot and the new one are on the
same side of the ticked slot, or the move puts a new entry into the new slot. -/
theorem moveTimer_firesAfter_iff (interval numSlots : Int) (start : TimingWheel K V)
    (made : newTimingWheel interval numSlots = .ok start) (calls : List (Call K V))
    (undrained : ∀ call ∈ calls, call ≠ .drain) (key : K) (seat : Seat K V)
    (recorded : (start.run calls).1.seat key = some seat) (delay : Int)
    (late : (start.run calls).1.interval ≤ delay) :
    (start.run calls).1.FiresAfter (.moveTimer (some key) delay) key seat.task.value
        (delay / (start.run calls).1.interval).toNat ↔
      (start.run calls).1.SameSide seat.pos delay ∨ (start.run calls).1.Renews seat.pos delay := by
  have inv := run_inv start (newTimingWheel_inv made) calls
  have listed := run_allListed start (newTimingWheel_inv made) (init_allListed made) calls
    undrained key seat recorded
  generalize (start.run calls).1 = tw at *
  have positive : 1 ≤ tw.steps delay := steps_pos tw delay inv.interval_pos late
  have handled : tw.step (.moveTimer (some key) delay) =
      tw.moveTask { delay := delay, key := key } :=
    step_moveTimer (Int.lt_of_lt_of_le inv.interval_pos late)
  have silent : executions key (tw.step (.moveTimer (some key) delay)).2 = [] := by
    rw [handled, moveTask_executions tw inv]
    exact if_neg fun both => absurd both.2 (Int.not_lt.mpr late)
  have moved := moveTask_seat_self tw inv { delay := delay, key := key } late
  rw [recorded, map_some] at moved
  refine (firesAfter_iff tw inv _ key _ _ positive silent).trans ?_
  rw [handled]
  refine (moved_pending_iff tw _ key seat _ (moveTask_constants tw _) inv.ticked_lt
    (inv.seat_bounds recorded).1 positive moved).trans ?_
  rw [listed]
  simp only [true_and]

/-- On a wheel of three slots whose ticked slot is the second, a timer in the second
slot moved forward by one tick. -/
theorem moveTimer_firesAfter_sameSide :
    ((init 1 3 : TimingWheel Nat Nat).run [.tick, .tick, .setTimer (some 0) 7 3]).1.FiresAfter
      (.moveTimer (some 0) 2) 0 7 2 :=
  (moveTimer_firesAfter_iff 1 3 (init 1 3) rfl [.tick, .tick, .setTimer (some 0) 7 3] (by simp) 0
    { pos := 1, task := { delay := 3, key := 0, value := 7 }, listed := true } rfl 2
    (by decide)).mpr (by decide)

/-- A timer in the first slot, behind the ticked one, is moved ahead of it: its task
does not run at the next tick. -/
theorem moveTimer_runs_late :
    newTimingWheel 1 3 = .ok (init 1 3 : TimingWheel Nat Nat) ∧
    ¬ ((init 1 3 : TimingWheel Nat Nat).run [.tick, .tick, .setTimer (some 0) 7 2]).1.FiresAfter
      (.moveTimer (some 0) 1) 0 7 1 := by
  refine ⟨rfl, fun fires => ?_⟩
  have executed := fires [.tick] (by simp [Call.Spares])
  revert executed
  decide

omit [DecidableEq K] in
theorem setDelay_eq_max (tw : TimingWheel K V) (delay : Int) :
    tw.setDelay delay = max delay tw.interval := by
  unfold setDelay
  split <;> omega

/-- The countdown that a set leaves on a key without a record is the requested one. -/
theorem setTask_pending_absent (inv : tw.Inv) (key : K) (value : V) (delay : Int)
    (absent : tw.seat key = none) :
    (tw.setTask { delay := delay, key := key, value := value }).1.pending key =
      some (tw.steps (tw.setDelay delay), value) := by
  have positive := steps_pos tw _ inv.interval_pos (interval_le_setDelay tw delay)
  have constants := setTask_constants tw { delay := delay, key := key, value := value }
  have fresh := setTask_seat_fresh tw inv { delay := delay, key := key, value := value }
    ((inv.seat_none_iff key).mp absent)
  rw [pending_of_seat fresh rfl, constants.1, constants.2,
    fresh_due tw _ _ inv.ticked_lt positive rfl]
  rfl

/-- The key has no record in the timers map, or its recorded entry is still in its
slot, on the side of the ticked slot where the delay leads, or is renewed. -/
def AcceptsSet (key : K) (delay : Int) : Prop :=
  match tw.seat key with
  | none => True
  | some seat =>
    seat.listed = true ∧ tw.SameSide seat.pos (tw.setDelay delay) ∨
      tw.Renews seat.pos (tw.setDelay delay)

/-- A set leaves the requested countdown exactly when the key accepts it. -/
theorem setTask_pending_iff (inv : tw.Inv) (key : K) (value : V) (delay : Int) :
    (tw.setTask { delay := delay, key := key, value := value }).1.pending key =
        some (tw.steps (tw.setDelay delay), value) ↔ tw.AcceptsSet key delay := by
  unfold AcceptsSet
  cases seated : tw.seat key with
  | none => simp only [setTask_pending_absent tw inv key value delay seated]
  | some seat =>
    obtain ⟨inside, _, found⟩ := inv.seat_bounds seated
    obtain ⟨timer, recorded⟩ := ne_none_iff_exists'.mp found
    have moved := setTask_seat_moved tw inv { delay := delay, key := key, value := value } timer
      recorded
    rw [seated, map_some] at moved
    exact moved_pending_iff tw _ key { seat with task := { seat.task with value := value } }
      { delay := tw.setDelay delay, key := key } (setTask_constants tw _) inv.ticked_lt inside
      (steps_pos tw _ inv.interval_pos (interval_le_setDelay tw delay)) moved

/-- A set fires once at its requested tick exactly when the key accepts it. -/
theorem setTimer_fires_iff (inv : tw.Inv) (key : K) (value : V) {delay : Int}
    (positive : 0 < delay) :
    tw.FiresAfter (.setTimer (some key) value delay) key value
        (max delay tw.interval / tw.interval).toNat ↔ tw.AcceptsSet key delay := by
  have waits := steps_pos tw _ inv.interval_pos (interval_le_setDelay tw delay)
  have handled : tw.step (.setTimer (some key) value delay) =
      tw.setTask { delay := delay, key := key, value := value } := step_setTimer positive
  have silent : executions key (tw.step (.setTimer (some key) value delay)).2 = [] := by
    rw [handled]
    exact setTask_executions tw inv _ key
  rw [← setDelay_eq_max]
  refine (firesAfter_iff tw inv _ key value _ waits silent).trans ?_
  rw [handled]
  exact setTask_pending_iff tw inv key value delay

/-- Setting a key that has no pending timer runs its task exactly once, at the tick
that the delay asks for, a delay below the interval counting as the interval. -/
theorem setTimer_firesAfter (interval numSlots : Int) (start : TimingWheel K V)
    (made : newTimingWheel interval numSlots = .ok start) (calls : List (Call K V))
    (undrained : ∀ call ∈ calls, call ≠ .drain) (key : K) (value : V)
    (absent : (start.run calls).1.pending key = none) (delay : Int) (positive : 0 < delay) :
    (start.run calls).1.FiresAfter (.setTimer (some key) value delay) key value
      (max delay (start.run calls).1.interval / (start.run calls).1.interval).toNat := by
  have inv := run_inv start (newTimingWheel_inv made) calls
  have listed := run_allListed start (newTimingWheel_inv made) (init_allListed made) calls undrained
  generalize (start.run calls).1 = tw at *
  have unseated : tw.seat key = none := by
    cases seated : tw.seat key with
    | none => rfl
    | some seat =>
      rw [pending_of_seat seated (listed key seat seated)] at absent
      cases absent
  rw [setTimer_fires_iff tw inv key value positive, AcceptsSet, unseated]
  trivial

/-- The first set on a wheel of three slots, more than a turn ahead. -/
theorem setTimer_firesAfter_twoTurns :
    (init 2 3 : TimingWheel Nat Nat).FiresAfter (.setTimer (some 0) 7 11) 0 7 5 :=
  setTimer_firesAfter 2 3 (init 2 3) rfl [] (by simp) 0 7 rfl 11 (by decide)

/-- After a drain, a set fires once at its requested tick exactly when the key has no
record in the timers map, or its entry is in a slot and the move that the set then
makes is a right one. -/
theorem setTimer_drained_firesAfter_iff (interval numSlots : Int) (start : TimingWheel K V)
    (made : newTimingWheel interval numSlots = .ok start) (before after : List (Call K V))
    (key : K) (value : V) (delay : Int) (positive : 0 < delay) :
    (start.run (before ++ .drain :: after)).1.FiresAfter (.setTimer (some key) value delay) key
        value (max delay (start.run (before ++ .drain :: after)).1.interval /
          (start.run (before ++ .drain :: after)).1.interval).toNat ↔
      (start.run (before ++ .drain :: after)).1.AcceptsSet key delay := by
  have inv := run_inv start (newTimingWheel_inv made) (before ++ .drain :: after)
  exact setTimer_fires_iff _ inv key value positive

/-- After a drain, a key that was not pending is set. -/
theorem setTimer_drained_firesAfter_new :
    ((init 1 3 : TimingWheel Nat Nat).run [.setTimer (some 0) 7 2, .drain]).1.FiresAfter
      (.setTimer (some 1) 8 4) 1 8 4 :=
  (setTimer_drained_firesAfter_iff 1 3 (init 1 3) rfl [.setTimer (some 0) 7 2] [] 1 8 4
    (by decide)).mpr trivial

/-- A key that was pending at the drain is set again with the same delay: its entry
is in no slot, and the task does not run. -/
theorem setTimer_drained_lost :
    newTimingWheel 1 3 = .ok (init 1 3 : TimingWheel Nat Nat) ∧
    ¬ ((init 1 3 : TimingWheel Nat Nat).run [.setTimer (some 0) 7 2, .drain]).1.FiresAfter
      (.setTimer (some 0) 8 2) 0 8 2 := by
  refine ⟨rfl, fun fires => ?_⟩
  have executed := fires [.tick, .tick] (by simp [Call.Spares])
  revert executed
  decide

end FastGoZero.Collection.TimingWheel
