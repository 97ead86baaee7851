import FastGoZero.Collection.TimingInvariant

/-!
# One key of the timing wheel at a time

A key's seat is the slot the timers map records for it, its entry, and whether
that slot still lists the entry. Seats evolve on their own: a request changes the
seat of its own key only, and a tick changes the seats of the ticked slot, each by
the same rule. So the wheel refines one small machine for each key, and what a
key's task does never depends on the other entries of a slot list, on their order
or on what the scan does to them.
-/

namespace FastGoZero.Collection.TimingWheel

open Lib List

universe u v
variable {K : Type u} {V : Type v}

structure Seat (K : Type u) (V : Type v) where
  pos : Nat
  task : TimingEntry K V
  listed : Bool

/-- The seat of an entry that was moved to the computed position and circle. -/
def Seat.moved (seat : Seat K V) (task : BaseEntry K) (pos circle numSlots : Nat) : Seat K V :=
  if seat.pos ≤ pos then
    { seat with task := { seat.task with circle := circle, diff := pos - seat.pos } }
  else if 0 < circle then
    { seat with task :=
        { seat.task with circle := circle - 1, diff := numSlots + pos - seat.pos } }
  else { pos := pos, task := { toBaseEntry := task, value := seat.task.value }, listed := true }

/-- The seat after its slot was ticked; `none` when the task has run. -/
def Seat.ticked (seat : Seat K V) (numSlots : Nat) : Option (Seat K V) :=
  if 0 < seat.task.circle then
    some { seat with task := { seat.task with circle := seat.task.circle - 1 } }
  else if 0 < seat.task.diff then
    some { pos := (seat.pos + seat.task.diff) % numSlots
           task := { seat.task with diff := 0 }
           listed := true }
  else none

/-- The values that a scan of the seat's slot hands to `execute`. -/
def Seat.ran (seat : Seat K V) : List V :=
  if 0 < seat.task.circle ∨ 0 < seat.task.diff then [] else [seat.task.value]

variable [DecidableEq K] (tw : TimingWheel K V) {task : TimingEntry K V} {timer : PositionEntry}
  {key other : K} {item : Nat}

def seat (key : K) : Option (Seat K V) :=
  match tw.timers.get key with
  | none => none
  | some timer => (tw.heap.read timer.item).map fun task =>
      ⟨timer.pos, task, decide (timer.item ∈ tw.slot timer.pos)⟩

/-- The values with which a key's task was executed, in order. -/
def executions (key : K) (outputs : List (TimingOutput K V)) : List V :=
  outputs.filterMap fun
    | .executed other value => if other = key then some value else none
    | .drained _ _ => none

@[simp] theorem executions_nil (key : K) :
    executions key ([] : List (TimingOutput K V)) = [] := rfl

theorem executions_append (key : K) (first second : List (TimingOutput K V)) :
    executions key (first ++ second) = executions key first ++ executions key second :=
  filterMap_append

theorem executions_executed (key other : K) (value : V) :
    executions key [TimingOutput.executed other value] = if other = key then [value] else [] := by
  by_cases same : other = key <;> simp [executions, same]

/-- A drain executes nothing; it hands its tasks to its own function. -/
theorem executions_drainAll (key : K) : executions key tw.drainAll.2 = [] := by
  simp only [executions, drainAll, filterMap_filterMap]
  apply filterMap_eq_nil_iff.mpr
  intro item _
  cases tw.heap.read item with
  | none => rfl
  | some task => cases removed : task.removed <;> simp [removed]

theorem seat_of_timer {tw : TimingWheel K V} (found : tw.timers.get key = some timer)
    (read : tw.heap.read timer.item = some task) :
    tw.seat key = some ⟨timer.pos, task, decide (timer.item ∈ tw.slot timer.pos)⟩ := by
  simp [seat, found, read]

theorem seat_eq_none {tw : TimingWheel K V} (absent : tw.timers.get key = none) :
    tw.seat key = none := by
  simp [seat, absent]

/-- Under the invariant the map records a key exactly when the key has a seat. -/
theorem Inv.seat_none_iff {tw : TimingWheel K V} (inv : tw.Inv) (key : K) :
    tw.seat key = none ↔ tw.timers.get key = none := by
  cases found : tw.timers.get key with
  | none => simp [seat_eq_none found]
  | some timer =>
    obtain ⟨_, task, read, _⟩ := inv.current key timer found
    simp [seat_of_timer found read]

/-- A state that agrees on the map record, the recorded entry and its listing has
the same seat. -/
theorem seat_congr (before after : TimingWheel K V)
    (timers : after.timers.get key = before.timers.get key)
    (agrees : ∀ timer, before.timers.get key = some timer →
      after.heap.read timer.item = before.heap.read timer.item ∧
        (timer.item ∈ after.slot timer.pos ↔ timer.item ∈ before.slot timer.pos)) :
    after.seat key = before.seat key := by
  unfold seat
  rw [timers]
  cases found : before.timers.get key with
  | none => rfl
  | some timer =>
    obtain ⟨sameRead, sameListing⟩ := agrees timer found
    simp only [sameRead, sameListing]

theorem Inv.item_ne {tw : TimingWheel K V} (inv : tw.Inv) {otherTimer : PositionEntry}
    (different : other ≠ key) (found : tw.timers.get key = some timer)
    (otherFound : tw.timers.get other = some otherTimer) : otherTimer.item ≠ timer.item := by
  obtain ⟨_, task, read, keyed, _⟩ := inv.current key timer found
  obtain ⟨_, otherTask, otherRead, otherKeyed, _⟩ := inv.current other otherTimer otherFound
  intro same
  rw [same, read, Option.some.injEq] at otherRead
  exact different (otherKeyed ▸ otherRead ▸ keyed)

theorem write_seat_other {tw : TimingWheel K V} (inv : tw.Inv)
    (found : tw.timers.get key = some timer) (different : other ≠ key)
    (change : TimingEntry K V → TimingEntry K V) :
    (tw.write timer.item change).seat other = tw.seat other := by
  refine seat_congr tw _ rfl fun otherTimer otherFound => ?_
  exact ⟨Heap.read_modify_of_ne _ _ (inv.item_ne different found otherFound), Iff.rfl⟩

theorem write_seat_self {tw : TimingWheel K V} (found : tw.timers.get key = some timer)
    (change : TimingEntry K V → TimingEntry K V) : (tw.write timer.item change).seat key =
      (tw.seat key).map fun seat => { seat with task := change seat.task } := by
  unfold seat
  change (match tw.timers.get key with | none => _ | some timer => _) = _
  rw [found]
  simp only [write, Heap.read_modify_self, Option.map_map]
  rfl

theorem place_seat_self (pos : Nat) (task : TimingEntry K V) (bound : pos < tw.slots.length) :
    (tw.place pos task).seat task.key = some ⟨pos, task, true⟩ := by
  have found : (tw.place pos task).timers.get task.key = some ⟨pos, tw.heap.size⟩ := by
    simp [place, get_setTimerPosition]
  have read : (tw.place pos task).heap.read tw.heap.size = some task := by
    simp [place, pushBack]
  rw [seat_of_timer found read]
  have listed : tw.heap.size ∈ (tw.place pos task).slot pos := by
    simp [slot_place _ _ _ _ bound]
  simp [listed]

theorem place_seat_other (pos : Nat) (task : TimingEntry K V) (bound : pos < tw.slots.length)
    (different : other ≠ task.key)
    (allocated : ∀ timer, tw.timers.get other = some timer → timer.item < tw.heap.size) :
    (tw.place pos task).seat other = tw.seat other := by
  apply seat_congr
  · simp [place, get_setTimerPosition, different, pushBack]
  · intro timer found
    have old := allocated timer found
    constructor
    · simp [place, pushBack, Heap.read_alloc_old _ _ old]
    · rw [slot_place _ _ _ _ bound]
      split
      · rw [mem_append, mem_singleton, or_iff_left (Nat.ne_of_lt old)]
      · rfl

/-- A move with a delay of at least one interval changes the seat of its key. -/
theorem moveTask_seat_self (inv : tw.Inv) (task : BaseEntry K) (late : tw.interval ≤ task.delay) :
    (tw.moveTask task).1.seat task.key =
      (tw.seat task.key).map fun seat => seat.moved task (tw.getPositionAndCircle task.delay).1
        (tw.getPositionAndCircle task.delay).2 tw.numSlots := by
  have target := position_lt tw inv task.delay
  fun_cases moveTask tw task with
  | case1 absent => simp [seat_eq_none absent]
  | case2 timer found unread =>
    obtain ⟨_, item, read, _⟩ := inv.current _ timer found
    simp [read] at unread
  | case3 _ _ _ _ soon => exact absurd soon (Int.not_lt.mpr late)
  | case4 timer found item read _ pos circle same ahead =>
    simp only [write_seat_self found, seat_of_timer found read, same, Option.map_some, Seat.moved,
      ahead, ↓reduceIte]
  | case5 timer found item read _ pos circle same ahead circling =>
    simp only [write_seat_self found, seat_of_timer found read, same, Option.map_some, Seat.moved,
      ahead, circling, ↓reduceIte]
  | case6 timer found item read _ pos circle same ahead circling =>
    rw [same, ← inv.slots_length] at target
    simp only [seat_of_timer found read, same, Option.map_some, Seat.moved, ahead, circling,
      ↓reduceIte]
    exact place_seat_self _ _ { toBaseEntry := task, value := item.value } target

/-- A move leaves the seats of the other keys alone. -/
theorem moveTask_seat_other (inv : tw.Inv) (task : BaseEntry K) (different : other ≠ task.key) :
    (tw.moveTask task).1.seat other = tw.seat other := by
  have target := position_lt tw inv task.delay
  fun_cases moveTask tw task with
  | case1 | case2 | case3 => rfl
  | case4 timer found | case5 timer found => exact write_seat_other inv found different _
  | case6 timer found item _ _ pos circle same =>
    rw [same, ← inv.slots_length] at target
    refine (place_seat_other (tw.markRemoved timer.item) _
      { toBaseEntry := task, value := item.value } target different ?_).trans
      (write_seat_other inv found different _)
    intro otherTimer otherFound
    obtain ⟨_, _, otherRead, _⟩ := inv.current other otherTimer otherFound
    simpa [markRemoved, write] using Heap.lt_size_of_read otherRead

/-- A move with less than one interval changes nothing at all. -/
theorem moveTask_soon_state (task : BaseEntry K) (soon : task.delay < tw.interval) :
    (tw.moveTask task).1 = tw := by
  fun_cases moveTask tw task with
  | case1 | case2 | case3 => rfl
  | _ => contradiction

/-- A move executes its key's task when it comes with less than one interval, and
nothing otherwise. -/
theorem moveTask_executions (inv : tw.Inv) (task : BaseEntry K) (other : K) :
    executions other (tw.moveTask task).2 =
      if other = task.key ∧ task.delay < tw.interval then
        ((tw.seat other).map fun seat => seat.task.value).toList
      else [] := by
  fun_cases moveTask tw task with
  | case1 absent =>
    split_ifs with own
    · simp [own.1, seat_eq_none absent]
    · rfl
  | case2 timer found unread =>
    obtain ⟨_, item, read, _⟩ := inv.current _ timer found
    simp [read] at unread
  | case3 timer found item read soon =>
    obtain ⟨_, entry, same, keyed, _⟩ := inv.current _ timer found
    cases same.symm.trans read
    rw [executions_executed, keyed]
    by_cases own : other = task.key
    · subst own
      simp [soon, seat_of_timer found read]
    · rw [if_neg fun equal => own equal.symm, if_neg fun both => own both.1]
  | case4 _ _ _ _ late | case5 _ _ _ _ late | case6 _ _ _ _ late =>
    exact (if_neg fun both => late both.2).symm

/-- The entry that a set request stores for a key without a seat. -/
def Seat.fresh (task : TimingEntry K V) (delay : Int) (pos circle : Nat) : Seat K V :=
  { pos := pos, task := { task with delay := delay, circle := circle }, listed := true }

omit [DecidableEq K] in
theorem interval_le_setDelay (tw : TimingWheel K V) (delay : Int) :
    tw.interval ≤ tw.setDelay delay := by
  unfold setDelay
  split <;> omega

/-- A set request writes the value into the entry that a recorded key has. -/
def withValue (item : Nat) (value : V) : TimingWheel K V :=
  tw.write item fun entry => { entry with value := value }

omit [DecidableEq K] in
theorem setDelay_withValue (tw : TimingWheel K V) (item : Nat) (value : V) (delay : Int) :
    (tw.withValue item value).interval ≤ tw.setDelay delay :=
  interval_le_setDelay tw delay

theorem withValue_inv (inv : tw.Inv) (item : Nat) (value : V) : (tw.withValue item value).Inv :=
  write_inv tw inv _ _ (fun _ => rfl) (fun _ => rfl) fun _ _ small => small

theorem setTask_present {tw : TimingWheel K V} (found : tw.timers.get task.key = some timer) :
    tw.setTask task = (tw.withValue timer.item task.value).moveTask
      { delay := tw.setDelay task.delay, key := task.key } := by
  simp [setTask, found, withValue]

theorem setTask_absent {tw : TimingWheel K V} (absent : tw.timers.get task.key = none) :
    tw.setTask task = (tw.place (tw.getPositionAndCircle (tw.setDelay task.delay)).1
      { task with
        delay := tw.setDelay task.delay
        circle := (tw.getPositionAndCircle (tw.setDelay task.delay)).2 }, []) := by
  simp [setTask, absent]

/-- A set request gives a key without a record a fresh seat. -/
theorem setTask_seat_fresh (inv : tw.Inv) (task : TimingEntry K V)
    (absent : tw.timers.get task.key = none) :
    (tw.setTask task).1.seat task.key = some (Seat.fresh task (tw.setDelay task.delay)
      (tw.getPositionAndCircle (tw.setDelay task.delay)).1
      (tw.getPositionAndCircle (tw.setDelay task.delay)).2) := by
  have target : (tw.getPositionAndCircle (tw.setDelay task.delay)).1 < tw.slots.length :=
    inv.slots_length ▸ position_lt tw inv _
  rw [setTask_absent absent]
  exact place_seat_self tw _ { task with
    delay := tw.setDelay task.delay
    circle := (tw.getPositionAndCircle (tw.setDelay task.delay)).2 } target

/-- It moves the seat that a recorded key has, listed or not. -/
theorem setTask_seat_moved (inv : tw.Inv) (task : TimingEntry K V) (timer : PositionEntry)
    (found : tw.timers.get task.key = some timer) :
    (tw.setTask task).1.seat task.key = (tw.seat task.key).map fun seat =>
      Seat.moved { seat with task := { seat.task with value := task.value } }
        { delay := tw.setDelay task.delay, key := task.key }
        (tw.getPositionAndCircle (tw.setDelay task.delay)).1
        (tw.getPositionAndCircle (tw.setDelay task.delay)).2 tw.numSlots := by
  have moved := moveTask_seat_self (tw.withValue timer.item task.value)
    (withValue_inv tw inv timer.item task.value)
    { delay := tw.setDelay task.delay, key := task.key } (setDelay_withValue tw _ _ _)
  rw [setTask_present found, moved, withValue, write_seat_self found, Option.map_map]
  rfl

theorem setTask_seat_other (inv : tw.Inv) (task : TimingEntry K V) (different : other ≠ task.key) :
    (tw.setTask task).1.seat other = tw.seat other := by
  cases found : tw.timers.get task.key with
  | none =>
    have target : (tw.getPositionAndCircle (tw.setDelay task.delay)).1 < tw.slots.length :=
      inv.slots_length ▸ position_lt tw inv _
    rw [setTask_absent found]
    refine place_seat_other tw _ _ target different fun timer recorded => ?_
    obtain ⟨_, _, read, _⟩ := inv.current other timer recorded
    exact Heap.lt_size_of_read read
  | some timer =>
    have kept := moveTask_seat_other (tw.withValue timer.item task.value)
      (withValue_inv tw inv timer.item task.value)
      { delay := tw.setDelay task.delay, key := task.key } different
    rw [setTask_present found, kept]
    exact write_seat_other inv found different _

theorem setTask_executions (inv : tw.Inv) (task : TimingEntry K V) (other : K) :
    executions other (tw.setTask task).2 = [] := by
  cases found : tw.timers.get task.key with
  | none => rw [setTask_absent found, executions_nil]
  | some timer =>
    rw [setTask_present found, moveTask_executions _ (withValue_inv tw inv _ _)]
    exact if_neg fun both => absurd both.2 (Int.not_lt.mpr (setDelay_withValue tw _ _ _))

theorem removeTask_seat (inv : tw.Inv) (key other : K) :
    (tw.removeTask key).seat other = if other = key then none else tw.seat other := by
  unfold removeTask
  split
  · rename_i absent
    split_ifs with own
    · exact own ▸ seat_eq_none absent
    · rfl
  · rename_i timer found
    by_cases own : other = key
    · rw [if_pos own, own]
      exact seat_eq_none (by simp [SafeMap.get_del])
    · rw [if_neg own]
      refine seat_congr tw _ (by simp [SafeMap.get_del, own]) fun otherTimer otherFound => ?_
      exact ⟨Heap.read_modify_of_ne _ _ (inv.item_ne own found otherFound), Iff.rfl⟩

/-- A drain takes every entry off its slot and leaves the map's record. -/
theorem drainAll_seat (key : K) :
    tw.drainAll.1.seat key = (tw.seat key).map fun seat => { seat with listed := false } := by
  unfold seat
  change (match tw.timers.get key with | none => _ | some timer => _) = _
  cases tw.timers.get key with
  | none => rfl
  | some timer =>
    simp only [slot_drained, not_mem_nil, decide_false, Option.map_map]
    rfl

/-- Scanning an entry that is not the key's own leaves the key alone. -/
theorem scanTask_other (inv : tw.Inv) (item : Nat) (key : K) (listed : item ∈ tw.slot tw.tickedPos)
    (foreign : ∀ timer, tw.timers.get key = some timer → timer.item ≠ item) :
    (tw.scanTask item).1.timers.get key = tw.timers.get key ∧
      (tw.scanTask item).1.seat key = tw.seat key ∧
      executions key (tw.scanTask item).2 = [] := by
  have sameListing := fun timer (found : tw.timers.get key = some timer) =>
    scanTask_listed tw inv item timer.item timer.pos (foreign timer found)
  -- the map and the heap decide the rest, and both are touched at other places only
  suffices frame : (tw.scanTask item).1.timers.get key = tw.timers.get key ∧
      (∀ timer, tw.timers.get key = some timer →
        (tw.scanTask item).1.heap.read timer.item = tw.heap.read timer.item) ∧
      executions key (tw.scanTask item).2 = [] by
    obtain ⟨timers, reads, silent⟩ := frame
    exact ⟨timers, seat_congr tw _ timers fun timer found =>
      ⟨reads timer found, sameListing timer found⟩, silent⟩
  have own {task : TimingEntry K V} (read : tw.heap.read item = some task)
      (live : ¬ task.removed = true) : key ≠ task.key := fun same =>
    foreign _ (same ▸ inv.registered _ item listed task read (eq_false_of_ne_true live)) rfl
  fun_cases scanTask tw item with
  | case1 | case2 => exact ⟨rfl, fun _ _ => rfl, rfl⟩
  | case3 =>
    exact ⟨rfl, fun timer found => Heap.read_modify_of_ne _ _ (foreign timer found), rfl⟩
  | case4 task read live =>
    refine ⟨(get_setTimerPosition _ _ _ _ _).trans (if_neg (own read live)), ?_, rfl⟩
    intro timer found
    refine (Heap.read_modify_of_ne _ _ (foreign timer found)).trans ?_
    rw [relocate, heap_setTimerPosition]
    rfl
  | case5 task read live =>
    refine ⟨?_, fun _ _ => rfl, ?_⟩
    · simp [SafeMap.get_del, own read live]
    · rw [executions_executed, if_neg fun same => own read live same.symm]

theorem scanTask_self (inv : tw.Inv) (item : Nat) (key : K) (listed : item ∈ tw.slot tw.tickedPos)
    (found : tw.timers.get key = some ⟨tw.tickedPos, item⟩) :
    (∀ timer, (tw.scanTask item).1.timers.get key = some timer → timer.item = item) ∧
      (tw.scanTask item).1.seat key = (tw.seat key).bind (Seat.ticked · tw.numSlots) ∧
      executions key (tw.scanTask item).2 = ((tw.seat key).map Seat.ran).getD [] := by
  obtain ⟨_, task, read, keyed, alive, _⟩ := inv.current key _ found
  subst keyed
  have before : tw.seat task.key = some ⟨tw.tickedPos, task, true⟩ := by
    rw [seat_of_timer found read]
    simp [listed]
  simp only [before, Option.bind_some, Option.map_some, Option.getD_some, Seat.ticked, Seat.ran]
  fun_cases scanTask tw item with
  | case1 unread => simp [read] at unread
  | case2 entry same dead =>
    cases read.symm.trans same
    simp [dead] at alive
  | case3 entry same live circling =>
    cases read.symm.trans same
    simp only [circling, ↓reduceIte, true_or]
    refine ⟨fun timer after => ?_, ?_, rfl⟩
    · cases found.symm.trans after
      rfl
    · have written := write_seat_self found fun entry => { entry with circle := entry.circle - 1 }
      rwa [before] at written
  | case4 entry same live circling moving pos =>
    cases read.symm.trans same
    simp only [circling, moving, ↓reduceIte, false_or]
    have bound : pos < (tw.removeElement tw.tickedPos item).slots.length := by
      simpa [removeElement, inv.slots_length] using Nat.mod_lt _ (Nat.zero_lt_of_lt inv.ticked_lt)
    have after : (tw.relocate pos task.key item).timers.get task.key = some ⟨pos, item⟩ := by
      rw [relocate, get_setTimerPosition, if_pos rfl]
    refine ⟨fun timer recorded => ?_, ?_, rfl⟩
    · cases after.symm.trans recorded
      rfl
    · have written := write_seat_self after fun entry => { entry with diff := 0 }
      refine written.trans ?_
      rw [seat_of_timer after (by rw [relocate, heap_setTimerPosition]; exact read)]
      have seated : item ∈ (tw.relocate pos task.key item).slot pos := by
        rw [relocate, slot_setTimerPosition, slot_pushBack _ _ _ _ bound, if_pos rfl]
        exact mem_append_right _ mem_cons_self
      simp [seated, pos]
  | case5 entry same live circling moving =>
    cases read.symm.trans same
    simp only [circling, moving, ↓reduceIte, or_self]
    refine ⟨fun timer after => ?_, ?_, ?_⟩
    · simp [SafeMap.get_del] at after
    · exact seat_eq_none (by simp [SafeMap.get_del])
    · rw [executions_executed, if_pos rfl]

/-- A scan that does not meet the key's own entry leaves the key alone. -/
theorem scanAndRunTasks_other (inv : tw.Inv) (items : List Nat) (key : K) (distinct : items.Nodup)
    (listed : ∀ item ∈ items, item ∈ tw.slot tw.tickedPos)
    (foreign : ∀ timer, tw.timers.get key = some timer → timer.item ∉ items) :
    (tw.scanAndRunTasks items).1.seat key = tw.seat key ∧
      executions key (tw.scanAndRunTasks items).2 = [] := by
  induction items generalizing tw with
  | nil => exact ⟨rfl, rfl⟩
  | cons item rest ih =>
    obtain ⟨fresh, restDistinct⟩ := nodup_cons.mp distinct
    have own := listed item mem_cons_self
    obtain ⟨timers, sameSeat, silent⟩ := scanTask_other tw inv item key own
      fun timer found same => foreign timer found (same ▸ mem_cons_self)
    have restListed := scanTask_rest_listed tw inv item rest fresh listed
    obtain ⟨restSeat, restSilent⟩ := ih (tw.scanTask item).1
      (scanTask_inv tw inv item own) restDistinct restListed
      fun timer found mem => foreign timer (timers ▸ found) (mem_cons_of_mem _ mem)
    refine ⟨restSeat.trans sameSeat, ?_⟩
    rw [scanAndRunTasks, executions_append, silent, restSilent]
    rfl

/-- A scan that meets the key's own entry ticks its seat exactly once. -/
theorem scanAndRunTasks_self (inv : tw.Inv) (items : List Nat) (key : K) (item : Nat)
    (distinct : items.Nodup) (listed : ∀ other ∈ items, other ∈ tw.slot tw.tickedPos)
    (mem : item ∈ items) (found : tw.timers.get key = some ⟨tw.tickedPos, item⟩) :
    (tw.scanAndRunTasks items).1.seat key = (tw.seat key).bind (Seat.ticked · tw.numSlots) ∧
      executions key (tw.scanAndRunTasks items).2 = ((tw.seat key).map Seat.ran).getD [] := by
  induction items generalizing tw with
  | nil => simp at mem
  | cons first rest ih =>
    obtain ⟨fresh, restDistinct⟩ := nodup_cons.mp distinct
    have own := listed first mem_cons_self
    have restListed := scanTask_rest_listed tw inv first rest fresh listed
    have kept := scanTask_inv tw inv first own
    rw [scanAndRunTasks, executions_append]
    by_cases same : item = first
    · subst same
      obtain ⟨recorded, ticked, ran⟩ := scanTask_self tw inv item key own found
      obtain ⟨restSeat, restSilent⟩ := scanAndRunTasks_other _ kept rest key restDistinct restListed
        fun timer after later => fresh (recorded timer after ▸ later)
      rw [restSilent, append_nil]
      exact ⟨restSeat.trans ticked, ran⟩
    · have later : item ∈ rest := (mem_cons.mp mem).resolve_left same
      obtain ⟨timers, sameSeat, silent⟩ := scanTask_other tw inv first key own fun timer after => by
        cases found.symm.trans after
        exact same
      obtain ⟨ticked, count⟩ := scanTask_ticked tw first
      obtain ⟨restSeat, restRan⟩ := ih _ kept restDistinct restListed later
        (by rw [timers, ticked, found])
      rw [silent, nil_append, restRan, ← sameSeat, ← count]
      exact ⟨restSeat, rfl⟩

/-- A tick leaves a seat alone unless the ticked slot lists it; such a seat is
ticked, and its task runs when neither a circle nor a difference is left. -/
theorem onTick_seat (inv : tw.Inv) (key : K) :
    tw.onTick.1.seat key = (tw.seat key).bind (fun seat =>
        if seat.listed ∧ seat.pos = (tw.tickedPos + 1) % tw.numSlots then
          seat.ticked tw.numSlots else some seat) ∧
      executions key tw.onTick.2 = ((tw.seat key).map fun seat =>
        if seat.listed ∧ seat.pos = (tw.tickedPos + 1) % tw.numSlots then
          seat.ran else []).getD [] := by
  have advanced := advance_inv tw inv
  have sameSeat : ({ tw with tickedPos := (tw.tickedPos + 1) % tw.numSlots } :
      TimingWheel K V).seat key = tw.seat key := rfl
  by_cases due : ∃ timer, tw.timers.get key = some timer ∧
      timer.item ∈ tw.slot ((tw.tickedPos + 1) % tw.numSlots)
  · obtain ⟨⟨pos, item⟩, found, listed⟩ := due
    -- a live entry is listed by its recorded slot only
    obtain ⟨_, task, read, keyed, alive, _⟩ := inv.current key _ found
    have recorded := inv.registered _ item listed task read alive
    rw [keyed] at recorded
    cases found.symm.trans recorded
    obtain ⟨after, ran⟩ := scanAndRunTasks_self _ advanced _ key item (advanced.nodup _)
      (fun _ mem => mem) listed found
    rw [onTick, after, ran, sameSeat, seat_of_timer found read]
    simp [listed]
  · obtain ⟨after, silent⟩ := scanAndRunTasks_other _ advanced _ key (advanced.nodup _)
      (fun _ mem => mem) fun timer found listed => due ⟨timer, found, listed⟩
    rw [onTick, after, silent, sameSeat]
    cases found : tw.timers.get key with
    | none =>
      rw [seat_eq_none found]
      exact ⟨rfl, rfl⟩
    | some timer =>
      obtain ⟨_, task, read, _⟩ := inv.current key timer found
      have elsewhere : ¬ (timer.item ∈ tw.slot timer.pos ∧
          timer.pos = (tw.tickedPos + 1) % tw.numSlots) := by
        rintro ⟨listed, same⟩
        exact due ⟨timer, found, same ▸ listed⟩
      rw [seat_of_timer found read]
      simp [elsewhere]

end FastGoZero.Collection.TimingWheel
