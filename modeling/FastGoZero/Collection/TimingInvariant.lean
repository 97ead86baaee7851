import FastGoZero.Collection.TimingWheel

/-!
# The invariant of the timing wheel

The slot lists and the timers map describe the same entries from two sides. An
entry that is listed and not removed is the one the map records for its key, at
the slot that lists it. The converse fails after a drain, which empties the slots
and leaves the map.

A request takes the entry of one key out of the slots and puts one back, or
forgets the key; `InvExcept` is what holds in between.

Every request keeps the invariant, a drain included.
-/

namespace FastGoZero.Collection.TimingWheel

open Lib List Option

universe u v
variable {K : Type u} {V : Type v} (tw : TimingWheel K V)

theorem slot_pushBack (pos item probe : Nat) (bound : pos < tw.slots.length) :
    (tw.pushBack pos item).slot probe =
      if probe = pos then tw.slot probe ++ [item] else tw.slot probe := by
  simp only [slot, pushBack, getD_eq_getElem?_getD, getElem?_modify]
  by_cases same : pos = probe
  · subst same
    simp [getElem?_eq_getElem bound]
  · have other : ¬ probe = pos := fun equal => same equal.symm
    simp [same, other]

theorem slot_removeElement (pos item probe : Nat) : (tw.removeElement pos item).slot probe =
      if probe = pos then (tw.slot probe).erase item else tw.slot probe := by
  simp only [slot, removeElement, getD_eq_getElem?_getD, getElem?_modify]
  by_cases same : pos = probe
  · subst same
    cases tw.slots[pos]? <;> simp
  · have other : ¬ probe = pos := fun equal => same equal.symm
    simp [same, other]

theorem slot_removeElement_sublist (pos item probe : Nat) :
    ((tw.removeElement pos item).slot probe).Sublist (tw.slot probe) := by
  rw [slot_removeElement]
  split
  · exact erase_sublist
  · exact Sublist.refl _

@[simp] theorem slot_write (item probe : Nat) (change : TimingEntry K V → TimingEntry K V) :
    (tw.write item change).slot probe = tw.slot probe := rfl

variable (pos : Nat)

theorem slot_drained : tw.drainAll.1.slot pos = [] := by
  simp only [slot, drainAll, getD_eq_getElem?_getD, getElem?_map]
  cases tw.slots[pos]? <;> rfl

theorem slot_init (interval : Int) (numSlots pos : Nat) :
    (init interval numSlots : TimingWheel K V).slot pos = [] := by
  simp only [slot, init, getD_eq_getElem?_getD, getElem?_replicate]
  split <;> rfl

variable [DecidableEq K]

/-- What holds in every reachable state. -/
structure Inv (tw : TimingWheel K V) : Prop where
  interval_pos : 0 < tw.interval
  ticked_lt : tw.tickedPos < tw.numSlots
  slots_length : tw.slots.length = tw.numSlots
  nodup : ∀ pos, (tw.slot pos).Nodup
  stored : ∀ pos, ∀ item ∈ tw.slot pos, item < tw.heap.size
  registered : ∀ pos, ∀ item ∈ tw.slot pos, ∀ task, tw.heap.read item = some task →
    task.removed = false → tw.timers.get task.key = some ⟨pos, item⟩
  current : ∀ key timer, tw.timers.get key = some timer → timer.pos < tw.numSlots ∧
    ∃ task, tw.heap.read timer.item = some task ∧ task.key = key ∧ task.removed = false ∧
      task.diff < tw.numSlots

/-- The invariant while the entry of one key is out of the slots: no live entry
of that key is listed, and the map may record anything for it. -/
structure InvExcept (tw : TimingWheel K V) (key : K) : Prop where
  interval_pos : 0 < tw.interval
  ticked_lt : tw.tickedPos < tw.numSlots
  slots_length : tw.slots.length = tw.numSlots
  nodup : ∀ pos, (tw.slot pos).Nodup
  stored : ∀ pos, ∀ item ∈ tw.slot pos, item < tw.heap.size
  registered : ∀ pos, ∀ item ∈ tw.slot pos, ∀ task, tw.heap.read item = some task →
    task.removed = false → task.key ≠ key ∧ tw.timers.get task.key = some ⟨pos, item⟩
  current : ∀ probe timer, probe ≠ key → tw.timers.get probe = some timer →
    timer.pos < tw.numSlots ∧
    ∃ task, tw.heap.read timer.item = some task ∧ task.key = probe ∧ task.removed = false ∧
      task.diff < tw.numSlots

/-- Recording a position overwrites one key of the timers map, whether or not the
key was there. -/
theorem get_setTimerPosition (key probe : K) (item : Nat) :
    (tw.setTimerPosition pos key item).timers.get probe =
      if probe = key then some ⟨pos, item⟩ else tw.timers.get probe := by
  unfold setTimerPosition
  split
  · rename_i timer found
    simp only [SafeMap.get_modify]
    by_cases same : probe = key
    · subst same
      simp [found]
    · simp [same]
  · simp [SafeMap.get_set]

@[simp] theorem slot_setTimerPosition (key : K) (item probe : Nat) :
    (tw.setTimerPosition pos key item).slot probe = tw.slot probe := by
  unfold setTimerPosition
  split <;> rfl

@[simp] theorem heap_setTimerPosition (key : K) (item : Nat) :
    (tw.setTimerPosition pos key item).heap = tw.heap := by
  unfold setTimerPosition
  split <;> rfl

theorem setTimerPosition_ticked (key : K) (item : Nat) :
    (tw.setTimerPosition pos key item).tickedPos = tw.tickedPos ∧
      (tw.setTimerPosition pos key item).numSlots = tw.numSlots := by
  unfold setTimerPosition
  split <;> exact ⟨rfl, rfl⟩

theorem slot_place (pos probe : Nat) (task : TimingEntry K V) (bound : pos < tw.slots.length) :
    (tw.place pos task).slot probe =
      if probe = pos then tw.slot probe ++ [tw.heap.size] else tw.slot probe := by
  rw [place, slot_setTimerPosition]
  exact slot_pushBack { tw with heap := tw.heap.alloc task } pos tw.heap.size probe bound

theorem init_inv (interval : Int) (numSlots : Nat) (positive : 0 < interval)
    (slots : 0 < numSlots) : (init interval numSlots : TimingWheel K V).Inv where
  interval_pos := positive
  ticked_lt := by simp only [init]; omega
  slots_length := by simp [init]
  nodup := by simp [slot_init]
  stored := by simp [slot_init]
  registered := by simp [slot_init]
  current := by
    intro key timer found
    simp [init, SafeMap.get_newSafeMap] at found

/-- Rewriting an entry's schedule or value keeps the invariant as long as the key,
the removed flag and the bound on `diff` stay. -/
theorem write_inv (inv : tw.Inv) (item : Nat) (change : TimingEntry K V → TimingEntry K V)
    (sameKey : ∀ task, (change task).key = task.key)
    (sameFlag : ∀ task, (change task).removed = task.removed)
    (bounded : ∀ task, tw.heap.read item = some task → task.diff < tw.numSlots →
      (change task).diff < tw.numSlots) : (tw.write item change).Inv where
  __ := inv
  stored := by
    intro pos probe mem
    simpa [write] using inv.stored pos probe mem
  registered := by
    intro pos probe mem task read alive
    change (tw.heap.modify item change).read probe = some task at read
    rw [Heap.read_modify] at read
    split at read
    · obtain ⟨old, oldRead, rfl⟩ := map_eq_some_iff.mp read
      rw [sameKey]
      exact inv.registered pos probe mem old oldRead (sameFlag old ▸ alive)
    · exact inv.registered pos probe mem task read alive
  current := by
    intro key timer found
    obtain ⟨inside, task, read, keyed, alive, small⟩ := inv.current key timer found
    refine ⟨inside, ?_⟩
    change ∃ task, (tw.heap.modify item change).read timer.item = some task ∧ _
    rw [Heap.read_modify]
    split_ifs with same
    · refine ⟨change task, by simp [read], (sameKey task).trans keyed,
        (sameFlag task).trans alive, bounded task (same ▸ read) small⟩
    · exact ⟨task, read, keyed, alive, small⟩

variable {tw : TimingWheel K V} {key : K}

/-- A key that the map does not record has no live entry in the slots. -/
theorem Inv.except_absent (inv : tw.Inv) (key : K)
    (absent : tw.timers.get key = none) : tw.InvExcept key where
  __ := inv
  registered := by
    intro pos item mem task read alive
    have found := inv.registered pos item mem task read alive
    refine ⟨?_, found⟩
    rintro rfl
    simp [absent] at found
  current := fun probe timer _ found => inv.current probe timer found

/-- Marking the recorded entry as removed takes it out. -/
theorem Inv.except_removed (inv : tw.Inv) (key : K) (timer : PositionEntry)
    (found : tw.timers.get key = some timer) :
    (tw.markRemoved timer.item).InvExcept key where
  __ := inv
  stored := by
    intro pos item mem
    simpa [markRemoved, write] using inv.stored pos item mem
  registered := by
    intro pos item mem task read alive
    change (tw.heap.modify timer.item _).read item = some task at read
    rw [Heap.read_modify] at read
    split_ifs at read with other
    · obtain ⟨old, _, rfl⟩ := map_eq_some_iff.mp read
      simp at alive
    · have recorded := inv.registered pos item mem task read alive
      refine ⟨?_, recorded⟩
      rintro rfl
      rw [found] at recorded
      exact other (congrArg PositionEntry.item (some.inj recorded)).symm
  current := by
    intro probe other different recorded
    obtain ⟨inside, task, read, keyed, alive, small⟩ := inv.current probe other recorded
    obtain ⟨_, owned, ownRead, ownKey, _⟩ := inv.current key timer found
    have apart : other.item ≠ timer.item := by
      intro same
      rw [same, ownRead, some.injEq] at read
      exact different (keyed ▸ read ▸ ownKey)
    refine ⟨inside, task, ?_, keyed, alive, small⟩
    change (tw.heap.modify timer.item _).read other.item = some task
    rw [Heap.read_modify_of_ne _ _ apart, read]

/-- So does unlinking it from the slot that lists it. -/
theorem Inv.except_unlinked (inv : tw.Inv) (pos item : Nat)
    (task : TimingEntry K V) (mem : item ∈ tw.slot pos) (read : tw.heap.read item = some task)
    (alive : task.removed = false) : (tw.removeElement pos item).InvExcept task.key where
  __ := inv
  slots_length := by simpa [removeElement] using inv.slots_length
  nodup := fun probe => (inv.nodup probe).sublist (slot_removeElement_sublist tw pos item probe)
  stored := fun probe other listed =>
    inv.stored probe other ((slot_removeElement_sublist tw pos item probe).subset listed)
  registered := by
    intro probe other listed entry otherRead otherAlive
    have own := inv.registered pos item mem task read alive
    have before := (slot_removeElement_sublist tw pos item probe).subset listed
    have recorded := inv.registered probe other before entry otherRead otherAlive
    refine ⟨?_, recorded⟩
    intro sameKey
    rw [sameKey] at recorded
    cases own.symm.trans recorded
    rw [slot_removeElement, if_pos rfl] at listed
    exact (inv.nodup pos).not_mem_erase listed
  current := fun probe timer _ found => inv.current probe timer found

/-- An entry that is removed already can be unlinked at any time. -/
theorem removed_unlinked_inv (tw : TimingWheel K V) (inv : tw.Inv) (pos item : Nat) :
    (∀ task, tw.heap.read item = some task → task.removed = true) →
      (tw.removeElement pos item).Inv := by
  intro dead
  have fewer := slot_removeElement_sublist tw pos item
  exact { inv with
    slots_length := by simpa [removeElement] using inv.slots_length
    nodup := fun probe => (inv.nodup probe).sublist (fewer probe)
    stored := fun probe other listed => inv.stored probe other ((fewer probe).subset listed)
    registered := fun probe other listed =>
      inv.registered probe other ((fewer probe).subset listed) }

section

variable (inv : tw.InvExcept key)

include inv

/-- With the entry out of the slots, the key can be forgotten. -/
theorem InvExcept.forget : ({ tw with timers := tw.timers.del key } : TimingWheel K V).Inv where
  __ := inv
  registered := by
    intro pos item mem task read alive
    obtain ⟨different, recorded⟩ := inv.registered pos item mem task read alive
    simpa [SafeMap.get_del, different] using recorded
  current := by
    intro probe timer found
    simp only [SafeMap.get_del] at found
    split at found
    · cases found
    · rename_i different
      exact inv.current probe timer different found

/-- A live entry of the key that no slot lists can be put into a slot, provided
the map records it there. -/
theorem InvExcept.seat (pos item : Nat) (task : TimingEntry K V) (inside : pos < tw.numSlots)
    (unlisted : item ∉ tw.slot pos) (read : tw.heap.read item = some task) (keyed : task.key = key)
    (alive : task.removed = false) (small : task.diff < tw.numSlots) :
    ((tw.pushBack pos item).setTimerPosition pos key item).Inv := by
  have bound : pos < tw.slots.length := inv.slots_length ▸ inside
  have constants : ((tw.pushBack pos item).setTimerPosition pos key item).interval = tw.interval ∧
      ((tw.pushBack pos item).setTimerPosition pos key item).tickedPos = tw.tickedPos ∧
      ((tw.pushBack pos item).setTimerPosition pos key item).numSlots = tw.numSlots ∧
      ((tw.pushBack pos item).setTimerPosition pos key item).slots.length = tw.slots.length := by
    unfold setTimerPosition
    split <;> simp [pushBack]
  obtain ⟨sameInterval, sameTicked, sameCount, sameLength⟩ := constants
  have split_listed : ∀ probe other,
      other ∈ ((tw.pushBack pos item).setTimerPosition pos key item).slot probe →
        other ∈ tw.slot probe ∨ probe = pos ∧ other = item := by
    intro probe other listed
    rw [slot_setTimerPosition, slot_pushBack _ _ _ _ bound] at listed
    split_ifs at listed with same
    · exact (mem_append.mp listed).imp id fun fresh => ⟨same, mem_singleton.mp fresh⟩
    · exact Or.inl listed
  constructor
  · rw [sameInterval]
    exact inv.interval_pos
  · rw [sameTicked, sameCount]
    exact inv.ticked_lt
  · rw [sameLength, sameCount]
    exact inv.slots_length
  · intro probe
    rw [slot_setTimerPosition, slot_pushBack _ _ _ _ bound]
    split_ifs with same
    · subst same
      exact nodup_append_comm.mp (nodup_cons.mpr ⟨unlisted, inv.nodup probe⟩)
    · exact inv.nodup probe
  · intro probe other listed
    rw [heap_setTimerPosition]
    rcases split_listed probe other listed with old | ⟨-, rfl⟩
    · exact inv.stored probe other old
    · exact Heap.lt_size_of_read read
  · intro probe other listed entry otherRead otherAlive
    rw [heap_setTimerPosition] at otherRead
    rw [get_setTimerPosition]
    rcases split_listed probe other listed with old | ⟨rfl, rfl⟩
    · obtain ⟨different, recorded⟩ := inv.registered probe other old entry otherRead otherAlive
      rwa [if_neg different]
    · have same : entry = task := some.inj (otherRead.symm.trans read)
      rw [if_pos (same ▸ keyed)]
  · intro probe timer found
    rw [get_setTimerPosition] at found
    rw [sameCount, heap_setTimerPosition]
    split at found
    · rename_i same
      cases found
      exact ⟨inside, task, read, keyed.trans same.symm, alive, small⟩
    · rename_i different
      exact inv.current probe timer different found

/-- Allocation adds a cell that no slot and no position entry refers to yet. -/
theorem InvExcept.alloc (cell : TimingEntry K V) :
    ({ tw with heap := tw.heap.alloc cell } : TimingWheel K V).InvExcept key where
  __ := inv
  stored := by
    intro pos item mem
    have old := inv.stored pos item mem
    simp only [Heap.size_alloc]
    omega
  registered := by
    intro pos item mem task read alive
    rw [Heap.read_alloc_old _ _ (inv.stored pos item mem)] at read
    exact inv.registered pos item mem task read alive
  current := by
    intro probe timer different found
    obtain ⟨inside, task, read, rest⟩ := inv.current probe timer different found
    refine ⟨inside, task, ?_, rest⟩
    simp only [Heap.read_alloc_old _ _ (Heap.lt_size_of_read read), read]

theorem InvExcept.place (task : TimingEntry K V) (inside : pos < tw.numSlots)
    (keyed : task.key = key) (alive : task.removed = false) (small : task.diff < tw.numSlots) :
    (tw.place pos task).Inv := by
  subst keyed
  have unlisted : tw.heap.size ∉ tw.slot pos := fun listed =>
    Nat.lt_irrefl _ (inv.stored pos _ listed)
  exact (inv.alloc task).seat pos tw.heap.size task inside unlisted
    (Heap.read_alloc_new tw.heap task) rfl alive small

end

theorem scanTask_ticked (tw : TimingWheel K V) (item : Nat) :
    (tw.scanTask item).1.tickedPos = tw.tickedPos ∧
      (tw.scanTask item).1.numSlots = tw.numSlots := by
  fun_cases scanTask tw item with
  | case4 => exact setTimerPosition_ticked _ _ _ _
  | _ => exact ⟨rfl, rfl⟩

section

variable (tw) (inv : tw.Inv)

include inv

theorem position_lt (d : Int) : (tw.getPositionAndCircle d).1 < tw.numSlots :=
  Nat.mod_lt _ (Nat.zero_lt_of_lt inv.ticked_lt)

theorem moveTask_inv (task : BaseEntry K) : (tw.moveTask task).1.Inv := by
  have target := position_lt tw inv task.delay
  fun_cases moveTask tw task with
  | case4 timer found _ _ _ pos circle same =>
    rw [same] at target
    exact write_inv tw inv timer.item _ (fun _ => rfl) (fun _ => rfl)
      fun _ _ _ => Nat.lt_of_le_of_lt (Nat.sub_le _ _) target
  | case5 timer found =>
    refine write_inv tw inv timer.item _ (fun _ => rfl) (fun _ => rfl) fun _ _ _ => ?_
    dsimp only
    omega
  | case6 timer found _ _ _ pos circle same =>
    rw [same] at target
    exact (inv.except_removed task.key timer found).place _ _ target rfl rfl
      (Nat.zero_lt_of_lt target)
  | _ => exact inv

theorem setTask_inv (task : TimingEntry K V)
    (alive : task.removed = false) (fresh : task.diff = 0) : (tw.setTask task).1.Inv := by
  unfold setTask
  dsimp only
  split
  · apply moveTask_inv
    exact write_inv tw inv _ _ (fun _ => rfl) (fun _ => rfl) fun _ _ small => small
  · rename_i absent
    have positive : 0 < tw.numSlots := Nat.zero_lt_of_lt inv.ticked_lt
    refine (inv.except_absent _ absent).place _ _ (position_lt tw inv _) rfl alive ?_
    simpa [fresh] using positive

theorem removeTask_inv (key : K) : (tw.removeTask key).Inv := by
  unfold removeTask
  split
  · exact inv
  · rename_i timer found
    exact (inv.except_removed key timer found).forget

theorem scanTask_inv (item : Nat)
    (listed : item ∈ tw.slot tw.tickedPos) : (tw.scanTask item).1.Inv := by
  fun_cases scanTask tw item with
  | case1 => exact inv
  | case2 task read dead =>
    refine removed_unlinked_inv tw inv _ item fun other same => ?_
    cases read.symm.trans same
    exact dead
  | case3 => exact write_inv tw inv item _ (fun _ => rfl) (fun _ => rfl) fun _ _ small => small
  | case4 task read live _ _ pos =>
    have alive := eq_false_of_ne_true live
    have positive : 0 < tw.numSlots := Nat.zero_lt_of_lt inv.ticked_lt
    have recorded := inv.registered _ item listed task read alive
    have out := inv.except_unlinked tw.tickedPos item task listed read alive
    obtain ⟨_, _, sameRead, _, _, small⟩ := inv.current _ _ recorded
    cases read.symm.trans sameRead
    refine write_inv _ ?_ item _ (fun _ => rfl) (fun _ => rfl) fun _ _ _ => ?_
    · refine out.seat _ item task (Nat.mod_lt _ positive) ?_ read rfl alive small
      intro present
      -- a live entry is listed by its own slot only, and there once
      rw [slot_removeElement] at present
      split at present
      · rename_i same
        rw [same] at present
        exact (inv.nodup tw.tickedPos).not_mem_erase present
      · rename_i elsewhere
        have other := inv.registered _ item present task read alive
        rw [recorded, some.injEq, PositionEntry.mk.injEq] at other
        exact elsewhere other.1.symm
    · rwa [relocate, (setTimerPosition_ticked _ _ _ _).2]
  | case5 task read live =>
    exact (inv.except_unlinked tw.tickedPos item task listed read (eq_false_of_ne_true live)).forget

/-- Scanning an entry does not change whether another one is listed by a slot. -/
theorem scanTask_listed (item other pos : Nat)
    (different : other ≠ item) : other ∈ (tw.scanTask item).1.slot pos ↔ other ∈ tw.slot pos := by
  have unlinked : other ∈ (tw.removeElement tw.tickedPos item).slot pos ↔ other ∈ tw.slot pos := by
    rw [slot_removeElement]
    split
    · exact mem_erase_of_ne different
    · rfl
  fun_cases scanTask tw item with
  | case1 | case3 => rfl
  | case2 | case5 => exact unlinked
  | case4 task read _ _ _ target =>
    have bound : target < (tw.removeElement tw.tickedPos item).slots.length := by
      simpa [removeElement, inv.slots_length] using Nat.mod_lt _ (Nat.zero_lt_of_lt inv.ticked_lt)
    rw [slot_write, relocate, slot_setTimerPosition, slot_pushBack _ _ _ _ bound]
    split
    · rwa [mem_append, mem_singleton, or_iff_left different]
    · exact unlinked

theorem scanTask_rest_listed (item : Nat) (rest : List Nat)
    (fresh : item ∉ rest) (listed : ∀ other ∈ item :: rest, other ∈ tw.slot tw.tickedPos) :
    ∀ other ∈ rest, other ∈ (tw.scanTask item).1.slot (tw.scanTask item).1.tickedPos := by
  intro other mem
  have different : other ≠ item := fun same => fresh (same ▸ mem)
  rw [(scanTask_ticked tw item).1, scanTask_listed tw inv item other _ different]
  exact listed other (mem_cons_of_mem _ mem)

/-- A scan over distinct entries of the ticked slot keeps the invariant. -/
theorem scanAndRunTasks_inv (items : List Nat)
    (distinct : items.Nodup) (listed : ∀ item ∈ items, item ∈ tw.slot tw.tickedPos) :
    (tw.scanAndRunTasks items).1.Inv := by
  induction items generalizing tw with
  | nil => exact inv
  | cons item rest ih =>
    obtain ⟨fresh, restDistinct⟩ := nodup_cons.mp distinct
    exact ih _ (scanTask_inv tw inv item (listed item mem_cons_self)) restDistinct
      (scanTask_rest_listed tw inv item rest fresh listed)

theorem advance_inv :
    ({ tw with tickedPos := (tw.tickedPos + 1) % tw.numSlots } : TimingWheel K V).Inv :=
  { inv with ticked_lt := Nat.mod_lt _ (Nat.zero_lt_of_lt inv.ticked_lt) }

theorem onTick_inv : tw.onTick.1.Inv := by
  have advanced := advance_inv tw inv
  exact scanAndRunTasks_inv _ advanced _ (advanced.nodup _) fun _ mem => mem

theorem drainAll_inv : tw.drainAll.1.Inv where
  __ := inv
  slots_length := by simpa [drainAll] using inv.slots_length
  nodup := by simp [slot_drained]
  stored := by simp [slot_drained]
  registered := by simp [slot_drained]

end

theorem step_setTimer {value : V} {delay : Int} (positive : 0 < delay) :
    tw.step (.setTimer (some key) value delay) =
      tw.setTask { delay := delay, key := key, value := value } := by
  simp [step, Call.send, Int.not_le.mpr positive, handle]

theorem step_moveTimer {delay : Int} (positive : 0 < delay) :
    tw.step (.moveTimer (some key) delay : Call K V) =
      tw.moveTask { delay := delay, key := key } := by
  simp [step, Call.send, Int.not_le.mpr positive, handle]

/-- A call is refused, or the loop handles its request. -/
inductive Stepped (tw : TimingWheel K V) :
    Call K V → TimingWheel K V × List (TimingOutput K V) → Prop
  | refused (call : Call K V) : Stepped tw call (tw, [])
  | set (key : K) (value : V) (delay : Int) (positive : 0 < delay) :
    Stepped tw (.setTimer (some key) value delay)
      (tw.setTask { delay := delay, key := key, value := value })
  | move (key : K) (delay : Int) (positive : 0 < delay) :
    Stepped tw (.moveTimer (some key) delay) (tw.moveTask { delay := delay, key := key })
  | remove (key : K) : Stepped tw (.removeTimer (some key)) (tw.removeTask key, [])
  | drain : Stepped tw .drain tw.drainAll
  | tick : Stepped tw .tick tw.onTick

theorem step_cases (tw : TimingWheel K V) (call : Call K V) : tw.Stepped call (tw.step call) := by
  unfold step
  fun_cases Call.send call with
  | case3 key value delay positive => exact .set key value delay (Int.not_le.mp positive)
  | case6 key delay positive => exact .move key delay (Int.not_le.mp positive)
  | case8 key => exact .remove key
  | case9 => exact .drain
  | case10 => exact .tick
  | _ => exact .refused _

/-- Every call keeps the invariant, accepted or refused. -/
theorem step_inv (tw : TimingWheel K V) (inv : tw.Inv) (call : Call K V) :
    (tw.step call).1.Inv := by
  have stepped := step_cases tw call
  generalize tw.step call = result at stepped ⊢
  cases stepped with
  | refused => exact inv
  | set key value delay positive => exact setTask_inv tw inv _ rfl rfl
  | move key delay positive => exact moveTask_inv tw inv _
  | remove key => exact removeTask_inv tw inv key
  | drain => exact drainAll_inv tw inv
  | tick => exact onTick_inv tw inv

theorem run_inv (tw : TimingWheel K V) (inv : tw.Inv) (calls : List (Call K V)) :
    (tw.run calls).1.Inv :=
  Runs.run_invariant_always step Inv (fun tw call inv => step_inv tw inv call) tw calls inv

end FastGoZero.Collection.TimingWheel
