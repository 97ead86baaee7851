import FastGoZero.Discov.Watching

/-!
# Reloading

`reload` waits for the goroutines of the current group with the lock in its hands. A goroutine that
is at its `select` sees the closed `done` and returns. One that is loading, or that has received
events, needs the lock before it comes back to its `select`, and then both wait for ever.
-/

namespace FastGoZero.Discov

open Lib.Concurrent List Multiset

def LoadCaller.group? : LoadCaller → Option Nat
  | .monitor => none
  | .watcher group => some group

namespace Watcher

def group? : Watcher → Option Nat
  | .loads caller _ | .gets caller _ | .changes caller _ _ _ | .notifies caller _ _ _ =>
    caller.group?
  | .streams group _ _ | .listens group _ _ | .selects group _ _ _ | .handles group _ _ _
  | .applies group _ _ _ _ | .tells group _ _ _ _ _ => some group
  | _ => none

/-- A goroutine has a lock section before its next `select`: it loads, or it handles events. -/
def needsLock : Watcher → Bool
  | .loads _ _ | .gets _ _ | .changes _ _ _ _ | .handles _ _ _ _ => true
  | .applies _ _ _ _ events | .tells _ _ _ _ events _ => events.any Event.locks
  | _ => false

def memberOf (group : Nat) (l : Watcher) : Nat :=
  if l.group? = some group then 1 else 0

/-- The `reload` that holds the lock. -/
def holds : Watcher → Nat
  | .closes => 1
  | .waits => 1
  | _ => 0

/-- The `reload` that has closed `done`. -/
def closed : Watcher → Nat
  | .waits => 1
  | _ => 0

/-- The channel `done` that a `select` reads. -/
def doneRead : Watcher → Nat
  | .selects _ _ _ done => done
  | _ => 0

end Watcher

open Watcher

/-- The counters and flags say where the goroutines are. -/
structure Joined (s : WatchedCluster) (crowd : Multiset Watcher) : Prop where
  counted : ∀ group, s.active group = total (memberOf group) crowd
  held : total holds crowd = if s.locked then 1 else 0
  closing : total closed crowd = if s.doneClosed then 1 else 0
  read : ∀ l ∈ crowd, l.doneRead ≤ s.generation

namespace WatchedCluster.Proceeds

variable {s s' : WatchedCluster} {l after : Watcher} {started : List Watcher}
  (moved : s.Proceeds l s' after started)

include moved

/-- A goroutine stays in its group, starts another one in a group, or leaves its group. -/
theorem group_cases : (s'.active = s.active ∧ after.group? = l.group? ∧ started = []) ∨
    (∃ group fresh, s' = s.enter group ∧ l.group? = none ∧ after.group? = none ∧
      started = [fresh] ∧ fresh.group? = some group) ∨
    ∃ group, s' = s.leave group ∧ l.group? = some group ∧ after.group? = none ∧ started = [] := by
  cases moved
  case enters group _ _ | enlists group _ _ =>
    exact Or.inr (Or.inl ⟨group, _, rfl, rfl, rfl, rfl, rfl⟩)
  case returns group key rev done closed => exact Or.inr (Or.inr ⟨group, rfl, rfl, rfl, rfl⟩)
  case resumes caller key rev => cases caller <;> exact Or.inl ⟨rfl, rfl, rfl⟩
  all_goals exact Or.inl ⟨rfl, rfl, rfl⟩

/-- The lock and `done` are changed by `reload` alone. -/
theorem lock_cases :
    (s'.locked = s.locked ∧ s'.doneClosed = s.doneClosed ∧ s'.generation = s.generation ∧
      after.holds = l.holds ∧ after.closed = l.closed) ∨
    (l = .reloads ∧ after = .closes ∧ s.locked = false ∧ s' = { s with locked := true }) ∨
    (l = .closes ∧ after = .waits ∧ s' = { s with doneClosed := true }) ∨
    (l = .waits ∧ (∃ keys, after = .starts keys) ∧ s.active s.generation = 0 ∧ s' = s.renew) := by
  cases moved
  case locks free => exact Or.inr (Or.inl ⟨rfl, rfl, free, rfl⟩)
  case closes => exact Or.inr (Or.inr (Or.inl ⟨rfl, rfl, rfl⟩))
  case renews visit idle => exact Or.inr (Or.inr (Or.inr ⟨rfl, ⟨_, rfl⟩, idle, rfl⟩))
  case resumes caller key rev => cases caller <;> exact Or.inl ⟨rfl, rfl, rfl, rfl, rfl⟩
  all_goals exact Or.inl ⟨rfl, rfl, rfl, rfl, rfl⟩

theorem started_idle :
    ∀ fresh ∈ started, fresh.holds = 0 ∧ fresh.closed = 0 ∧ fresh.doneRead = 0 := by
  cases moved
  case enters group key rev | enlists => simp [holds, closed, doneRead]
  all_goals simp

theorem doneRead_le : after.doneRead ≤ s.generation := by
  cases moved
  case listens group key rev => exact Nat.le_refl _
  case resumes caller key rev => cases caller <;> exact Nat.zero_le _
  all_goals exact Nat.zero_le _

theorem generation_le : s.generation ≤ s'.generation := by
  rcases moved.lock_cases with ⟨-, -, same, -⟩ | ⟨-, -, -, rfl⟩ | ⟨-, -, rfl⟩ | ⟨-, -, -, rfl⟩
  · exact same.ge
  · exact Nat.le_refl _
  · exact Nat.le_refl _
  · exact Nat.le_succ _

/-- A goroutine that needs the lock goes on to need it while another one holds it. -/
theorem needsLock_kept (locked : s.locked = true) (needs : l.needsLock = true) :
    after.needsLock = true ∧ after.group? = l.group? := by
  cases moved
  all_goals first
    | exact ⟨rfl, rfl⟩
    | simp_all [needsLock, group?]

end WatchedCluster.Proceeds

open WatchedCluster

namespace Joined

variable {s s' : WatchedCluster} {l after : Watcher} {started : List Watcher}
  {rest : Multiset Watcher}

theorem counted_proceeds (joined : Joined s (l ::ₘ rest)) (moved : s.Proceeds l s' after started)
    (group : Nat) : s'.active group = total (memberOf group) (after ::ₘ (started + rest)) := by
  have counted := joined.counted group
  rw [total_cons] at counted
  rw [total_cons, total_add]
  rcases moved.group_cases with
    ⟨same, stays, rfl⟩ | ⟨entered, fresh, rfl, outside, out, rfl, inside⟩ |
    ⟨left, rfl, inside, out, rfl⟩
  · rw [same, counted, total_nil, Nat.zero_add, memberOf, memberOf, stays]
  · rw [coe_singleton, total_singleton]
    by_cases own : group = entered
    · subst own
      simp [memberOf, outside, out, inside, enter] at counted ⊢
      omega
    · simp [memberOf, outside, out, inside, enter, own, Ne.symm own] at counted ⊢
      omega
  · by_cases own : group = left
    · subst own
      simp [memberOf, out, inside, leave] at counted ⊢
      omega
    · simp [memberOf, out, inside, leave, own, Ne.symm own] at counted ⊢
      omega

theorem keeps : Keeps watchProgram (fun _ _ => True) Joined where
  act := by
    rintro s i answer l s' after started rest - - - acted joined
    have moved := proceeds acted
    have idle := moved.started_idle
    have noHolder : total holds (started : Multiset Watcher) = 0 :=
      total_eq_zero _ fun fresh mem => (idle fresh (mem_coe.mp mem)).1
    have noCloser : total closed (started : Multiset Watcher) = 0 :=
      total_eq_zero _ fun fresh mem => (idle fresh (mem_coe.mp mem)).2.1
    have held := joined.held
    have closing := joined.closing
    rw [total_cons] at held closing
    have most : total closed rest ≤ total holds rest :=
      total_le_total rest fun l _ => by cases l <;> simp [closed, holds]
    refine ⟨joined.counted_proceeds moved, ?_, ?_, ?_⟩
    · rw [total_cons, total_add, noHolder]
      rcases moved.lock_cases with
        ⟨same, -, -, holds, -⟩ | ⟨rfl, rfl, free, rfl⟩ | ⟨rfl, rfl, rfl⟩ |
        ⟨rfl, ⟨keys, rfl⟩, -, rfl⟩
      · rw [same, holds, Nat.zero_add, held]
      · simp [holds, free] at held ⊢
        exact held
      · simpa [holds] using held
      · simp [holds, renew] at held ⊢
        split at held <;> omega
    · rw [total_cons, total_add, noCloser]
      rcases moved.lock_cases with
        ⟨-, same, -, -, closed⟩ | ⟨rfl, rfl, free, rfl⟩ | ⟨rfl, rfl, rfl⟩ |
        ⟨rfl, ⟨keys, rfl⟩, -, rfl⟩
      · rw [same, closed, Nat.zero_add, closing]
      · simpa [closed] using closing
      · simp [closed, holds] at held closing ⊢
        split at held <;> omega
      · simp [closed, renew] at closing ⊢
        split at closing <;> omega
    · intro other mem
      rcases mem_cons.mp mem with rfl | others
      · exact moved.doneRead_le.trans moved.generation_le
      · rcases mem_add.mp others with fresh | old
        · rw [(idle other (mem_coe.mp fresh)).2.2]
          exact Nat.zero_le _
        · exact (joined.read other (mem_cons_of_mem old)).trans moved.generation_le
  meet := by
    intro s i j a b s' sender receiver rest _ _ _ met _
    cases met

end Joined

theorem Joined.initial (calls : List MonitorCall) (reloads : Nat) :
    Joined (startWatching calls reloads).shared (startWatching calls reloads).crowd := by
  have starting : ∀ l ∈ (startWatching calls reloads).crowd,
      l.group? = none ∧ l.holds = 0 ∧ l.closed = 0 ∧ l.doneRead = 0 := by
    intro l mem
    rcases mem_append.mp (mem_coe.mp mem) with monitor | reload
    · obtain ⟨call, -, rfl⟩ := mem_map.mp monitor
      exact ⟨rfl, rfl, rfl, rfl⟩
    · rw [List.eq_of_mem_replicate reload]
      exact ⟨rfl, rfl, rfl, rfl⟩
  refine ⟨fun group => (total_eq_zero _ fun l mem => ?_).symm,
    total_eq_zero _ fun l mem => (starting l mem).2.1,
    total_eq_zero _ fun l mem => (starting l mem).2.2.1,
    fun l mem => (starting l mem).2.2.2.le⟩
  rw [memberOf, (starting l mem).1]
  rfl

theorem Joined.after (calls : List MonitorCall) (reloads : Nat) (moves : List (Move Answer)) :
    Joined (watchProgram.after (startWatching calls reloads) moves).shared
      (watchProgram.after (startWatching calls reloads) moves).crowd :=
  keeps.run_always moves (initial calls reloads)

variable {s : WatchedCluster} {routines : List Watcher}

/-- While a `reload` waits it holds the lock, and `done` is closed. -/
theorem Joined.waiting {crowd : Multiset Watcher} (joined : Joined s crowd) (waits : .waits ∈ crowd)
    : s.locked = true ∧ s.doneClosed = true := by
  have holder := le_total holds waits
  have closer := le_total closed waits
  rw [joined.held] at holder
  rw [joined.closing] at closer
  constructor
  · by_contra free
    simp [free, holds] at holder
  · by_contra unclosed
    simp [unclosed, closed] at closer

/-- A goroutine of the current group returns by its own steps, and changes nothing else than its
group and the log. -/
def Returns (s : WatchedCluster) (l : Watcher) : Prop :=
  ∃ choices opened,
    watchProgram.alone s l choices = some ({ s.leave s.generation with opened }, .returned)

namespace Returns

variable {s : WatchedCluster} {l after : Watcher}

theorem of_go {opened : List Opening}
    (acted : watchProgram.act s l .go = some ({ s with opened }, after, []))
    (returns : Returns { s with opened } after) : Returns s l := by
  obtain ⟨choices, opened, alone⟩ := returns
  refine ⟨.go :: choices, opened, ?_⟩
  rwa [Program.alone, acted]

variable (key : String) (rev : Int)

section

variable (closed : s.doneClosed = true) {events : List Event}

include closed

theorem selects {done : Nat} (read : done ≤ s.generation) :
    Returns s (.selects s.generation key rev done) := by
  have isClosed : s.isClosed done = true := by
    rcases Nat.lt_or_eq_of_le read with earlier | same
    · simp [isClosed, earlier]
    · simp [isClosed, same, closed]
  refine ⟨[.done], s.opened, ?_⟩
  simp [Program.alone, watchProgram, proceed, isClosed, leave]

theorem listens : Returns s (.listens s.generation key rev) :=
  of_go rfl (selects key rev closed (Nat.le_refl _))

theorem streams : Returns s (.streams s.generation key rev) :=
  of_go rfl (listens (s := s.opens key) key rev closed)

theorem notifies (sent : List Delivery) :
    Returns s (.notifies (.watcher s.generation) key rev sent) := by
  induction sent with
  | nil => exact of_go rfl (streams key rev closed)
  | cons first sent ih =>
    exact of_go rfl ih

theorem applies (listeners : List Nat) (unknown : events.any Event.locks = false) :
    Returns s (.applies s.generation key rev listeners events) := by
  induction events with
  | nil => exact of_go rfl (listens key rev closed)
  | cons ev events ih =>
    rw [any_cons, Bool.or_eq_false_iff] at unknown
    refine of_go ?_ (ih unknown.2)
    simp [watchProgram, proceed, unknown.1]

theorem tells (listeners : List Nat) (unknown : events.any Event.locks = false)
    (sent : List Delivery) : Returns s (.tells s.generation key rev listeners events sent) := by
  induction sent with
  | nil => exact of_go rfl (applies key rev closed listeners unknown)
  | cons first sent ih =>
    exact of_go rfl ih

/-- Every goroutine of the group that does not need the lock returns. -/
theorem of_calm (own : l.group? = some s.generation) (calm : l.needsLock = false)
    (read : l.doneRead ≤ s.generation) : Returns s l := by
  cases l
  case notifies caller key rev sent =>
    cases caller
    · cases own
    · cases own
      exact notifies key rev closed sent
  case streams group key rev =>
    cases own
    exact streams key rev closed
  case listens group key rev =>
    cases own
    exact listens key rev closed
  case selects group key rev done =>
    cases own
    exact selects key rev closed read
  case applies group key rev listeners events =>
    cases own
    exact applies key rev closed listeners calm
  case tells group key rev listeners events sent =>
    cases own
    exact tells key rev closed listeners calm sent
  all_goals simp [group?, needsLock] at own calm

end

end Returns

/-- No goroutine of the current group needs the lock. -/
def Calm (s : State WatchedCluster Watcher) : Prop :=
  ∀ l ∈ s.routines, l.group? = some s.shared.generation → l.needsLock = false

theorem Joined.exists_member (joined : Joined s routines) (busy : s.active s.generation ≠ 0) :
    ∃ (i : Nat) (l : Watcher), routines[i]? = some l ∧ l.group? = some s.generation := by
  by_contra alone
  apply busy
  rw [joined.counted, total_eq_zero_iff]
  intro l mem
  obtain ⟨i, found⟩ := getElem?_of_mem (mem_coe.mp mem)
  exact if_neg fun own => alone ⟨i, l, found, own⟩

/-- The goroutines of the group return one after the other, and then the lock is released. -/
theorem Calm.unlocks (calm : Calm ⟨s, routines⟩) (joined : Joined s routines)
    (waits : .waits ∈ routines) :
    ∃ more, (watchProgram.after ⟨s, routines⟩ more).shared.locked = false := by
  generalize size : s.active s.generation = count
  obtain ⟨k, waiting⟩ := getElem?_of_mem waits
  induction count generalizing s routines with
  | zero =>
    have acted : watchProgram.act s .waits (.visited ⟨id, fun _ => .refl _⟩) =
        some (s.renew, _, []) := if_pos size
    exact ⟨[.act k _], by rw [watchProgram.after_act acted waiting]; rfl⟩
  | succ count ih =>
    obtain ⟨i, l, found, own⟩ := joined.exists_member (by omega)
    have mem : l ∈ routines := mem_of_getElem? found
    obtain ⟨choices, opened, alone⟩ := Returns.of_calm (joined.waiting waits).2 own
      (calm l mem own) (joined.read l mem)
    have returned := watchProgram.after_alone alone found
    have stillJoined := Joined.keeps.run_always (choices.map (Move.act i))
      (s := ⟨s, routines⟩) joined
    rw [returned] at stillJoined
    have elsewhere : i ≠ k := by
      rintro rfl
      rw [Option.some.inj (found.symm.trans waiting)] at own
      cases own
    have stillWaiting : (routines.set i .returned)[k]? = some .waits := by
      rw [getElem?_set_ne elsewhere, waiting]
    have fewer : (s.leave s.generation).active s.generation = count := by
      simp [leave, size]
    have stillCalm : Calm ⟨{ s.leave s.generation with opened }, routines.set i .returned⟩ := by
      intro other left group
      rcases mem_or_eq_of_mem_set left with old | rfl
      · exact calm other old group
      · cases group
    obtain ⟨more, unlocked⟩ := ih stillCalm stillJoined
      (mem_of_getElem? stillWaiting) fewer stillWaiting
    refine ⟨choices.map (Move.act i) ++ more, ?_⟩
    rwa [watchProgram.after_append, returned]

/-- A goroutine of the group needs the lock that is held. -/
structure Blocked (group : Nat) (s : WatchedCluster) (crowd : Multiset Watcher) : Prop where
  joined : Joined s crowd
  locked : s.locked = true
  current : s.generation = group
  needs : ∃ l ∈ crowd, l.group? = some group ∧ l.needsLock = true

theorem Blocked.keeps (group : Nat) : Keeps watchProgram (fun _ _ => True) (Blocked group) where
  act := by
    rintro s i answer l s' after started rest possible found whole acted
      ⟨joined, locked, current, needy, mem, own, needs⟩
    have moved := proceeds acted
    have busy : 1 ≤ s.shared.active group := by
      rw [joined.counted group]
      have one := le_total (memberOf group) mem
      rwa [memberOf, if_pos own] at one
    have stays : s'.locked = true ∧ s'.generation = group := by
      rcases moved.lock_cases with
        ⟨sameLock, -, same, -⟩ | ⟨-, -, free, -⟩ | ⟨-, -, rfl⟩ | ⟨-, -, idle, -⟩
      · exact ⟨sameLock.trans locked, same.trans current⟩
      · rw [locked] at free
        cases free
      · exact ⟨locked, current⟩
      · rw [current] at idle
        omega
    refine ⟨Joined.keeps.act possible found whole acted joined, stays.1, stays.2, ?_⟩
    rcases mem_cons.mp mem with rfl | other
    · obtain ⟨stillNeeds, same⟩ := moved.needsLock_kept locked needs
      exact ⟨after, mem_cons_self _ _, same.trans own, stillNeeds⟩
    · exact ⟨needy, mem_cons_of_mem (mem_add.mpr (Or.inr other)), own, needs⟩
  meet := by
    intro s i j a b s' sender receiver rest _ _ _ met _
    cases met

/-- A goroutine that needs the lock does not return while it is held. -/
theorem not_returned_of_needsLock {s' : WatchedCluster} {l : Watcher} {choices : List Answer}
    (locked : s.locked = true) (needs : l.needsLock = true) :
    watchProgram.alone s l choices ≠ some (s', .returned) := by
  induction choices generalizing s l with
  | nil =>
    rw [Program.alone]
    rintro ⟨⟩
    cases needs
  | cons answer choices ih =>
    rw [Program.alone]
    split
    · rename_i s after acted
      have moved := proceeds acted
      refine ih ?_ (moved.needsLock_kept locked needs).1
      rcases moved.lock_cases with ⟨same, -⟩ | ⟨rfl, -⟩ | ⟨rfl, -⟩ | ⟨rfl, -⟩
      · exact same.trans locked
      all_goals cases needs
    · simp

/-- While a `reload` waits, every goroutine of the group can return, and the lock can be released,
if and only if none of them needs the lock. -/
theorem reload_unlocks_iff (calls : List MonitorCall) (reloads : Nat) (moves : List (Move Answer))
    (waits : .waits ∈ (watchProgram.after (startWatching calls reloads) moves).routines) :
    ((∀ l ∈ (watchProgram.after (startWatching calls reloads) moves).routines,
        l.group? =
          some (watchProgram.after (startWatching calls reloads) moves).shared.generation →
        ∃ choices s', watchProgram.alone
          (watchProgram.after (startWatching calls reloads) moves).shared l choices =
            some (s', .returned)) ↔
      Calm (watchProgram.after (startWatching calls reloads) moves)) ∧
    ((∃ more, (watchProgram.after (startWatching calls reloads)
        (moves ++ more)).shared.locked = false) ↔
      Calm (watchProgram.after (startWatching calls reloads) moves)) := by
  have joined := Joined.after calls reloads moves
  simp only [watchProgram.after_append]
  generalize watchProgram.after (startWatching calls reloads) moves = s at *
  obtain ⟨locked, closed⟩ := joined.waiting (mem_coe.mpr waits)
  refine ⟨⟨?_, ?_⟩, ⟨?_, ?_⟩⟩
  · intro returns l mem own
    obtain ⟨choices, s', alone⟩ := returns l mem own
    by_contra needs
    exact not_returned_of_needsLock locked (by simpa using needs) alone
  · intro calm l mem own
    obtain ⟨choices, opened, alone⟩ :=
      Returns.of_calm closed own (calm l mem own) (joined.read l mem)
    exact ⟨choices, _, alone⟩
  · rintro ⟨more, unlocked⟩ l mem own
    by_contra needs
    have blocked : Blocked s.shared.generation s.shared s.crowd :=
      ⟨joined, locked, rfl, l, mem_coe.mpr mem, own, by simpa using needs⟩
    have stillLocked := ((Blocked.keeps _).run_always more blocked).locked
    rw [unlocked] at stillLocked
    cases stillLocked
  · intro calm
    exact calm.unlocks joined waits

theorem reload_unlocks_iff_watching :
    .waits ∈ (watchProgram.after (startWatching [⟨"a", 0, true⟩] 1)
      (loadsNothing.map (.act 0) ++ [.act 2 .go, .act 2 .go, .act 1 .go, .act 1 .go])).routines ∧
    ∃ more, (watchProgram.after (startWatching [⟨"a", 0, true⟩] 1)
      ((loadsNothing.map (.act 0) ++ [.act 2 .go, .act 2 .go, .act 1 .go, .act 1 .go]) ++
        more)).shared.locked = false := by
  have waits : .waits ∈ (watchProgram.after (startWatching [⟨"a", 0, true⟩] 1)
      (loadsNothing.map (.act 0) ++
        [.act 2 .go, .act 2 .go, .act 1 .go, .act 1 .go])).routines := by
    decide +kernel
  exact ⟨waits, (reload_unlocks_iff _ _ _ waits).2.mpr (by unfold Calm; decide +kernel)⟩

/-- With one goroutine in the group, which has received events. -/
theorem next_eq_none {s : State WatchedCluster Watcher} {group : Nat} {key : String} {rev : Int}
    {events : List Event}
    (positions : s.routines = [.returned, .waits, .handles group key rev events])
    (locked : s.shared.locked = true) (busy : s.shared.active s.shared.generation ≠ 0)
    (move : Move Answer) : watchProgram.next s move = none := by
  by_contra possible
  obtain ⟨s', moved⟩ := Option.ne_none_iff_exists'.mp possible
  rcases next_cases moved with
    ⟨i, answer, l, after, started, rest, -, found, acted, -⟩ |
    ⟨i, j, a, b, sender, receiver, rest, -, -, -, met, -⟩
  · have proceeds := proceeds acted
    have mem := mem_of_getElem? found
    rw [positions] at mem
    simp only [List.mem_cons, not_mem_nil, or_false] at mem
    generalize s'.shared = shared at proceeds
    rcases mem with rfl | rfl | rfl
    · cases proceeds
    · cases proceeds with
      | renews visit idle => exact busy idle
    · cases proceeds with
      | handles group key rev events free =>
        rw [locked] at free
        cases free
  · cases met

/-- A goroutine has received an event when `reload` takes the lock; then nobody can go on. -/
theorem reload_deadlocks :
    .waits ∈ (watchProgram.after (startWatching [⟨"a", 0, true⟩] 1)
      (loadsNothing.map (.act 0) ++ [.act 2 .go, .act 2 .go,
        .act 2 (.events [⟨.put, ⟨"a", "v"⟩⟩]), .act 1 .go, .act 1 .go])).routines ∧
    ∀ move, watchProgram.next (watchProgram.after (startWatching [⟨"a", 0, true⟩] 1)
      (loadsNothing.map (.act 0) ++ [.act 2 .go, .act 2 .go,
        .act 2 (.events [⟨.put, ⟨"a", "v"⟩⟩]), .act 1 .go, .act 1 .go])) move = none := by
  refine ⟨by decide +kernel, ?_⟩
  exact @next_eq_none _ 0 "a" 1 [⟨.put, ⟨"a", "v"⟩⟩] (by decide +kernel) (by decide +kernel)
    (by decide +kernel)

end FastGoZero.Discov
