import FastGoZero.Collection.Cache
import FastGoZero.Collection.TimingRequests
import FastGoZero.Lib.Concurrent

/-!
# The timers of a cache

Goroutines call `SetWithExpire`, `Del` and `Get` at the same time. A lock section is one step, and
so is each request to the timing wheel, which handles them in the order in which they are sent. The
request of a call is sent after its lock is released, that of an eviction before. A timer that
fires deletes its key in a goroutine of its own; the source runs the tasks of one tick one after
the other, which is one of the interleavings here.

A key in the cache is covered by a pending timer, by a request for one, or by a `Del` that is about
to run. The request of a `Del` takes the timer of its key away, so it uncovers a key that was
stored again after the `Del` and before its request.
-/

namespace FastGoZero.Collection

open Lib Lib.Concurrent List Option Multiset

universe u v
variable {K : Type u} {V : Type v} [DecidableEq K]

/-- The variables that the goroutines share. -/
structure TimedStore (K : Type u) (V : Type v) where
  store : Store K V
  locked : Bool
  wheel : TimingWheel K V

/-- A call that is about to take the lock; the expiry is what `AroundDuration` returns. -/
inductive LockedCall (K : Type u) (V : Type v) where
  | set (key : K) (value : V) (expiry : Int)
  | del (key : K)
  | get (key : K)

/-- Where a goroutine is: before the lock, under it with the timers of evicted keys to remove, or
about to send its request. One goroutine is the ticker of the wheel. -/
inductive CachePosition (K : Type u) (V : Type v) where
  | call (call : LockedCall K V)
  | inside (victims : List K) (request : Option (WheelRequest K V))
  | sends (request : WheelRequest K V)
  | done
  | ticker

variable (s : Store K V)

/-- What a call does under the lock: the store, the evicted keys and the request to be sent. -/
def LockedCall.run : LockedCall K V → Store K V × List K × Option (WheelRequest K V)
  | .set key value expiry =>
    ((s.setLocked key value).2.1, (s.setLocked key value).2.2,
      some (Cache.timerRequest (s.setLocked key value).1 key value expiry))
  | .del key => ((s.delLocked key).1, (s.delLocked key).2, some (.removeTimer key))
  | .get key => ((s.doGet key).2.1, (s.doGet key).2.2, none)

def WheelRequest.toCall : WheelRequest K V → TimingWheel.Call K V
  | .setTimer key value delay => .setTimer (some key) value delay
  | .moveTimer key delay => .moveTimer (some key) delay
  | .removeTimer key => .removeTimer (some key)

/-- The tasks that the wheel executes delete their keys. -/
def started : List (TimingOutput K V) → List (CachePosition K V)
  | [] => []
  | .executed key _ :: outputs => .call (.del key) :: started outputs
  | .drained _ _ :: outputs => started outputs

open TimingWheel

namespace TimedStore

/-- The cache of an option `WithLimit`, with a wheel of 300 slots of a second. -/
def new (limit : Int) : TimedStore K V :=
  ⟨Store.withLimit limit, false, init 1000000000 300⟩

def wheelStep (s : TimedStore K V) (call : TimingWheel.Call K V) (after : CachePosition K V) :
    TimedStore K V × CachePosition K V × List (CachePosition K V) :=
  ({ s with wheel := (s.wheel.step call).1 }, after, started (s.wheel.step call).2)

def proceed (s : TimedStore K V) :
    CachePosition K V → Option (TimedStore K V × CachePosition K V × List (CachePosition K V))
  | .call call =>
    if s.locked then none
    else
      some ({ s with store := (call.run s.store).1, locked := true },
        .inside (call.run s.store).2.1 (call.run s.store).2.2, [])
  | .inside (victim :: victims) request =>
    some (s.wheelStep (.removeTimer (some victim)) (.inside victims request))
  | .inside [] none => some ({ s with locked := false }, .done, [])
  | .inside [] (some request) => some ({ s with locked := false }, .sends request, [])
  | .sends request => some (s.wheelStep request.toCall .done)
  | .ticker => some (s.wheelStep .tick .ticker)
  | .done => none

end TimedStore

def cacheProgram : Program (TimedStore K V) (CachePosition K V) Unit where
  act s position _ := s.proceed position
  meet _ _ _ := none

variable {key : K}

namespace TimingWheel

variable {tw : TimingWheel K V}

theorem AllListed.pending_isSome_iff (listed : tw.AllListed) (key : K) :
    (tw.pending key).isSome ↔ (tw.seat key).isSome := by
  cases seated : tw.seat key with
  | none =>
    rw [pending_eq_none (by simp [seated])]
    simp
  | some seat =>
    rw [pending_of_seat seated (listed key seat seated)]
    simp

theorem step_setTimer_pending (inv : tw.Inv) (listed : tw.AllListed) (key : K) (value : V)
    {delay : Int} (positive : 0 < delay) :
    ((tw.step (.setTimer (some key) value delay)).1.pending key).isSome := by
  have listedAfter := step_allListed tw inv listed (.setTimer (some key) value delay) (by simp)
  rw [listedAfter.pending_isSome_iff, step_setTimer positive]
  cases found : tw.timers.get key with
  | none =>
    have fresh := setTask_seat_fresh tw inv ⟨⟨delay, key⟩, value, 0, 0, false⟩ found
    exact isSome_of_eq_some fresh
  | some timer =>
    have moved := setTask_seat_moved tw inv ⟨⟨delay, key⟩, value, 0, 0, false⟩ timer found
    have seated : (tw.seat key).isSome := by
      rw [isSome_iff_ne_none, ne_eq, inv.seat_none_iff, found]
      simp
    obtain ⟨seat, isSeat⟩ := isSome_iff_exists.mp seated
    rw [isSeat] at moved
    exact isSome_of_eq_some moved

theorem step_moveTimer_pending (inv : tw.Inv) (listed : tw.AllListed)
    (waiting : (tw.pending key).isSome) (delay : Int) :
    ((tw.step (.moveTimer (some key) delay)).1.pending key).isSome := by
  rcases Int.lt_or_le 0 delay with positive | refused
  · have listedAfter := step_allListed tw inv listed (.moveTimer (some key) delay) (by simp)
    rw [listedAfter.pending_isSome_iff, step_moveTimer positive]
    rw [listed.pending_isSome_iff] at waiting
    rcases Int.lt_or_le delay tw.interval with soon | late
    · rwa [moveTask_soon_state tw ⟨delay, key⟩ soon]
    · have moved := moveTask_seat_self tw inv ⟨delay, key⟩ late
      obtain ⟨seat, isSeat⟩ := isSome_iff_exists.mp waiting
      rw [isSeat] at moved
      exact isSome_of_eq_some moved
  · simpa [step, Call.send, refused] using waiting

/-- A key whose timer is not removed keeps it, or its task is executed. -/
theorem step_pending_or_executed (inv : tw.Inv) (listed : tw.AllListed) {call : Call K V}
    (waiting : (tw.pending key).isSome) (undrained : call ≠ .drain)
    (kept : call ≠ .removeTimer (some key)) :
    ((tw.step call).1.pending key).isSome ∨ executions key (tw.step call).2 ≠ [] := by
  have spared (spares : call.Spares key) (quiet : call.isTick = false) :
      ((tw.step call).1.pending key).isSome := by
    rwa [(step_spared tw inv key call spares quiet).1]
  cases call with
  | setTimer other value delay =>
    left
    by_cases own : other = some key
    · subst own
      rcases Int.lt_or_le 0 delay with positive | refused
      · exact step_setTimer_pending inv listed key value positive
      · simpa [step, Call.send, refused] using waiting
    · exact spared own rfl
  | moveTimer other delay =>
    left
    by_cases own : other = some key
    · subst own
      exact step_moveTimer_pending inv listed waiting delay
    · exact spared own rfl
  | removeTimer other =>
    left
    exact spared (fun own => kept (by rw [own])) rfl
  | drain => exact absurd rfl undrained
  | tick =>
    obtain ⟨counted, ran⟩ := onTick_pending tw inv key
    obtain ⟨⟨ticks, value⟩, isPending⟩ := isSome_iff_exists.mp waiting
    rw [step_tick, counted, ran, isPending]
    rcases Nat.lt_or_ge 1 ticks with later | now
    · left
      rw [countdown, if_neg (Nat.not_le.mpr later)]
      rfl
    · right
      rw [expired, if_pos now]
      exact cons_ne_nil value []

end TimingWheel

variable {outputs : List (TimingOutput K V)}

theorem mem_started (executed : executions key outputs ≠ []) :
    .call (.del key) ∈ started outputs := by
  induction outputs with
  | nil => exact absurd rfl executed
  | cons output outputs ih =>
    have split := executions_append key [output] outputs
    rw [singleton_append] at split
    rw [split] at executed
    cases output with
    | executed other value =>
      by_cases own : other = key
      · subst own
        exact mem_cons_self
      · rw [executions_executed, if_neg own, nil_append] at executed
        exact mem_cons_of_mem _ (ih executed)
    | drained other value => exact ih executed

namespace Store

/-- Keys are only taken away from the values, and the evicted ones are gone. -/
structure Shrinks (data : GoMap K V) (result : Store K V × List K) : Prop where
  subset : ∀ key, key ∈ result.1.data → key ∈ data
  victims_gone : ∀ victim ∈ result.2, victim ∉ result.1.data

omit [DecidableEq K] in
theorem shrinks_self (s : Store K V) : Shrinks s.data (s, []) := ⟨fun _ => id, by simp⟩

theorem shrinks_removeElement (klru : KeyLru K) (e : Element K) :
    Shrinks s.data (s.removeElement klru e) where
  subset key present := (AList.mem_erase.mp present).2
  victims_gone victim mem present := by
    rw [List.mem_singleton.mp mem] at present
    exact (AList.mem_erase.mp present).1 rfl

theorem shrinks_removeOldest (klru : KeyLru K) : Shrinks s.data (s.removeOldest klru) := by
  fun_cases removeOldest s klru with
  | case1 => exact ⟨fun _ => id, by simp⟩
  | case2 e => exact shrinks_removeElement s klru e

theorem shrinks_lruAdd (key : K) : Shrinks s.data (s.lruAdd key) := by
  fun_cases lruAdd s key with
  | case3 _ _ _ _ after => exact shrinks_removeOldest after _
  | _ => exact ⟨fun _ => id, by simp⟩

theorem shrinks_lruRemove (key : K) : Shrinks s.data (s.lruRemove key) := by
  fun_cases lruRemove s key with
  | case2 klru _ e => exact shrinks_removeElement s klru e
  | _ => exact shrinks_self s

theorem shrinks_doGet (key : K) : Shrinks s.data (s.doGet key).2 := by
  unfold doGet
  split
  · exact shrinks_lruAdd s key
  · exact shrinks_self s

end Store

/-- What holds of the store after a lock section. -/
structure LockedCall.Leaves (call : LockedCall K V) (before after : Store K V) (victims : List K)
    (request : Option (WheelRequest K V)) : Prop where
  subset : ∀ key, key ∈ after.data →
    key ∈ before.data ∨ ∃ value expiry, call = .set key value expiry
  victims_gone : ∀ victim ∈ victims, victim ∉ after.data
  removed_gone : ∀ key, request = some (.removeTimer key) → key ∉ after.data
  stored : ∀ key value expiry, call = .set key value expiry → key ∉ before.data →
    request = some (.setTimer key value expiry)
  deleted : ∀ key, call = .del key → key ∉ after.data

theorem LockedCall.run_leaves (call : LockedCall K V) (s : Store K V) :
    call.Leaves s (call.run s).1 (call.run s).2.1 (call.run s).2.2 := by
  cases call with
  | set key value expiry =>
    have shrinks := Store.shrinks_lruAdd { s with data := s.data.insert key value } key
    refine ⟨?_, shrinks.victims_gone, ?_, ?_, by simp⟩
    · intro probe present
      rcases (AList.mem_insert s.data).mp (shrinks.subset probe present) with rfl | old
      · exact Or.inr ⟨value, expiry, rfl⟩
      · exact Or.inl old
    · intro other request
      simp only [LockedCall.run, Cache.timerRequest, some.injEq] at request
      split at request <;> cases request
    · intro other value' expiry' same absent
      cases same
      have none : (s.data.lookup key).isSome = false := by
        rwa [isSome_eq_false_iff, isNone_iff_eq_none, AList.lookup_eq_none]
      simp only [LockedCall.run, Store.setLocked, Cache.timerRequest, none]
      rfl
  | del key =>
    have shrinks := Store.shrinks_lruRemove { s with data := s.data.erase key } key
    have gone : key ∉ (s.delLocked key).1.data := by
      intro present
      exact (AList.mem_erase.mp (shrinks.subset key present)).1 rfl
    refine ⟨?_, shrinks.victims_gone, ?_, by simp, ?_⟩
    · intro probe present
      exact Or.inl (AList.mem_erase.mp (shrinks.subset probe present)).2
    · rintro other ⟨⟩
      exact gone
    · rintro other ⟨⟩
      exact gone
  | get key =>
    have shrinks := Store.shrinks_doGet s key
    refine ⟨fun probe present => Or.inl (shrinks.subset probe present), shrinks.victims_gone,
      ?_, by simp, by simp⟩
    rintro other ⟨⟩

variable {request : Option (WheelRequest K V)}

namespace CachePosition

def locks : CachePosition K V → Nat
  | inside _ _ => 1
  | _ => 0

def requestRemoves : Option (WheelRequest K V) → List K
  | some (.removeTimer key) => [key]
  | _ => []

omit [DecidableEq K] in
theorem eq_of_mem_requestRemoves (mem : key ∈ requestRemoves request) :
    request = some (.removeTimer key) := by
  unfold requestRemoves at mem
  split at mem
  · rw [List.mem_singleton.mp mem]
  · exact absurd mem not_mem_nil

/-- The keys whose timers the goroutine is about to remove. -/
def removes : CachePosition K V → List K
  | inside victims request => victims ++ requestRemoves request
  | sends request => requestRemoves (some request)
  | _ => []

def requestCovers (key : K) : Option (WheelRequest K V) → Prop
  | some (.setTimer other _ delay) => other = key ∧ 0 < delay
  | _ => False

/-- The goroutine is about to make a timer for the key, or to delete the key. -/
def covers (key : K) : CachePosition K V → Prop
  | call (.del other) => other = key
  | inside _ request => requestCovers key request
  | sends request => requestCovers key (some request)
  | _ => False

end CachePosition

open CachePosition

/-- Every key of the store is covered, and no timer is about to be removed of a key in it. -/
structure Covered (s : TimedStore K V) (crowd : Multiset (CachePosition K V)) : Prop where
  wheel_inv : s.wheel.Inv
  wheel_listed : s.wheel.AllListed
  exclusive : total locks crowd = s.locked.toNat
  removed : ∀ position ∈ crowd, ∀ key ∈ position.removes, key ∉ s.store.data
  covered : ∀ key, key ∈ s.store.data →
    (s.wheel.pending key).isSome ∨ ∃ position ∈ crowd, position.covers key

omit [DecidableEq K] in
theorem mem_started_cases {position : CachePosition K V} (mem : position ∈ started outputs) :
    ∃ key, position = .call (.del key) := by
  induction outputs with
  | nil => exact absurd mem not_mem_nil
  | cons output outputs ih =>
    cases output with
    | executed key value =>
      rcases mem_cons.mp mem with rfl | later
      · exact ⟨key, rfl⟩
      · exact ih later
    | drained key value => exact ih mem

namespace Covered

variable {s : TimedStore K V} {rest : Multiset (CachePosition K V)}

/-- The wheel handles a request of a goroutine, or a tick. -/
theorem wheelStep {position after : CachePosition K V} {call : Call K V}
    (covered : Covered s (position ::ₘ rest)) (undrained : call ≠ .drain)
    (removes : ∀ key, call = .removeTimer (some key) → key ∈ position.removes)
    (fewer : ∀ key ∈ after.removes, key ∈ position.removes)
    (sameLock : after.locks = position.locks)
    (settles : ∀ key, position.covers key →
      after.covers key ∨ ((s.wheel.step call).1.pending key).isSome) :
    Covered (s.wheelStep call after).1
      (after ::ₘ ((started (s.wheel.step call).2 : Multiset (CachePosition K V)) + rest)) where
  wheel_inv := step_inv s.wheel covered.wheel_inv call
  wheel_listed :=
    step_allListed s.wheel covered.wheel_inv covered.wheel_listed call undrained
  exclusive := by
    have none : total locks
        (started (s.wheel.step call).2 : Multiset (CachePosition K V)) = 0 := by
      apply total_eq_zero
      intro position mem
      obtain ⟨key, rfl⟩ := mem_started_cases (mem_coe.mp mem)
      rfl
    have before := covered.exclusive
    rw [total_cons] at before
    rwa [total_cons, total_add, none, sameLock, Nat.zero_add]
  removed := by
    intro other mem key among
    rcases mem_cons.mp mem with rfl | mem
    · exact covered.removed position (mem_cons_self _ _) key (fewer key among)
    · rcases mem_add.mp mem with new | old
      · obtain ⟨fired, rfl⟩ := mem_started_cases (mem_coe.mp new)
        exact absurd among not_mem_nil
      · exact covered.removed other (mem_cons_of_mem old) key among
  covered := by
    intro key present
    rcases covered.covered key present with waiting | ⟨other, mem, covers⟩
    · have kept : call ≠ .removeTimer (some key) := by
        intro same
        exact covered.removed position (mem_cons_self _ _) key (removes key same) present
      rcases step_pending_or_executed covered.wheel_inv covered.wheel_listed waiting
        undrained kept with pending | executed
      · exact Or.inl pending
      · right
        refine ⟨.call (.del key), ?_, rfl⟩
        apply Multiset.mem_cons_of_mem
        exact mem_add.mpr (Or.inl (mem_coe.mpr (mem_started executed)))
    · rcases mem_cons.mp mem with rfl | old
      · rcases settles key covers with still | pending
        · exact Or.inr ⟨after, mem_cons_self _ _, still⟩
        · exact Or.inl pending
      · right
        refine ⟨other, ?_, covers⟩
        exact mem_cons_of_mem (mem_add.mpr (Or.inr old))

/-- A goroutine takes the lock and runs its section. -/
theorem lockSection {call : LockedCall K V} (covered : Covered s (.call call ::ₘ rest))
    (free : s.locked = false)
    (condition : ∀ key value expiry, call = .set key value expiry →
      (key ∉ s.store.data → 0 < expiry) ∧ .sends (.removeTimer key) ∉ rest) :
    Covered { s with store := (call.run s.store).1, locked := true }
      (.inside (call.run s.store).2.1 (call.run s.store).2.2 ::ₘ rest) := by
  have leaves := call.run_leaves s.store
  have nobody : ∀ position ∈ rest, position.locks = 0 := by
    have before := covered.exclusive
    rw [free, Bool.toNat_false, total_eq_zero_iff] at before
    exact fun position mem => before position (mem_cons_of_mem mem)
  refine ⟨covered.wheel_inv, covered.wheel_listed, ?_, ?_, ?_⟩
  · rw [total_cons, (total_eq_zero_iff _ _).mpr nobody]
    rfl
  · intro position mem key among
    rcases mem_cons.mp mem with rfl | old
    · rcases mem_append.mp among with victim | requested
      · exact leaves.victims_gone key victim
      · exact leaves.removed_gone key (eq_of_mem_requestRemoves requested)
    · -- a key in the store again is one that this section stored
      intro present
      rcases leaves.subset key present with before | ⟨value, expiry, rfl⟩
      · exact covered.removed position (mem_cons_of_mem old) key among before
      · cases position with
        | call call => exact absurd among not_mem_nil
        | inside victims request => exact absurd (nobody _ old) Nat.one_ne_zero
        | sends request =>
          have same := some.inj (eq_of_mem_requestRemoves among)
          subst same
          exact (condition key value expiry rfl).2 old
        | done | ticker => exact absurd among not_mem_nil
  · intro key present
    by_cases before : key ∈ s.store.data
    · rcases covered.covered key before with waiting | ⟨other, mem, covers⟩
      · exact Or.inl waiting
      · rcases mem_cons.mp mem with rfl | old
        · -- the section of a `Del` has deleted the key that it covered
          cases call with
          | del other =>
            obtain rfl : other = key := covers
            exact absurd present (leaves.deleted other rfl)
          | set other value expiry | get other => exact absurd covers id
        · exact Or.inr ⟨other, mem_cons_of_mem old, covers⟩
    · right
      rcases leaves.subset key present with old | ⟨value, expiry, rfl⟩
      · exact absurd old before
      · refine ⟨_, mem_cons_self _ _, ?_⟩
        have request := leaves.stored key value expiry rfl before
        rw [covers, request]
        exact ⟨rfl, (condition key value expiry rfl).1 before⟩

theorem unlock (covered : Covered s (.inside [] request ::ₘ rest)) {after : CachePosition K V}
    (outside : after.locks = 0) (sameRemoves : after.removes = requestRemoves request)
    (sameCovers : ∀ key, requestCovers key request → after.covers key) :
    Covered { s with locked := false } (after ::ₘ rest) := by
  refine ⟨covered.wheel_inv, covered.wheel_listed, ?_, ?_, ?_⟩
  · have before := covered.exclusive
    have bound := Bool.toNat_le s.locked
    rw [total_cons, locks] at before
    rw [total_cons, outside]
    change 0 + total locks rest = 0
    omega
  · intro position mem key among
    rcases mem_cons.mp mem with rfl | old
    · rw [sameRemoves] at among
      exact covered.removed _ (mem_cons_self _ _) key among
    · exact covered.removed position (mem_cons_of_mem old) key among
  · intro key present
    rcases covered.covered key present with waiting | ⟨other, mem, covers⟩
    · exact Or.inl waiting
    · right
      rcases mem_cons.mp mem with rfl | old
      · exact ⟨after, mem_cons_self _ _, sameCovers key covers⟩
      · exact ⟨other, mem_cons_of_mem old, covers⟩

end Covered

/-- A key is stored only while no `Del` of it is between its lock section and its request, and a
new key gets a positive expiry. -/
def storesInTurn (s : State (TimedStore K V) (CachePosition K V)) : Move Unit → Prop
  | .act i _ => ∀ key value expiry,
      s.routines[i]? = some (.call (.set key value expiry)) → s.shared.locked = false →
        (key ∉ s.shared.store.data → 0 < expiry) ∧ .sends (.removeTimer key) ∉ s.routines
  | .meet _ _ => True

theorem covered_keeps :
    Keeps (cacheProgram : Program (TimedStore K V) (CachePosition K V) Unit) storesInTurn
      Covered where
  act := by
    intro s i choice position shared after started rest condition found whole moved covered
    change s.shared.proceed position = some (shared, after, started) at moved
    unfold TimedStore.proceed at moved
    split at moved
    · split at moved
      · exact absurd moved (by simp)
      · rename_i free
        cases moved
        rw [coe_nil, zero_add]
        refine covered.lockSection (Bool.eq_false_iff.mpr free) ?_
        rintro key value expiry rfl
        obtain ⟨positive, noDel⟩ := condition key value expiry found (Bool.eq_false_iff.mpr free)
        refine ⟨positive, fun mem => noDel ?_⟩
        have inCrowd : sends (.removeTimer key) ∈ s.crowd := by
          rw [whole]
          exact mem_cons_of_mem mem
        exact mem_coe.mp inCrowd
    · rename_i victim victims request
      cases moved
      apply covered.wheelStep (by simp)
      · rintro key ⟨⟩
        exact mem_cons_self
      · intro key mem
        exact mem_cons_of_mem victim mem
      · rfl
      · intro key covers
        exact Or.inl covers
    · cases moved
      rw [coe_nil, zero_add]
      exact covered.unlock rfl rfl fun _ => False.elim
    · cases moved
      rw [coe_nil, zero_add]
      exact covered.unlock rfl rfl fun _ => id
    · rename_i request
      cases moved
      apply covered.wheelStep
      · cases request <;> simp [WheelRequest.toCall]
      · intro key same
        cases request <;> cases same
        exact List.mem_singleton_self key
      · exact fun key mem => absurd mem not_mem_nil
      · rfl
      · intro key covers
        right
        cases request with
        | setTimer other value delay =>
          obtain ⟨rfl, positive⟩ := covers
          exact step_setTimer_pending covered.wheel_inv covered.wheel_listed other value positive
        | moveTimer other delay | removeTimer other => exact absurd covers id
    · cases moved
      apply covered.wheelStep (by simp)
      · exact fun key same => absurd same (by simp)
      · exact fun key mem => mem
      · rfl
      · exact fun key covers => absurd covers id
    · exact absurd moved (by simp)
  meet := by
    intro s i j a b shared sender receiver rest _ _ _ together
    exact absurd together (by simp [cacheProgram])

/-- The calls of a run, each in a goroutine of its own, and the ticker. -/
def startCalls (limit : Int) (calls : List (LockedCall K V)) :
    State (TimedStore K V) (CachePosition K V) :=
  ⟨TimedStore.new limit, .ticker :: calls.map .call⟩

theorem covered_startCalls (limit : Int) (calls : List (LockedCall K V)) :
    Covered (startCalls limit calls).shared (startCalls limit calls).crowd := by
  have outside : ∀ position ∈ (startCalls limit calls).crowd,
      position.locks = 0 ∧ position.removes = [] := by
    intro position mem
    rcases mem_cons.mp (mem_coe.mp mem) with rfl | call
    · exact ⟨rfl, rfl⟩
    · obtain ⟨call, -, rfl⟩ := mem_map.mp call
      exact ⟨rfl, rfl⟩
  refine ⟨init_inv _ _ (by decide) (by decide), ?_, ?_, ?_, ?_⟩
  · exact @init_allListed K V _ 1000000000 300 _ rfl
  · exact (total_eq_zero_iff _ _).mpr fun position mem => (outside position mem).1
  · intro position mem key among
    rw [(outside position mem).2] at among
    exact absurd among not_mem_nil
  · intro key present
    exact absurd present (AList.notMem_empty key)

def CachePosition.quiet : CachePosition K V → Bool
  | done => true
  | ticker => true
  | _ => false

/-- In every interleaving in which keys are stored in turn, a key that is in the cache when no call
is on its way has a pending timer. -/
theorem timers_pending_when_quiet (limit : Int) (calls : List (LockedCall K V))
    (moves : List (Move Unit))
    (inTurn : Runs.Meets cacheProgram.step storesInTurn (startCalls limit calls) moves)
    (quiet : ∀ position ∈ (cacheProgram.after (startCalls limit calls) moves).routines,
      position.quiet = true)
    (key : K)
    (present : key ∈ (cacheProgram.after (startCalls limit calls) moves).shared.store.data) :
    ((cacheProgram.after (startCalls limit calls) moves).shared.wheel.pending key).isSome := by
  have covered := covered_keeps.run inTurn (covered_startCalls limit calls)
  rcases covered.covered key present with waiting | ⟨position, mem, covers⟩
  · exact waiting
  · have isQuiet := quiet position (mem_coe.mp mem)
    cases position with
    | call call | inside | sends => exact absurd isQuiet (by simp [CachePosition.quiet])
    | done | ticker => exact absurd covers id

/-- A key is stored and its timer set. -/
theorem timers_pending_when_quiet_stored :
    ((cacheProgram.after (startCalls 0 [LockedCall.set 1 "a" 2000000000])
      [.act 1 (), .act 1 (), .act 1 ()]).shared.wheel.pending 1).isSome := by
  apply timers_pending_when_quiet 0 [LockedCall.set 1 "a" 2000000000]
  · refine ⟨?_, ?_, ?_, trivial⟩
    · intro key value expiry same _
      cases same
      exact ⟨fun _ => by decide, by simp [startCalls]⟩
    · intro key value expiry same _
      cases same
    · intro key value expiry same _
      cases same
  · decide +kernel
  · decide +kernel

/-- All calls have returned, and the key is in the cache without a timer. -/
def neverExpires (s : State (TimedStore K V) (CachePosition K V)) (key : K) : Bool :=
  s.routines.all CachePosition.quiet && (s.shared.store.data.lookup key).isSome &&
    (s.shared.wheel.pending key).isNone

/-- A key is stored after the section of a `Del` and before its request, which then takes the new
timer away; and a key is stored with no expiry, for which the wheel refuses a timer. -/
theorem key_without_timer :
    neverExpires (cacheProgram.after
        (startCalls 0 [LockedCall.set 1 "a" 2000000000, .del 1, .set 1 "b" 2000000000])
        [.act 1 (), .act 1 (), .act 1 (), .act 2 (), .act 2 (), .act 3 (), .act 3 (), .act 3 (),
          .act 2 ()]) 1 = true ∧
      neverExpires (cacheProgram.after (startCalls 0 [LockedCall.set 1 "a" 0])
        [.act 1 (), .act 1 (), .act 1 ()]) 1 = true := by
  decide +kernel

/-- What `SetWithExpire` asks of the wheel: to remove the timers of evicted keys, and to make or
move its own. -/
def Store.setCalls (s : Store K V) (key : K) (value : V) (expiry : Int) :
    List (TimingWheel.Call K V) :=
  let (_, victims, request) := (LockedCall.set key value expiry).run s
  (Cache.removals victims ++ request.toList).map WheelRequest.toCall

/-- Until the next tick, requests for other keys do not execute the timer of a key. -/
theorem TimingWheel.run_untouched {tw : TimingWheel K V} (inv : tw.Inv)
    {calls : List (Call K V)}
    (spared : ∀ call ∈ calls, call.Spares key ∧ call.isTick = false) :
    executions key (tw.run calls).2 = [] := by
  induction calls generalizing tw with
  | nil => rfl
  | cons call calls ih =>
    obtain ⟨spares, quiet⟩ := spared call mem_cons_self
    rw [run_cons, executions_append, (step_spared tw inv key call spares quiet).2]
    exact ih (step_inv tw inv call) fun other mem => spared other (mem_cons_of_mem _ mem)

theorem TimingWheel.timerRequest_executions {tw : TimingWheel K V} (inv : tw.Inv)
    (listed : tw.AllListed) (present : Bool) (key : K) (value : V) (expiry : Int) :
    executions key (tw.step (Cache.timerRequest present key value expiry).toCall).2 = [] ↔
      ¬ (present = true ∧ (tw.pending key).isSome ∧ 0 < expiry ∧ expiry < tw.interval) := by
  rcases Int.lt_or_le 0 expiry with positive | refused
  · cases present with
    | false =>
      change executions key (tw.step (.setTimer (some key) value expiry)).2 = [] ↔ _
      rw [step_setTimer positive, setTask_executions tw inv]
      simp
    | true =>
      change executions key (tw.step (.moveTimer (some key) expiry)).2 = [] ↔ _
      rw [step_moveTimer positive, moveTask_executions tw inv, listed.pending_isSome_iff]
      cases tw.seat key <;> simp [positive]
  · cases present <;>
      simp [Cache.timerRequest, WheelRequest.toCall, step, Call.send, refused,
        Int.not_lt.mpr refused]

/-- The removals of evicted keys change nothing about the timer of another key. -/
theorem TimingWheel.run_stored {tw : TimingWheel K V} (inv : tw.Inv) (listed : tw.AllListed)
    {victims : List K} (kept : key ∉ victims) (present : Bool) (value : V) (expiry : Int)
    {later : List (Call K V)}
    (others : ∀ call ∈ later, call.Spares key ∧ call.isTick = false) :
    executions key (tw.run ((Cache.removals victims ++
        [Cache.timerRequest present key value expiry]).map WheelRequest.toCall ++ later)).2 = [] ↔
      ¬ (present = true ∧ (tw.pending key).isSome ∧ 0 < expiry ∧ expiry < tw.interval) := by
  induction victims generalizing tw with
  | nil =>
    rw [← timerRequest_executions inv listed]
    change executions key ((tw.step _).2 ++ ((tw.step _).1.run later).2) = [] ↔ _
    rw [executions_append, run_untouched (step_inv tw inv _) others, append_nil]
  | cons victim victims ih =>
    obtain ⟨other, rest⟩ := not_or.mp (mem_cons.not.mp kept)
    obtain ⟨same, silent⟩ := step_spared tw inv key (.removeTimer (some victim))
      (fun own => other (some.inj own).symm) rfl
    have sameInterval : (tw.step (.removeTimer (some victim))).1.interval = tw.interval := by
      change (tw.removeTask victim).interval = tw.interval
      unfold removeTask
      split <;> rfl
    rw [← same, ← sameInterval,
      ← ih (step_inv tw inv _) (step_allListed tw inv listed _ (by simp)) rest]
    change executions key ((tw.step (.removeTimer (some victim))).2 ++ _) = [] ↔ _
    rw [executions_append, silent, nil_append]
    rfl

end FastGoZero.Collection
