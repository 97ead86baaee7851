import FastGoZero.Executors.PeriodicalExecutor
import Mathlib.Tactic.Abel

/-!
# No task is lost

Each task is in one place: in the container, in a batch that a goroutine holds, in the channel,
or handed to `Execute`. The counter of batches in flight counts the batches on their way to the
loop, so that the loop does not quit while there is one.
-/

namespace FastGoZero.Executors

open Lib Lib.Concurrent List

universe u
variable {Task : Type u} {container : TaskContainer Task}

def Parcel.tasks (vals : Parcel Task) : Multiset Task := vals.batch.tasks

/-- The tasks of a batch, if there is one. -/
def tasksOf (vals : Option (Parcel Task)) : Multiset Task := (vals.map Parcel.tasks).getD 0

/-- The loop goes on after `executeTasks`. -/
def Caller.loops : Caller → Bool
  | .tick | .command => true
  | _ => false

namespace Position

/-- The tasks of the batch that a goroutine holds. -/
def held : Position Task → Multiset Task
  | addGuard _ vals | addUnlock _ vals _ | addStart _ vals => tasksOf vals
  | addSend _ vals | flushUnlock _ vals | execute _ vals | commandInflight vals
  | commandEnter vals | commandConfirm vals => vals.tasks
  | _ => 0

/-- The batches that the goroutine has counted in `inflight` and not sent, or has received and
not yet taken off. -/
def counted : Position Task → Nat
  | addRemoveAll _ => 1
  | addGuard _ vals | addUnlock _ vals _ | addStart _ vals => vals.toList.length
  | addSend _ _ => 1
  | commandInflight _ => 1
  | _ => 0

/-- The goroutine runs the background loop and has not decided to quit. -/
def loops : Position Task → Bool
  | flushEnter caller | flushLock caller | flushRemoveAll caller | flushUnlock caller _
  | execute caller _ | executing caller _ | doneExecution caller _ => caller.loops
  | select _ | commandInflight _ | commandEnter _ | commandConfirm _ | shallQuit | quitLock
  | quitCheck => true
  | quitUnlock stop => !stop
  | _ => false

/-- The goroutine has set `guarded` and is about to start the loop. -/
def starts : Position Task → Bool
  | addUnlock _ _ start => start
  | addStart _ _ => true
  | _ => false

/-- The loop runs in the goroutine, or the goroutine is about to start it. -/
def alive (position : Position Task) : Bool := position.loops || position.starts

/-- The goroutine holds a batch for the channel and has seen to it that `guarded` is set. -/
def guards : Position Task → Bool
  | addUnlock _ vals _ | addStart _ vals => vals.isSome
  | addSend _ _ => true
  | commandInflight _ => true
  | _ => false

/-- The goroutine holds a batch that is on its way to the channel. -/
def sends : Position Task → Bool
  | addGuard _ vals | addUnlock _ vals _ | addStart _ vals => vals.isSome
  | addSend _ _ => true
  | _ => false

end Position

namespace Goroutine

def held (g : Goroutine Task) : Multiset Task := g.position.held

def counted (g : Goroutine Task) : Nat := g.position.counted

def alive (g : Goroutine Task) : Nat := g.position.alive.toNat

end Goroutine

/-- The tasks in the container, in the channel, or handed to `Execute`. -/
def PeriodicalExecutor.stored (e : PeriodicalExecutor container) : Multiset Task :=
  container.tasks e.content + tasksOf e.commander + e.handed

open Position

namespace PeriodicalExecutor

variable {e e' : PeriodicalExecutor container} {position after : Position Task}
  {started : List (Goroutine Task)}

theorem stored_removeAll (e : PeriodicalExecutor container) :
    e.removeAll.1.stored + e.removeAll.2.tasks = e.stored := by
  simp only [stored, removeAll, Parcel.tasks, container.tasks_removeAll, container.removed]
  abel

section

variable (moved : e.proceed position = some (e', after, started))

include moved

theorem mem_started : ∀ g ∈ started, g = { position := .select false } := by
  cases position <;> simp [proceed] at moved <;> grind

/-- What the loop starts with nothing of changes only by what the goroutine does. -/
theorem total_proceed {M : Type*} [AddCommMonoid M] {rest : Multiset (Goroutine Task)}
    (count : Goroutine Task → M) (none : count { position := .select false } = 0)
    (g : Goroutine Task) : total count (g ::ₘ (started + rest)) = count g + total count rest := by
  have zero : total count (started : Multiset (Goroutine Task)) = 0 := by
    apply total_eq_zero
    intro other isNew
    rw [mem_started moved other isNew, none]
  rw [total_cons, total_add, zero, zero_add]

/-- What is stored and what the goroutine holds changes by what is added. -/
theorem proceed_stored :
    e'.stored + after.held + e.added = e.stored + position.held + e'.added := by
  cases position with
  | addTask task =>
    cases moved
    cases (container.addTask e.content task).2 <;>
      simp [stored, container.tasks_addTask, held, tasksOf]
  | addRemoveAll task =>
    cases moved
    simp [held, tasksOf, ← stored_removeAll e]
    rfl
  | flushRemoveAll caller =>
    cases moved
    simp [held, ← stored_removeAll e]
    rfl
  | addSend task vals =>
    simp [proceed] at moved
    obtain ⟨free, rfl, rfl, -⟩ := moved
    simp [stored, free, held, tasksOf]
    abel
  | execute caller vals =>
    rw [proceed] at moved
    split_ifs at moved with empty
    · cases moved
      simp [stored, held, Parcel.tasks]
      abel
    · cases moved
      simp [held, Parcel.tasks, Batch.tasks_eq_nil (eq_false_of_ne_true empty)]
  | select commanded =>
    simp only [proceed, Option.map_eq_some_iff, Prod.mk.injEq] at moved
    obtain ⟨vals, waiting, rfl, rfl, -⟩ := moved
    simp [stored, waiting, held, tasksOf]
    abel
  | _ =>
    simp [proceed] at moved <;> grind [stored, held, tasksOf]

end

/-- The batches counted in `inflight` outside of the goroutines. -/
def inChannel (e : PeriodicalExecutor container) : Nat := e.commander.toList.length

section

variable (moved : e.proceed position = some (e', after, started))

include moved

theorem proceed_inflight :
    (e'.inflight = e.inflight ∧ after.counted + e'.inChannel = position.counted + e.inChannel) ∨
      (e'.inflight = e.inflight + 1 ∧
        after.counted + e'.inChannel = position.counted + e.inChannel + 1) ∨
      e'.inflight = e.inflight - 1 ∧
        after.counted + e'.inChannel + 1 = position.counted + e.inChannel := by
  cases position <;> simp [proceed] at moved <;> grind [counted, inChannel, removeAll]

/-- Who runs or starts the loop changes with `guarded`, which only `shallQuit` clears. -/
theorem proceed_guarded :
    (after.alive.toNat + total Goroutine.alive (started : Multiset (Goroutine Task)) +
        e.guarded.toNat = position.alive.toNat + e'.guarded.toNat ∧
        (e.guarded = true → e'.guarded = true)) ∨
      position = .quitCheck ∧ after = .quitUnlock true ∧ started = [] ∧ e.inflight = 0 ∧
        e' = { e with guarded := false } := by
  cases position with
  | addStart task vals =>
    cases moved
    cases vals <;>
      simp [Goroutine.alive, alive, loops, starts, addAndCheckReturns]
  | _ =>
    simp [proceed] at moved <;>
      grind [alive, loops, starts, removeAll, Caller.loops]

/-- While `guarded` is not set, nothing gets into the channel. -/
theorem proceed_unguarded (unguarded : e'.guarded = false) (free : e.commander = none)
    (quiet : position.guards = false) : e'.commander = none ∧ after.guards = false := by
  cases position <;> simp [proceed] at moved <;> grind [guards, removeAll]

end

end PeriodicalExecutor

theorem Position.choose_quiet {position after : Position Task} {choice : Choice Task}
    (chosen : position.choose choice = some after) :
    position.held = 0 ∧ after.held = 0 ∧ position.counted = 0 ∧ after.counted = 0 ∧
      after.alive = position.alive ∧ after.guards = false := by
  cases position <;> cases choice <;> simp [choose] at chosen
  · rename_i call
    subst chosen
    cases call <;> simp [Call.entry, held, counted, alive, loops, starts, guards, Caller.loops]
  · subst chosen
    split <;> simp [held, counted, alive, loops, starts, guards, Caller.loops]
  · subst chosen
    split <;> simp [held, counted, alive, loops, starts, guards]

theorem Position.counted_of_guards {position : Position Task} (sending : position.guards = true) :
    position.counted = 1 := by
  cases position <;> simp_all [guards, counted, Option.isSome_iff_exists]

/-- What guards the batches on their way to the loop. -/
structure Guarded (e : PeriodicalExecutor container) (crowd : Multiset (Goroutine Task)) : Prop where
  inflight : e.inflight = BitVec.ofNat 32 (total Goroutine.counted crowd + e.inChannel)
  alive : total Goroutine.alive crowd = e.guarded.toNat
  unguarded : e.guarded = false → e.commander = none ∧ ∀ g ∈ crowd, g.position.guards = false

variable (s : State (PeriodicalExecutor container) (Goroutine Task))

/-- The batches that are on their way to the loop and counted as such. -/
def underway : Nat :=
  total Goroutine.counted s.crowd + s.shared.inChannel

open PeriodicalExecutor

section

variable {e e' : PeriodicalExecutor container} {g : Goroutine Task} {after : Position Task}
  {started : List (Goroutine Task)} {rest : Multiset (Goroutine Task)}
  (moved : e.proceed g.position = some (e', after, started))

include moved

theorem stored_proceed (before : e.stored + total Goroutine.held (g ::ₘ rest) = e.added) :
    e'.stored + total Goroutine.held ({ g with position := after } ::ₘ (started + rest)) =
      e'.added := by
  have balance := proceed_stored moved
  rw [total_cons] at before
  rw [total_proceed moved Goroutine.held rfl]
  have added : e'.stored + (after.held + total Goroutine.held rest) + e.added =
      e'.added + e.added := by
    calc e'.stored + (after.held + total Goroutine.held rest) + e.added
        = e'.stored + after.held + e.added + total Goroutine.held rest := by abel
      _ = e.stored + g.position.held + e'.added + total Goroutine.held rest := by rw [balance]
      _ = e'.added + (e.stored + (g.position.held + total Goroutine.held rest)) := by abel
      _ = e'.added + e.added := by rw [← before]; rfl
  exact add_right_cancel added

theorem Guarded.inflight_proceed (guarded : Guarded e (g ::ₘ rest)) : e'.inflight = BitVec.ofNat 32
      (total Goroutine.counted ({ g with position := after } ::ₘ (started + rest)) +
        e'.inChannel) := by
  have before := guarded.inflight
  rw [total_cons] at before
  rw [total_proceed moved Goroutine.counted rfl]
  simp only [Goroutine.counted] at *
  rcases proceed_inflight moved with
    ⟨same, count⟩ | ⟨more, count⟩ | ⟨less, count⟩
  · rw [same, before]
    congr 1
    omega
  · have one : after.counted + total Goroutine.counted rest + e'.inChannel =
        g.position.counted + total Goroutine.counted rest + e.inChannel + 1 := by omega
    rw [more, before, one]
    exact (BitVec.ofNat_add _ 1).symm
  · have one : g.position.counted + total Goroutine.counted rest + e.inChannel =
        after.counted + total Goroutine.counted rest + e'.inChannel + 1 := by omega
    rw [less, before, one, BitVec.ofNat_add]
    exact BitVec.add_sub_cancel _ _

theorem Guarded.alive_proceed (guarded : Guarded e (g ::ₘ rest)) :
    total Goroutine.alive ({ g with position := after } ::ₘ (started + rest)) =
      e'.guarded.toNat := by
  have before := guarded.alive
  rw [total_cons] at before
  rw [total_cons, total_add]
  simp only [Goroutine.alive] at *
  rcases proceed_guarded moved with
    ⟨balance, -⟩ | ⟨checking, rfl, rfl, -, rfl⟩
  · omega
  · have loops : g.position.alive = true := by rw [checking]; rfl
    have atMost := Bool.toNat_le e.guarded
    rw [loops, Bool.toNat_true] at before
    simp [Position.alive, Position.loops, Position.starts]
    omega

theorem Guarded.unguarded_proceed (guarded : Guarded e (g ::ₘ rest))
    (few : total Goroutine.counted (g ::ₘ rest) + e.inChannel < 2 ^ 32)
    (unguarded : e'.guarded = false) :
    e'.commander = none ∧
      ∀ other ∈ { g with position := after } ::ₘ ((started : Multiset (Goroutine Task)) + rest),
        other.position.guards = false := by
  simp only [Multiset.forall_mem_cons, Multiset.mem_add, Multiset.mem_coe]
  rcases proceed_guarded moved with
    ⟨-, stays⟩ | ⟨checking, rfl, rfl, landed, rfl⟩
  · have before : e.guarded = false := by
      rw [← Bool.not_eq_true] at unguarded ⊢
      exact fun guarded => unguarded (stays guarded)
    obtain ⟨free, all⟩ := guarded.unguarded before
    rw [Multiset.forall_mem_cons] at all
    obtain ⟨stillFree, quiet⟩ := proceed_unguarded moved unguarded free all.1
    refine ⟨stillFree, quiet, ?_⟩
    rintro other (isNew | old)
    · rw [mem_started moved other isNew]
      rfl
    · exact all.2 other old
  · -- nothing is counted, so nobody holds a batch and the channel is empty
    have none : total Goroutine.counted (g ::ₘ rest) + e.inChannel = 0 := by
      have zero := guarded.inflight
      rw [landed] at zero
      have bits := congrArg BitVec.toNat zero
      rw [BitVec.toNat_ofNat, Nat.mod_eq_of_lt few] at bits
      exact bits.symm
    obtain ⟨nobody, channel⟩ := Nat.add_eq_zero_iff.mp none
    have quiet : ∀ other ∈ g ::ₘ rest, other.position.guards = false := by
      intro other mem
      have uncounted := (total_eq_zero_iff _ _).mp nobody other mem
      rw [← Bool.not_eq_true]
      intro sending
      rw [Goroutine.counted, counted_of_guards sending] at uncounted
      contradiction
    refine ⟨by simpa [inChannel] using channel, rfl, ?_⟩
    rintro other (isNew | old)
    · exact absurd isNew not_mem_nil
    · exact quiet other (Multiset.mem_cons_of_mem old)

end

theorem stored_keeps :
    Keeps (executor container) (fun _ _ => True)
      (fun e crowd => e.stored + total Goroutine.held crowd = e.added) where
  act := by
    intro s i choice g e' after started rest _ _ _ acted before
    obtain ⟨position, rfl, moved | ⟨chosen, rfl, rfl⟩⟩ := act_cases acted
    · exact stored_proceed moved before
    · obtain ⟨heldBefore, heldAfter, -⟩ := choose_quiet chosen
      simpa [Goroutine.held, heldBefore, heldAfter] using before
  meet := by
    intro s i j loop adder e' loop' adder' rest _ _ _ met before
    obtain ⟨vals, task, own, confirming, waiting, rfl, rfl, rfl⟩ :=
      confirm_cases met
    simpa [Goroutine.held, confirming, waiting, held] using before

theorem Guarded.keeps :
    Keeps (executor container) (fun s _ => underway s < 2 ^ 32) Guarded where
  act := by
    intro s i choice g e' after started rest few found whole acted guarded
    obtain ⟨position, rfl, moved | ⟨chosen, rfl, rfl⟩⟩ := act_cases acted
    · rw [underway, whole] at few
      exact ⟨guarded.inflight_proceed moved, guarded.alive_proceed moved,
        guarded.unguarded_proceed moved few⟩
    · obtain ⟨-, -, countedBefore, countedAfter, alive, quiet⟩ := choose_quiet chosen
      constructor
      · simpa [Goroutine.counted, countedBefore, countedAfter] using guarded.inflight
      · simpa [Goroutine.alive, alive] using guarded.alive
      · intro unguarded
        obtain ⟨free, all⟩ := guarded.unguarded unguarded
        simp only [Multiset.forall_mem_cons] at all
        simpa [free, quiet] using all.2
  meet := by
    intro s i j loop adder e' loop' adder' rest _ _ _ met guarded
    obtain ⟨vals, task, own, confirming, waiting, rfl, rfl, rfl⟩ :=
      confirm_cases met
    constructor
    · simpa [Goroutine.counted, confirming, waiting, Position.counted] using guarded.inflight
    · simpa [Goroutine.alive, confirming, waiting, Position.alive, Position.loops,
        Position.starts, Caller.loops] using guarded.alive
    · simpa [confirming, waiting, Position.guards] using guarded.unguarded

theorem mem_start {callers : Nat} {g : Goroutine Task}
    (mem : g ∈ (start container callers).crowd) : g = { position := .idle } :=
  eq_of_mem_replicate mem

theorem stored_start (container : TaskContainer Task) (callers : Nat) :
    (start container callers).shared.stored +
      total Goroutine.held (start container callers).crowd =
      (start container callers).shared.added := by
  rw [start, State.crowd, total_start Goroutine.held rfl]
  simp [newPeriodicalExecutor, stored, container.tasks_new, tasksOf]

theorem Guarded.start (container : TaskContainer Task) (callers : Nat) :
    Guarded (start container callers).shared (start container callers).crowd := by
  constructor
  · rw [Executors.start, State.crowd, total_start Goroutine.counted rfl]
    rfl
  · exact total_start Goroutine.alive rfl callers
  · intro _
    refine ⟨rfl, fun g mem => ?_⟩
    rw [mem_start mem]
    rfl

/-- A batch is in the channel or on its way there. -/
def Sending : Prop :=
  s.shared.commander.isSome ∨ ∃ g ∈ s.routines, g.position.sends = true

/-- The background loop runs, or a goroutine is about to start it: it has set `guarded`, or
holds the lock and is about to find that it is not set. -/
def Attended : Prop :=
  ∃ g ∈ s.routines, g.position.alive = true ∨
    s.shared.guarded = false ∧ ∃ task vals, g.position = .addGuard task vals

theorem Guarded.attended {s : State (PeriodicalExecutor container) (Goroutine Task)}
    (guarded : Guarded s.shared s.crowd) (sending : Sending s) : Attended s := by
  cases set : s.shared.guarded with
  | true =>
    by_contra unattended
    have nobody : ∀ g ∈ s.crowd, g.alive = 0 := by
      intro g mem
      have dead : g.position.alive = false := by
        rw [← Bool.not_eq_true]
        exact fun alive => unattended ⟨g, mem, Or.inl alive⟩
      rw [Goroutine.alive, dead, Bool.toNat_false]
    have one := guarded.alive
    rw [(total_eq_zero_iff _ _).mpr nobody, set] at one
    contradiction
  | false =>
    obtain ⟨free, quiet⟩ := guarded.unguarded set
    rcases sending with full | ⟨g, mem, sends⟩
    · simp [free] at full
    · have unguarded := quiet g mem
      refine ⟨g, mem, Or.inr ⟨set, ?_⟩⟩
      cases position : g.position <;> simp_all [Position.sends, Position.guards]

/-- Each added task is in one place all along, and is handed to `Execute` at most once. As long
as fewer batches are on their way than the counter can count, each finds the loop. -/
theorem tasks_conserved (container : TaskContainer Task) (callers : Nat)
    (moves : List (Move (Choice Task))) :
    let s := (executor container).after (start container callers) moves
    container.tasks s.shared.content + tasksOf s.shared.commander +
        total Goroutine.held s.crowd + s.shared.handed = s.shared.added ∧
      (Runs.Meets (executor container).step (fun s _ => underway s < 2 ^ 32)
        (start container callers) moves → Sending s → Attended s) := by
  intro s
  constructor
  · have account := stored_keeps.run_always moves (stored_start container callers)
    rw [stored] at account
    rw [← account]
    abel
  · intro few sending
    exact (Guarded.keeps.run few (Guarded.start container callers)).attended sending

/-- A container that asks for a flush at each task. -/
def eager : TaskContainer Unit where
  Content := List Unit
  new := []
  addTask content task := (task :: content, true)
  removeAll content := ([], .collection content)
  tasks content := content
  tasks_new := rfl
  tasks_addTask _ _ := rfl
  tasks_removeAll _ := rfl
  removed _ := rfl

/-- The executor when some batches are on their way and nobody is inside a step. -/
def waiting (count : Nat) : PeriodicalExecutor eager :=
  { newPeriodicalExecutor eager with
    inflight := BitVec.ofNat 32 count
    guarded := true
    removals := count
    added := Multiset.replicate count () }

/-- A call of `Add` up to the send. -/
def adding : List (Choice Unit) := .call (.add ()) :: List.replicate 6 .proceed

/-- A tick with nothing to flush, after which the loop quits. -/
def quitting : List (Choice Unit) :=
  .tick :: List.replicate 6 .proceed ++ .sinceLast true :: List.replicate 9 .proceed

theorem waiting_succ (count : Nat) :
    waiting (count + 1) =
      { waiting count with
        inflight := (waiting count).inflight + 1
        removals := (waiting count).removals + 1
        added := () ::ₘ (waiting count).added } := by
  simp only [waiting, Multiset.replicate_succ, BitVec.ofNat_add]
  rfl

/-- One more goroutine adds a task and waits to send it. -/
theorem waiting_add (count : Nat) :
    (executor eager).alone (waiting count) { position := .idle } adding =
      some (waiting (count + 1), { position := .addSend () ⟨count, .collection [()]⟩ }) := by
  rw [waiting_succ]
  rfl

theorem start_add (callers : Nat) :
    ∃ moves, (executor eager).after (start eager (callers + 1)) moves =
      ⟨waiting 1, { position := .addSend () ⟨0, .collection [()]⟩ } ::
        replicate callers { position := .idle } ++ [{ position := .select false }]⟩ := by
  have added : (executor eager).alone (newPeriodicalExecutor eager) { position := .idle } adding =
      some (waiting 1, { position := .addStart () (some ⟨0, .collection [()]⟩) }) := rfl
  have started : (executor eager).act (waiting 1)
      { position := .addStart () (some ⟨0, .collection [()]⟩) } .proceed =
      some (waiting 1, { position := .addSend () ⟨0, .collection [()]⟩ },
        [{ position := .select false }]) := rfl
  refine ⟨adding.map (Move.act 0) ++ [.act 0 .proceed], ?_⟩
  rw [Program.after_append, start, replicate_succ, Program.after_alone _ added rfl,
    set_cons_zero, Program.after_act _ started rfl, set_cons_zero]

/-- The first goroutines wait to send, the others are idle, and the last one is the loop. -/
structure Crowded (count callers : Nat) (routines : List (Goroutine Unit)) : Prop where
  length : routines.length = callers + 2
  loop : routines[callers + 1]? = some { position := .select false }
  sending : ∀ i ≤ count, ∃ vals, routines[i]? = some { position := .addSend () vals }
  idle : ∀ i, count < i → i ≤ callers → routines[i]? = some { position := .idle }

theorem exists_crowded {count callers : Nat} (few : count ≤ callers) :
    ∃ moves routines, (executor eager).after (start eager (callers + 1)) moves =
      ⟨waiting (count + 1), routines⟩ ∧ Crowded count callers routines := by
  induction count with
  | zero =>
    obtain ⟨moves, reached⟩ := start_add callers
    refine ⟨moves, _, reached, ?_⟩
    constructor
    · simp
    · simp
    · intro i first
      rw [Nat.le_zero.mp first]
      exact ⟨_, rfl⟩
    · intro i after inside
      obtain ⟨i, rfl⟩ := Nat.exists_eq_succ_of_ne_zero (by omega : i ≠ 0)
      have within : i < (replicate callers ({ position := .idle } : Goroutine Unit)).length := by
        rw [length_replicate]
        omega
      rw [cons_append, getElem?_cons_succ, getElem?_append_left within,
        getElem?_replicate, if_pos (by omega)]
  | succ count ih =>
    obtain ⟨moves, routines, reached, crowded⟩ := ih (by omega)
    have next := crowded.idle (count + 1) (by omega) few
    have length := crowded.length
    let adder : Goroutine Unit := { position := .addSend () ⟨count + 1, .collection [()]⟩ }
    refine ⟨moves ++ adding.map (Move.act (count + 1)), routines.set (count + 1) adder, ?_, ?_⟩
    · rw [Program.after_append, reached, Program.after_alone _ (waiting_add (count + 1)) next]
    · constructor
      · rw [length_set, length]
      · rw [getElem?_set_ne (by omega), crowded.loop]
      · intro i inside
        by_cases new : i = count + 1
        · rw [new, getElem?_set_self (by omega)]
          exact ⟨_, rfl⟩
        · rw [getElem?_set_ne (by omega)]
          exact crowded.sending i (by omega)
      · intro i after inside
        rw [getElem?_set_ne (by omega)]
        exact crowded.idle i (by omega) inside

theorem waiting_quits {count : Nat} (wraps : BitVec.ofNat 32 count = 0) :
    (executor eager).alone (waiting count) { position := .select false } quitting =
      some ({ waiting count with guarded := false, removals := count + 2 },
        { position := .exited }) := by
  rw [waiting, wraps]
  rfl

/-- If the batches on their way are a full turn of the counter, the loop quits and leaves
them. -/
theorem exists_stranded (callers : Nat) (wraps : BitVec.ofNat 32 (callers + 1) = 0) :
    ∃ moves, let s := (executor eager).after (start eager (callers + 1)) moves
      s.shared.commander.isSome = true ∧ ¬ Attended s := by
  obtain ⟨moves, routines, reached, crowded⟩ := exists_crowded (Nat.le_refl callers)
  have length := crowded.length
  obtain ⟨vals, first⟩ := crowded.sending 0 (Nat.zero_le _)
  let left : PeriodicalExecutor eager :=
    { waiting (callers + 1) with guarded := false, removals := callers + 1 + 2 }
  have sends : (executor eager).act left { position := .addSend () vals } .proceed =
      some ({ left with commander := some vals }, { position := .addConfirm () vals }, []) := rfl
  let gone := routines.set (callers + 1) { position := .exited }
  have still : gone[0]? = some { position := .addSend () vals } := by
    rw [getElem?_set_ne (by omega), first]
  refine ⟨moves ++ quitting.map (Move.act (callers + 1)) ++ [.act 0 .proceed], ?_⟩
  rw [Program.after_append, Program.after_append, reached,
    Program.after_alone _ (waiting_quits wraps) crowded.loop, Program.after_act _ sends still]
  refine ⟨rfl, ?_⟩
  rintro ⟨g, mem, running⟩
  have quiet : g.position.alive = false ∧ ∀ task vals, g.position ≠ .addGuard task vals := by
    rw [append_nil] at mem
    obtain ⟨i, place⟩ := mem_iff_getElem?.mp mem
    have inside := (List.getElem?_eq_some_iff.mp place).1
    rw [length_set, length_set, length] at inside
    by_cases isFirst : i = 0
    · rw [isFirst, getElem?_set_self (by rw [length_set]; omega)] at place
      cases place
      simp [alive, loops, starts]
    rw [getElem?_set_ne (Ne.symm isFirst)] at place
    by_cases isLast : i = callers + 1
    · rw [isLast, getElem?_set_self (by omega)] at place
      cases place
      simp [alive, loops, starts]
    · rw [getElem?_set_ne (Ne.symm isLast)] at place
      obtain ⟨vals, sending⟩ := crowded.sending i (by omega)
      rw [sending] at place
      cases place
      simp [alive, loops, starts]
  rcases running with alive | ⟨-, task, vals, checking⟩
  · rw [quiet.1] at alive
    contradiction
  · exact quiet.2 task vals checking

/-- With a full turn of the counter on their way, the loop quits and leaves a batch in the
channel. -/
theorem batches_stranded : ∃ moves, let s := (executor eager).after (start eager (2 ^ 32)) moves
      s.shared.commander.isSome = true ∧ ¬ Attended s := by
  have all : 2 ^ 32 - 1 + 1 = 2 ^ 32 := Nat.sub_add_cancel (by decide)
  rw [← all]
  exact exists_stranded (2 ^ 32 - 1) (by decide)

end FastGoZero.Executors
