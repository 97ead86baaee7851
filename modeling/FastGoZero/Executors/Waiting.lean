import FastGoZero.Executors.Conservation

/-!
# Waiting for one's own tasks

The loop enters a batch in the wait group before it confirms it, so a goroutine that gets the
confirmation of its own batch finds the batch in the wait group. All goroutines wait for their
confirmations at one channel, though, and a goroutine may get that of another's batch while its
own is still in the channel.
-/

namespace FastGoZero.Executors

open Lib Lib.Concurrent Multiset

universe u
variable {Task : Type u} {container : TaskContainer Task}

namespace Position

def locks : Position Task → Bool
  | addTask _ | addInflight _ | addRemoveAll _ | addGuard _ _ | addUnlock _ _ _ | flushRemoveAll _
  | flushUnlock _ _ | quitCheck | quitUnlock _ => true
  | _ => false

def entered : Position Task → Bool
  | flushLock _ | flushRemoveAll _ | flushUnlock _ _ | execute _ _ | executing _ _
  | doneExecution _ _ | commandConfirm _ => true
  | _ => false

/-- The task that the goroutine has put into the container and is about to remove. -/
def removes : Position Task → Option Task
  | addInflight task | addRemoveAll task => some task
  | _ => none

/-- The task of a call of `Add`, with the batch that it has made. -/
def makes : Position Task → Option (Task × Parcel Task)
  | addGuard task vals => vals.map fun vals => (task, vals)
  | addUnlock task vals _ => vals.map fun vals => (task, vals)
  | addStart task vals => vals.map fun vals => (task, vals)
  | addSend task vals | addConfirm task vals => some (task, vals)
  | _ => none

def executes : Position Task → Option (Parcel Task)
  | execute _ vals | executing _ vals => some vals
  | _ => none

end Position

namespace PeriodicalExecutor

variable {e e' : PeriodicalExecutor container} {position after : Position Task}
  {started : List (Goroutine Task)} (moved : e.proceed position = some (e', after, started))

include moved

theorem proceed_lock (inside : position.locks = true → e.lock = true) :
    after.locks.toNat + e.lock.toNat = position.locks.toNat + e'.lock.toNat := by
  cases position <;> simp [proceed] at moved <;> grind [Position.locks, removeAll]

/-- Who is in the wait group changes with the wait group. -/
theorem proceed_waitGroup (inside : position.entered = true → 0 < e.waitGroup) :
    after.entered.toNat + e.waitGroup = position.entered.toNat + e'.waitGroup := by
  cases position <;> simp [proceed] at moved <;> grind [Position.entered, removeAll]

/-- Only who holds the lock takes tasks out of the container. -/
theorem proceed_content : position.locks = true ∨ e'.content = e.content := by
  cases position <;> simp [proceed] at moved <;> grind [Position.locks, removeAll]

/-- A goroutine is about to remove the task that it has put into the container. -/
theorem proceed_removes (inside : ∀ task ∈ position.removes, task ∈ container.tasks e.content) :
    ∀ task ∈ after.removes, task ∈ container.tasks e'.content := by
  cases position with
  | addTask task =>
    cases moved
    rw [container.tasks_addTask]
    cases (container.addTask e.content task).2 <;> simp [Position.removes]
  | addInflight task =>
    cases moved
    exact inside
  | _ =>
    simp [proceed] at moved <;> grind [Position.removes]

/-- The batch that `Add` makes has the task of the call. -/
theorem proceed_makes (inside : ∀ task ∈ position.removes, task ∈ container.tasks e.content)
    (made : ∀ own ∈ position.makes, own.1 ∈ own.2.batch.tasks) :
    ∀ own ∈ after.makes, own.1 ∈ own.2.batch.tasks := by
  cases position with
  | addRemoveAll task =>
    cases moved
    rintro own ⟨⟩
    have present := inside task rfl
    rw [← container.removed] at present
    exact mem_coe.mp present
  | _ =>
    simp [proceed] at moved <;> grind [Position.makes]

/-- What is finished stays finished, and a batch with tasks is executed to the end. -/
theorem proceed_finished : (∀ vals ∈ e.finished, vals ∈ e'.finished) ∧
      ∀ vals ∈ position.executes, vals.batch.hasTasks = true →
        vals ∈ e'.finished ∨ vals ∈ after.executes := by
  cases position <;> simp [proceed] at moved <;> grind [Position.executes, removeAll]

end PeriodicalExecutor

variable {position : Position Task}

theorem Position.entered_of_executes {vals : Parcel Task} (executing : vals ∈ position.executes) :
    position.entered = true := by
  cases position <;> simp_all [executes, entered]

theorem Position.locks_of_removes {task : Task} (removing : task ∈ position.removes) :
    position.locks = true := by
  cases position <;> simp_all [removes, locks]

theorem Position.choose_outside {after : Position Task} {choice : Choice Task}
    (chosen : position.choose choice = some after) :
    position.locks = false ∧ after.locks = false ∧ position.entered = false ∧
      after.entered = false ∧ after.removes = none ∧ after.makes = none ∧
      position.executes = none := by
  cases position <;> cases choice <;> simp [choose] at chosen
  · rename_i call
    subst chosen
    cases call <;> simp [Call.entry, locks, entered, removes, makes, executes]
  · subst chosen
    split <;> simp [locks, entered, removes, makes, executes]
  · subst chosen
    split <;> simp [locks, entered, removes, makes, executes]

variable (s : State (PeriodicalExecutor container) (Goroutine Task))

/-- Each confirmation goes to the goroutine whose batch the loop has taken. -/
def ConfirmsOwn : Move (Choice Task) → Prop
  | .act _ _ => True
  | .meet i j => ∀ loop ∈ s.routines[i]?, ∀ adder ∈ s.routines[j]?, ∀ vals task own,
      loop.position = .commandConfirm vals → adder.position = .addConfirm task own → own = vals

/-- The batch is executed or has been. -/
def Accounted (e : PeriodicalExecutor container) (crowd : Multiset (Goroutine Task))
    (vals : Parcel Task) : Prop :=
  vals ∈ e.finished ∨ ∃ g ∈ crowd, vals ∈ g.position.executes

/-- What the wait group says about the batches that were sent. -/
structure Entered (e : PeriodicalExecutor container) (crowd : Multiset (Goroutine Task)) :
    Prop where
  lock : total (fun g => g.position.locks.toNat) crowd = e.lock.toNat
  waitGroup : total (fun g => g.position.entered.toNat) crowd = e.waitGroup
  removes : ∀ g ∈ crowd, ∀ task ∈ g.position.removes, task ∈ container.tasks e.content
  makes : ∀ g ∈ crowd, ∀ own ∈ g.position.makes, own.1 ∈ own.2.batch.tasks
  sent : ∀ g ∈ crowd, ∀ own ∈ g.sent, own.1 ∈ own.2.batch.tasks ∧ Accounted e crowd own.2

open PeriodicalExecutor

section

variable {e e' : PeriodicalExecutor container} {g : Goroutine Task} {after : Position Task}
  {started : List (Goroutine Task)} {rest : Multiset (Goroutine Task)}

theorem Accounted.of_executes {crowd others : Multiset (Goroutine Task)}
    (kept : ∀ vals, ∀ g ∈ crowd, vals ∈ g.position.executes → g ∈ others) {vals : Parcel Task}
    (accounted : Accounted e crowd vals) : Accounted e others vals := by
  rcases accounted with finished | ⟨g, mem, executes⟩
  · exact Or.inl finished
  · exact Or.inr ⟨g, kept vals g mem executes, executes⟩

theorem Accounted.proceed {vals : Parcel Task}
    (moved : e.proceed g.position = some (e', after, started))
    (full : vals.batch.hasTasks = true) (accounted : Accounted e (g ::ₘ rest) vals) :
    Accounted e' ({ g with position := after } ::ₘ (started + rest)) vals := by
  obtain ⟨stays, executed⟩ := proceed_finished moved
  rcases accounted with finished | ⟨other, mem, executes⟩
  · exact Or.inl (stays vals finished)
  · rcases mem_cons.mp mem with rfl | old
    · rcases executed vals executes full with finished | executes
      · exact Or.inl finished
      · exact Or.inr ⟨_, mem_cons_self _ _, executes⟩
    · refine Or.inr ⟨other, mem_cons_of_mem ?_, executes⟩
      exact mem_add.mpr (Or.inr old)

/-- Nobody else is in a section while the goroutine is. -/
theorem Entered.alone (entered : Entered e (g ::ₘ rest)) (locks : g.position.locks = true)
    {other : Goroutine Task} (mem : other ∈ rest) : other.position.locks = false := by
  have one := entered.lock
  have part := le_total (fun g => g.position.locks.toNat) mem
  have most := Bool.toNat_le e.lock
  rw [total_cons, locks] at one
  rw [← Bool.toNat_eq_zero]
  simp only [Bool.toNat_true] at one
  omega

theorem Entered.proceed (moved : e.proceed g.position = some (e', after, started))
    (entered : Entered e (g ::ₘ rest)) :
    Entered e' ({ g with position := after } ::ₘ (started + rest)) := by
  have lock := entered.lock
  have waitGroup := entered.waitGroup
  have removes := entered.removes
  have makes := entered.makes
  rw [total_cons] at lock waitGroup
  simp only [forall_mem_cons] at removes makes
  constructor
  · have inside : g.position.locks = true → e.lock = true := by
      intro locks
      rw [locks, Bool.toNat_true] at lock
      cases held : e.lock with
      | true => rfl
      | false =>
        rw [held, Bool.toNat_false] at lock
        omega
    have balance := proceed_lock moved inside
    rw [total_proceed moved _ rfl]
    dsimp only
    omega
  · have inside : g.position.entered = true → 0 < e.waitGroup := by
      intro inside
      rw [inside, Bool.toNat_true] at waitGroup
      omega
    have balance := proceed_waitGroup moved inside
    rw [total_proceed moved _ rfl]
    dsimp only
    omega
  · simp only [forall_mem_cons, mem_add, mem_coe]
    refine ⟨proceed_removes moved removes.1, ?_⟩
    rintro other (isNew | old) task removing
    · rw [mem_started moved other isNew] at removing
      simp [Position.removes] at removing
    · rcases proceed_content moved with locks | same
      · have free := entered.alone locks old
        rw [Position.locks_of_removes removing] at free
        contradiction
      · rw [same]
        exact removes.2 other old task removing
  · simp only [forall_mem_cons, mem_add, mem_coe]
    refine ⟨proceed_makes moved removes.1 makes.1, ?_⟩
    rintro other (isNew | old) own made
    · rw [mem_started moved other isNew] at made
      simp [Position.makes] at made
    · exact makes.2 other old own made
  · have kept : ∀ own : Task × Parcel Task, (own.1 ∈ own.2.batch.tasks ∧ Accounted e (g ::ₘ rest) own.2) →
        own.1 ∈ own.2.batch.tasks ∧
          Accounted e' ({ g with position := after } ::ₘ (started + rest)) own.2 := by
      rintro own ⟨mem, accounted⟩
      exact ⟨mem, accounted.proceed moved (Batch.hasTasks_of_mem mem)⟩
    intro other mem own wasSent
    rw [mem_cons, mem_add, mem_coe] at mem
    rcases mem with rfl | isNew | old
    · exact kept own (entered.sent g (mem_cons_self _ _) own wasSent)
    · rw [mem_started moved other isNew] at wasSent
      exact absurd wasSent List.not_mem_nil
    · exact kept own (entered.sent other (mem_cons_of_mem old) own wasSent)

end

theorem Entered.keeps : Keeps (executor container) ConfirmsOwn Entered where
  act := by
    intro s i choice g e' after started rest _ _ _ acted entered
    obtain ⟨position, rfl, moved | ⟨chosen, rfl, rfl⟩⟩ := act_cases acted
    · exact entered.proceed moved
    · obtain ⟨lock, waitGroup, removes, makes, sent⟩ := entered
      obtain ⟨unlocked, stillUnlocked, out, stillOut, noTask, noBatch, idle⟩ :=
        Position.choose_outside chosen
      rw [coe_nil, zero_add]
      simp only [forall_mem_cons] at removes makes sent
      constructor
      · simpa [unlocked, stillUnlocked] using lock
      · simpa [out, stillOut] using waitGroup
      · exact forall_mem_cons.mpr ⟨by simp [noTask], removes.2⟩
      · exact forall_mem_cons.mpr ⟨by simp [noBatch], makes.2⟩
      · have kept : ∀ {vals}, Accounted s.shared (g ::ₘ rest) vals →
            Accounted s.shared ({ g with position } ::ₘ rest) vals := by
          apply Accounted.of_executes
          intro vals other mem executes
          rcases mem_cons.mp mem with rfl | old
          · simp [idle] at executes
          · exact mem_cons_of_mem old
        exact forall_mem_cons.mpr ⟨fun own wasSent => (sent.1 own wasSent).imp_right kept,
          fun other mem own wasSent => (sent.2 other mem own wasSent).imp_right kept⟩
  meet := by
    intro s i j loop adder e' loop' adder' rest own foundLoop foundAdder met entered
    obtain ⟨vals, task, made, confirming, waiting, rfl, rfl, rfl⟩ := confirm_cases met
    obtain rfl := own loop foundLoop adder foundAdder vals task made confirming waiting
    obtain ⟨lock, waitGroup, removes, makes, sent⟩ := entered
    simp only [forall_mem_cons] at removes makes sent
    constructor
    · simpa [confirming, waiting, Position.locks] using lock
    · simpa [confirming, waiting, Position.entered] using waitGroup
    · simpa [Position.removes] using removes.2.2
    · simpa [Position.makes] using makes.2.2
    · have has := makes.2.1 (task, made) (by simp [waiting, Position.makes])
      simp only [forall_mem_cons, List.forall_mem_cons]
      let executed : Goroutine Task := { loop with position := .execute .command made }
      let returned : Goroutine Task := { position := .idle, sent := (task, made) :: adder.sent }
      have kept : ∀ {vals}, Accounted s.shared (loop ::ₘ adder ::ₘ rest) vals →
          Accounted s.shared (executed ::ₘ returned ::ₘ rest) vals := by
        apply Accounted.of_executes
        intro vals other mem executes
        rw [mem_cons, mem_cons] at mem
        rcases mem with rfl | rfl | old
        · simp [confirming, Position.executes] at executes
        · simp [waiting, Position.executes] at executes
        · exact mem_cons_of_mem (mem_cons_of_mem old)
      have now : Accounted s.shared (executed ::ₘ returned ::ₘ rest) made :=
        Or.inr ⟨executed, mem_cons_self _ _, rfl⟩
      exact ⟨fun own wasSent => (sent.1 own wasSent).imp_right kept,
        ⟨⟨has, now⟩, fun own wasSent => (sent.2.1 own wasSent).imp_right kept⟩,
        fun other mem own wasSent => (sent.2.2 other mem own wasSent).imp_right kept⟩

/-- The move lets a call of `Wait` by the goroutine return. -/
def WaitReturns (move : Move (Choice Task)) (g : Goroutine Task) : Prop :=
  ∃ i, move = .act i .proceed ∧ s.routines[i]? = some g ∧ g.position = .waitGroup ∧
    s.shared.waitGroup = 0

/-- `Execute` has returned from each batch that a call of `Add` by the goroutine has sent, and
each has the task of the call. -/
def Executed (g : Goroutine Task) : Prop :=
  ∀ own ∈ g.sent, own.1 ∈ own.2.batch.tasks ∧ own.2 ∈ s.shared.finished

theorem Entered.executed {s : State (PeriodicalExecutor container) (Goroutine Task)}
    {move : Move (Choice Task)} {g : Goroutine Task} (entered : Entered s.shared s.crowd)
    (returns : WaitReturns s move g) : Executed s g := by
  obtain ⟨i, rfl, found, -, zero⟩ := returns
  intro own wasSent
  obtain ⟨mem, finished | ⟨other, inside, executes⟩⟩ :=
    entered.sent g (List.mem_of_getElem? found) own wasSent
  · exact ⟨mem, finished⟩
  · have nobody := entered.waitGroup
    rw [zero, total_eq_zero_iff] at nobody
    have out := nobody other inside
    simp only [Position.entered_of_executes executes, Bool.toNat_true] at out
    contradiction

theorem Entered.start (container : TaskContainer Task) (callers : Nat) :
    Entered (start container callers).shared (start container callers).crowd := by
  constructor
  · exact total_start (fun g : Goroutine Task => g.position.locks.toNat) rfl callers
  · exact total_start (fun g : Goroutine Task => g.position.entered.toNat) rfl callers
  all_goals
    intro g mem
    rw [mem_start mem]
    simp [Position.removes, Position.makes]

/-- Where each confirmation goes to the goroutine whose batch was taken, `Wait` returns only
when the batches are executed that the goroutine has sent. -/
theorem wait_after_execute (container : TaskContainer Task) (callers : Nat)
    (moves : List (Move (Choice Task)))
    (own : Runs.Meets (executor container).step ConfirmsOwn (start container callers) moves) :
    Runs.Meets (executor container).step
      (fun s move => ∀ g, WaitReturns s move g → Executed s g) (start container callers) moves :=
  Entered.keeps.meets (fun _ _ entered _ returns => entered.executed returns) own
    (Entered.start container callers)

theorem confirmsOwn_acts (i : Nat) (choices : List (Choice Task)) :
    Runs.Meets (executor container).step ConfirmsOwn s (choices.map (Move.act i)) := by
  induction choices generalizing s with
  | nil => trivial
  | cons choice choices ih => exact ⟨trivial, ih _⟩

/-- The moves of a goroutine that makes a call and proceeds several times. -/
def calls (i : Nat) (call : Call Unit) (count : Nat) : List (Move (Choice Unit)) :=
  (.call call :: List.replicate count .proceed).map (Move.act i)

/-- The moves of the loop, which is the third goroutine. -/
def loops (count : Nat) : List (Move (Choice Unit)) :=
  (List.replicate count .proceed).map (Move.act 2)

/-- The second goroutine gets the confirmation of the first one's batch. Its `Wait` returns
while its own batch is in the channel. -/
theorem wait_returns_early :
    let s := (executor eager).after (start eager 2)
      (calls 0 (.add ()) 8 ++ loops 3 ++ calls 1 (.add ()) 7 ++ [.meet 2 1] ++
        calls 1 .wait 7 ++ loops 3)
    ∃ g, WaitReturns s (.act 1 .proceed) g ∧ ¬ Executed s g ∧
      (s.shared.commander.map fun vals => ((), vals)).toList = g.sent := by
  intro s
  refine ⟨{ position := .waitGroup, sent := [((), ⟨1, .collection [()]⟩)] },
    ⟨1, rfl, ?_, rfl, ?_⟩, ?_, ?_⟩
  · decide +kernel
  · decide +kernel
  · intro executed
    have finished := (executed _ List.mem_cons_self).2
    revert finished
    decide +kernel
  · decide +kernel

/-- The first goroutine gets its own confirmation and waits for its batch. -/
theorem wait_after_execute_own :
    let moves := calls 0 (.add ()) 8 ++ loops 3 ++ [.meet 2 0] ++ calls 0 .wait 7 ++ loops 3 ++
      [.act 0 .proceed]
    Runs.Meets (executor eager).step ConfirmsOwn (start eager 2) moves ∧
      Runs.Meets (executor eager).step (fun s move => ∀ g, WaitReturns s move g → Executed s g)
        (start eager 2) moves := by
  intro moves
  have own : Runs.Meets (executor eager).step ConfirmsOwn (start eager 2) moves := by
    simp only [moves, Runs.meets_append]
    refine ⟨⟨⟨⟨⟨confirmsOwn_acts _ _ _, confirmsOwn_acts _ _ _⟩, ?_, trivial⟩,
      confirmsOwn_acts _ _ _⟩, confirmsOwn_acts _ _ _⟩, confirmsOwn_acts _ 0 [.proceed]⟩
    intro loop foundLoop adder foundAdder vals task own confirming waiting
    have loopAt : loop = { position := .commandConfirm ⟨0, .collection [()]⟩ } :=
      Option.some.inj (foundLoop.symm.trans (by decide +kernel))
    have adderAt : adder = { position := .addConfirm () ⟨0, .collection [()]⟩ } :=
      Option.some.inj (foundAdder.symm.trans (by decide +kernel))
    rw [loopAt] at confirming
    rw [adderAt] at waiting
    cases confirming
    cases waiting
    rfl
  exact ⟨own, wait_after_execute eager 2 moves own⟩

end FastGoZero.Executors
