import FastGoZero.Executors.Conservation

/-!
# Where the tasks are before they are executed

A task is carried by the goroutine that adds it, kept in the container or in the channel, or
carried by a goroutine that is to execute it. For each batch in the channel, or received and not
confirmed, a goroutine that adds waits.
-/

namespace FastGoZero.Executors

universe u
variable {Task : Type u} {container : TaskContainer Task}

namespace Position

/-- The tasks that a goroutine has and that are not executed yet. -/
def carried : Position Task → Multiset Task
  | addLock task => {task}
  | addTask task => {task}
  | executing _ vals => vals.tasks
  | position => position.held

/-- Inside of `Add`. -/
def adds : Position Task → Bool
  | addLock _ | addTask _ | addInflight _ | addRemoveAll _ | addGuard _ _ | addUnlock _ _ _
  | addStart _ _ | addSend _ _ | addConfirm _ _ => true
  | _ => false

def waits : Position Task → Nat
  | addConfirm _ _ => 1
  | _ => 0

def commands : Position Task → Nat
  | commandInflight _ | commandEnter _ | commandConfirm _ => 1
  | _ => 0

/-- Inside of `Flush`, before the tasks are removed. -/
def clears : Position Task → Bool
  | flushEnter _ | flushLock _ | flushRemoveAll _ => true
  | _ => false

/-- The tasks that the goroutine has removed by a flush, or received and confirmed, and that are
not executed yet. -/
def ahead : Position Task → List Task
  | flushUnlock _ vals | execute _ vals | executing _ vals => vals.batch.tasks
  | _ => []

variable {position : Position Task}

theorem carried_eq_ahead (outside : position.adds = false) (confirmed : position.commands = 0) :
    position.carried = position.ahead := by
  cases position <;> simp_all [adds, commands, carried, ahead, held, Parcel.tasks]

theorem adds_of_waits (waiting : position.adds = false) : position.waits = 0 := by
  cases position <;> simp_all [adds, waits]

end Position

open Position

namespace PeriodicalExecutor

/-- The tasks in the container and in the channel. -/
def kept (e : PeriodicalExecutor container) : Multiset Task :=
  container.tasks e.content + tasksOf e.commander

variable {e e' : PeriodicalExecutor container} {position after : Position Task}
  {started : List (Goroutine Task)}

theorem kept_removeAll (e : PeriodicalExecutor container) :
    e.removeAll.1.kept + e.removeAll.2.tasks = e.kept := by
  simp only [kept, removeAll, Parcel.tasks, container.tasks_removeAll, container.removed]
  abel

section

variable (moved : e.proceed position = some (e', after, started))

include moved

/-- A step other than the end of an execution leaves the tasks that are not executed. -/
theorem proceed_kept (elsewhere : ∀ caller vals, position ≠ .executing caller vals) :
    e'.kept + after.carried = e.kept + position.carried := by
  cases position with
  | executing caller vals => exact absurd rfl (elsewhere caller vals)
  | addTask task =>
    cases moved
    have grown : {task} + container.tasks e.content + tasksOf e.commander + 0 = e.kept + {task} := by
      rw [kept]
      abel
    rw [Multiset.singleton_add, ← container.tasks_addTask] at grown
    cases (container.addTask e.content task).2 <;> exact grown
  | addRemoveAll task =>
    cases moved
    simp [carried, held, tasksOf, ← kept_removeAll e]
  | flushRemoveAll caller =>
    cases moved
    simp [carried, held, ← kept_removeAll e]
  | addSend task vals =>
    simp [proceed] at moved
    obtain ⟨free, rfl, rfl, -⟩ := moved
    simp [kept, free, carried, held, tasksOf]
  | execute caller vals =>
    rw [proceed] at moved
    split_ifs at moved with empty
    · cases moved
      simp [kept, carried, held]
    · cases moved
      simp [carried, held, Parcel.tasks, Batch.tasks_eq_nil (eq_false_of_ne_true empty)]
  | select commanded =>
    simp only [proceed, Option.map_eq_some_iff, Prod.mk.injEq] at moved
    obtain ⟨vals, waiting, rfl, rfl, -⟩ := moved
    simp [kept, waiting, carried, held, tasksOf]
  | _ =>
    simp [proceed] at moved <;> grind [kept, carried, held, tasksOf]

/-- A goroutine begins to wait when a batch comes into the channel. -/
theorem proceed_waits : after.waits + position.commands + e.inChannel =
      position.waits + after.commands + e'.inChannel := by
  cases position <;> simp [proceed] at moved <;> grind [waits, commands, inChannel, removeAll]

/-- A goroutine comes into `Add` by a call only. -/
theorem proceed_adds (adding : after.adds = true) : position.adds = true := by
  cases position <;> simp [proceed] at moved <;> grind [adds]

/-- Outside of `Add` the container stays as it is or is emptied, which a flush sees to. -/
theorem proceed_empties (outside : position.adds = false) : container.tasks e'.content = 0 ∨
      e'.content = e.content ∧ (position.clears = true → after.clears = true) := by
  cases position with
  | flushRemoveAll caller =>
    cases moved
    exact Or.inl (container.tasks_removeAll e.content)
  | select commanded =>
    simp only [proceed, Option.map_eq_some_iff, Prod.mk.injEq] at moved
    obtain ⟨vals, waiting, rfl, rfl, -⟩ := moved
    exact Or.inr ⟨rfl, fun removing => removing⟩
  | _ => simp [proceed] at moved <;> grind [adds, clears]

end

end PeriodicalExecutor

end FastGoZero.Executors
