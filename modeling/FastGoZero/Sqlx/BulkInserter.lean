import FastGoZero.Executors.PeriodicalExecutor
import FastGoZero.Sqlx.Format
import FastGoZero.Sqlx.InsertStmt

/-!
# The bulk inserter

`Insert` formats a row with the statement of the inserter and adds it to a periodical executor,
under a lock that it shares with other calls of `Insert`. `UpdateStmt` takes the lock alone,
flushes the executor and then gives the statement to the container of the executor, whose
`Execute` reads the prefix and the suffix when it makes the text for the database. `Execute` is
called by a goroutine that has removed the rows from the container, and takes no lock.

The steps of the executor are those of its own model. `Sync` takes the executor's lock, and the
accesses to the statements are steps of their own.
-/

namespace FastGoZero.Sqlx

open Lib Lang Executors Option

def maxBulkRows : Nat := 1000

/-- A formatted row. The statement by whose format it was made is a record only. -/
structure Row where
  value : Str
  stmt : BulkStmt
deriving DecidableEq

/-- The container of the executor: `values` of the `dbInserter`. -/
def dbInserter : TaskContainer Row where
  Content := List Row
  new := []
  addTask values task := (values ++ [task], decide (maxBulkRows ≤ (values ++ [task]).length))
  removeAll values := ([], .collection values)
  tasks values := values
  tasks_new := rfl
  tasks_addTask values task := by
    rw [← Multiset.coe_add, Multiset.coe_singleton, Multiset.add_comm]
    rfl
  tasks_removeAll _ := rfl
  removed _ := rfl

/-- What `Exec` was called with: the rows and the two texts around them. -/
structure Sent where
  rows : List Row
  prefixText : Str
  suffix : Str
deriving DecidableEq

/-- The fields of the inserter, of its lock and of the `dbInserter`. The last two record the rows
that were formatted and the calls of `Exec`. -/
structure BulkInserter where
  executor : PeriodicalExecutor dbInserter
  stmt : BulkStmt
  readers : Nat
  writing : Bool
  inserterStmt : BulkStmt
  formatted : Multiset Row
  sent : List Sent

/-- Where a goroutine is in a call of the inserter. In `insertAdd`, `updateFlush`, `flush` and
`background` it runs the code of the executor. -/
inductive Method where
  | idle
  | insertLock (args : List GoValue)
  | insertFormat (args : List GoValue)
  | insertAdd
  | insertUnlock
  | updateLock (stmt : BulkStmt)
  | updateStmt (stmt : BulkStmt)
  | updateFlush (stmt : BulkStmt)
  | syncLock (stmt : BulkStmt)
  | syncStore (stmt : BulkStmt)
  | syncUnlock
  | updateUnlock
  | flush
  | background

/-- How far a call of `Execute` is: what it has read of the statement. -/
inductive Execution where
  | ready
  | prefixRead (text : Str)
  | suffixSeen (text : Str)
  | complete (text suffix : Str)
  | returned
deriving DecidableEq

structure Client where
  method : Method
  g : Goroutine Row
  execution : Execution

inductive InserterCall where
  | insert (args : List GoValue)
  | updateStmt (stmt : Str)
  | flush

/-- What a step depends on beside the state: a call that an idle goroutine makes, the ticker, and
whether the last execution of the loop is long ago. -/
inductive InserterChoice where
  | proceed
  | call (call : InserterCall)
  | tick
  | sinceLast (long : Bool)

namespace Client

/-- A goroutine of a caller, outside of all calls. -/
def outside : Client := ⟨.idle, { position := .idle }, .ready⟩

variable (c : Client)

def goTo (position : Position Row) : Client :=
  { c with g := { c.g with position := position } }

variable (position : Position Row)

@[simp] theorem goTo_position : (c.goTo position).g.position = position := rfl

@[simp] theorem goTo_method : (c.goTo position).method = c.method := rfl

@[simp] theorem goTo_execution : (c.goTo position).execution = c.execution := rfl

/-- Where a call of the inserter goes on when the executor has returned. -/
def returns : Option Method :=
  match c.method with
  | .insertAdd => some .insertUnlock
  | .updateFlush stmt => some (.syncLock stmt)
  | .flush => some .idle
  | _ => none

end Client

namespace BulkInserter

variable (b : BulkInserter)

/-- A step of the executor, made by a goroutine of the inserter. The loop that it starts is a
goroutine of its own. -/
def executorStep (c : Client) (choice : Choice Row) :
    Option (BulkInserter × Client × List Client) :=
  (b.executor.act c.g choice).map fun (executor, g, started) =>
    ({ b with executor := executor }, { c with g := g },
      started.map fun loop => ⟨.background, loop, .ready⟩)

/-- A step of `Execute`. -/
def executeStep (c : Client) (rows : List Row) : Option (BulkInserter × Client × List Client) :=
  match c.execution with
  | .ready =>
    if rows.isEmpty then some (b, { c with execution := .returned }, [])
    else some (b, { c with execution := .prefixRead b.inserterStmt.prefixText }, [])
  | .prefixRead text =>
    if 0 < b.inserterStmt.suffix.length then
      some (b, { c with execution := .suffixSeen text }, [])
    else some (b, { c with execution := .complete text [] }, [])
  | .suffixSeen text =>
    some (b, { c with execution := .complete text b.inserterStmt.suffix }, [])
  | .complete text suffix =>
    some ({ b with sent := b.sent ++ [⟨rows, text, suffix⟩] },
      { c with execution := .returned }, [])
  | .returned => b.executorStep { c with execution := .ready } .proceed

/-- A step of a goroutine that runs the code of the executor. -/
def within (c : Client) : Option (BulkInserter × Client × List Client) :=
  match c.g.position with
  | .idle => c.returns.map fun method => (b, { c with method := method }, [])
  | .executing _ vals => b.executeStep c vals.batch.tasks
  | _ => b.executorStep c .proceed

/-- The next step of a goroutine that waits for nobody else's choice. -/
def proceed (c : Client) : Option (BulkInserter × Client × List Client) :=
  match c.method with
  | .idle => none
  | .insertLock args =>
    if b.writing then none
    else some ({ b with readers := b.readers + 1 }, { c with method := .insertFormat args }, [])
  | .insertFormat args =>
    match format b.stmt.valueFormat args with
    | .ok (.ok value) =>
      some ({ b with formatted := ⟨value, b.stmt⟩ ::ₘ b.formatted },
        { c.goTo (Call.add ⟨value, b.stmt⟩).entry with method := .insertAdd }, [])
    | _ => some (b, { c with method := .insertUnlock }, [])
  | .insertUnlock => some ({ b with readers := b.readers - 1 }, { c with method := .idle }, [])
  | .updateLock stmt =>
    if b.writing ∨ b.readers ≠ 0 then none
    else some ({ b with writing := true }, { c with method := .updateStmt stmt }, [])
  | .updateStmt stmt =>
    some ({ b with stmt := stmt },
      { c.goTo Call.flush.entry with method := .updateFlush stmt }, [])
  | .syncLock stmt =>
    if b.executor.lock then none
    else some ({ b with executor := { b.executor with lock := true } },
      { c with method := .syncStore stmt }, [])
  | .syncStore stmt =>
    some ({ b with inserterStmt := stmt }, { c with method := .syncUnlock }, [])
  | .syncUnlock =>
    some ({ b with executor := { b.executor with lock := false } },
      { c with method := .updateUnlock }, [])
  | .updateUnlock => some ({ b with writing := false }, { c with method := .idle }, [])
  | _ => b.within c

/-- The beginning of a call. A statement that cannot be parsed changes nothing. -/
def begin (toLower : Str → Str) (c : Client) :
    InserterCall → Option (BulkInserter × Client × List Client)
  | .insert args => some (b, { c with method := .insertLock args }, [])
  | .updateStmt text =>
    match parseInsertStmt toLower text with
    | .ok (.ok stmt) => some (b, { c with method := .updateLock stmt }, [])
    | _ => some (b, c, [])
  | .flush => some (b, { c.goTo Call.flush.entry with method := .flush }, [])

def act (toLower : Str → Str) (c : Client) :
    InserterChoice → Option (BulkInserter × Client × List Client)
  | .proceed => b.proceed c
  | .call call =>
    match c.method with
    | .idle => b.begin toLower c call
    | _ => none
  | .tick => b.executorStep c .tick
  | .sinceLast long => b.executorStep c (.sinceLast long)

/-- The loop of the executor confirms a batch to a goroutine that adds. -/
def confirm (loop adder : Client) : Option (BulkInserter × Client × Client) :=
  (b.executor.confirm loop.g adder.g).map fun (executor, loopG, adderG) =>
    ({ b with executor := executor }, { loop with g := loopG }, { adder with g := adderG })

end BulkInserter

/-- The inserter with any number of goroutines that call it. -/
def bulkInserter (toLower : Str → Str) :
    Concurrent.Program BulkInserter Client InserterChoice where
  act b := b.act toLower
  meet := BulkInserter.confirm

/-- `NewBulkInserter` with the parsed statement. -/
def newBulkInserter (stmt : BulkStmt) : BulkInserter where
  executor := newPeriodicalExecutor dbInserter
  stmt := stmt
  readers := 0
  writing := false
  inserterStmt := stmt
  formatted := 0
  sent := []

def bulkStart (stmt : BulkStmt) (callers : Nat) : Concurrent.State BulkInserter Client :=
  ⟨newBulkInserter stmt, List.replicate callers .outside⟩

/-- The methods that run the code of the executor. -/
def Method.runs : Method → Bool
  | .insertAdd | .updateFlush _ | .flush | .background => true
  | _ => false

/-- What `Execute` reads in a step. -/
inductive Reads (stmt : BulkStmt) (rows : List Row) : Execution → Execution → Prop
  | nothing (empty : rows = []) : Reads stmt rows .ready .returned
  | prefixText (present : rows ≠ []) : Reads stmt rows .ready (.prefixRead stmt.prefixText)
  | seen (text : Str) (present : stmt.suffix ≠ []) :
      Reads stmt rows (.prefixRead text) (.suffixSeen text)
  | unseen (text : Str) (absent : stmt.suffix = []) :
      Reads stmt rows (.prefixRead text) (.complete text [])
  | suffix (text : Str) : Reads stmt rows (.suffixSeen text) (.complete text stmt.suffix)

def Client.loop (g : Goroutine Row) : Client := ⟨.background, g, .ready⟩

/-- The steps of the goroutines, one by one. -/
inductive InserterStep (b : BulkInserter) : Client → BulkInserter → Client → List Client → Prop
  | ran (c : Client) (e : PeriodicalExecutor dbInserter) (position : Position Row)
      (started : List (Goroutine Row)) (running : c.method.runs = true)
      (elsewhere : ∀ caller vals, c.g.position ≠ .executing caller vals)
      (moved : b.executor.proceed c.g.position = some (e, position, started)) :
      InserterStep b c { b with executor := e } (c.goTo position) (started.map .loop)
  | chosen (c : Client) (choice : Choice Row) (position : Position Row)
      (other : ∀ call, choice ≠ .call call)
      (chose : c.g.position.choose choice = some position) :
      InserterStep b c b (c.goTo position) []
  | read (c : Client) (caller : Caller) (vals : Parcel Row) (execution : Execution)
      (running : c.method.runs = true) (inside : c.g.position = .executing caller vals)
      (reads : Reads b.inserterStmt vals.batch.tasks c.execution execution) :
      InserterStep b c b { c with execution := execution } []
  | sent (c : Client) (caller : Caller) (vals : Parcel Row) (text suffix : Str)
      (running : c.method.runs = true) (inside : c.g.position = .executing caller vals)
      (complete : c.execution = .complete text suffix) :
      InserterStep b c { b with sent := b.sent ++ [⟨vals.batch.tasks, text, suffix⟩] }
        { c with execution := .returned } []
  | executed (c : Client) (caller : Caller) (vals : Parcel Row) (e : PeriodicalExecutor dbInserter)
      (running : c.method.runs = true) (inside : c.g.position = .executing caller vals)
      (returned : c.execution = .returned)
      (same : e.content = b.executor.content ∧ e.commander = b.executor.commander) :
      InserterStep b c { b with executor := e }
        { c.goTo (.doneExecution caller true) with execution := .ready } []
  | returned (c : Client) (method : Method) (idle : c.g.position = .idle)
      (returns : c.returns = some method) : InserterStep b c b { c with method := method } []
  | called (c : Client) (method : Method) (outside : c.method = .idle)
      (call : (∃ args, method = .insertLock args) ∨ (∃ stmt, method = .updateLock stmt) ∨
        method = .idle) : InserterStep b c b { c with method := method } []
  | flushes (c : Client) (outside : c.method = .idle) :
      InserterStep b c b { c.goTo (.flushEnter .flush) with method := .flush } []
  | readLocked (c : Client) (args : List Lang.GoValue) (here : c.method = .insertLock args)
      (free : b.writing = false) :
      InserterStep b c { b with readers := b.readers + 1 }
        { c with method := .insertFormat args } []
  | formatted (c : Client) (args : List Lang.GoValue) (value : Str)
      (here : c.method = .insertFormat args) :
      InserterStep b c { b with formatted := ⟨value, b.stmt⟩ ::ₘ b.formatted }
        { c.goTo (.addLock ⟨value, b.stmt⟩) with method := .insertAdd } []
  | refused (c : Client) (args : List Lang.GoValue) (here : c.method = .insertFormat args) :
      InserterStep b c b { c with method := .insertUnlock } []
  | readUnlocked (c : Client) (here : c.method = .insertUnlock) :
      InserterStep b c { b with readers := b.readers - 1 } { c with method := .idle } []
  | locked (c : Client) (stmt : BulkStmt) (here : c.method = .updateLock stmt)
      (free : b.writing = false) (alone : b.readers = 0) :
      InserterStep b c { b with writing := true } { c with method := .updateStmt stmt } []
  | updated (c : Client) (stmt : BulkStmt) (here : c.method = .updateStmt stmt) :
      InserterStep b c { b with stmt := stmt }
        { c.goTo (.flushEnter .flush) with method := .updateFlush stmt } []
  | syncLocked (c : Client) (stmt : BulkStmt) (here : c.method = .syncLock stmt) :
      InserterStep b c { b with executor := { b.executor with lock := true } }
        { c with method := .syncStore stmt } []
  | stored (c : Client) (stmt : BulkStmt) (here : c.method = .syncStore stmt) :
      InserterStep b c { b with inserterStmt := stmt } { c with method := .syncUnlock } []
  | syncUnlocked (c : Client) (here : c.method = .syncUnlock) :
      InserterStep b c { b with executor := { b.executor with lock := false } }
        { c with method := .updateUnlock } []
  | unlocked (c : Client) (here : c.method = .updateUnlock) :
      InserterStep b c { b with writing := false } { c with method := .idle } []

variable {toLower : Str → Str} {b b' : BulkInserter} {c c' : Client}
  {started : List Client}

theorem step_of_choose {choice : Choice Row} (other : ∀ call, choice ≠ .call call)
    (notProceed : choice ≠ .proceed)
    (stepped : b.executorStep c choice = some (b', c', started)) :
    InserterStep b c b' c' started := by
  obtain ⟨⟨e, g, gs⟩, acted, ⟨⟩⟩ := map_eq_some_iff.mp stepped
  cases choice with
  | proceed => exact absurd rfl notProceed
  | call call => exact absurd rfl (other call)
  | _ =>
    obtain ⟨position, chose, ⟨⟩⟩ := map_eq_some_iff.mp acted
    exact .chosen c _ position other chose

theorem executorStep_proceed (stepped : b.executorStep c .proceed = some (b', c', started)) :
    ∃ e position gs, b.executor.proceed c.g.position = some (e, position, gs) ∧
      b' = { b with executor := e } ∧ c' = c.goTo position ∧ started = gs.map .loop := by
  obtain ⟨⟨e, g, gs⟩, acted, ⟨⟩⟩ := map_eq_some_iff.mp stepped
  obtain ⟨⟨e, position, gs⟩, moved, ⟨⟩⟩ := map_eq_some_iff.mp acted
  exact ⟨e, position, gs, moved, rfl, rfl, rfl⟩

theorem step_of_execute {caller : Caller} {vals : Parcel Row} (running : c.method.runs = true)
    (inside : c.g.position = .executing caller vals)
    (stepped : b.executeStep c vals.batch.tasks = some (b', c', started)) :
    InserterStep b c b' c' started := by
  have reads := fun execution => InserterStep.read c caller vals execution running inside (b := b)
  revert stepped
  fun_cases BulkInserter.executeStep b c vals.batch.tasks with
  | case1 ready empty =>
    rintro ⟨⟩
    rw [ready] at reads
    exact reads _ (.nothing (List.isEmpty_iff.mp empty))
  | case2 ready present =>
    rintro ⟨⟩
    rw [ready] at reads
    exact reads _ (.prefixText fun empty => present (List.isEmpty_iff.mpr empty))
  | case3 text read present =>
    rintro ⟨⟩
    rw [read] at reads
    exact reads _ (.seen text (List.length_pos_iff.mp present))
  | case4 text read absent =>
    rintro ⟨⟩
    rw [read] at reads
    exact reads _ (.unseen text (List.length_eq_zero_iff.mp (Nat.eq_zero_of_not_pos absent)))
  | case5 text seen =>
    rintro ⟨⟩
    rw [seen] at reads
    exact reads _ (.suffix text)
  | case6 text suffix complete =>
    rintro ⟨⟩
    exact .sent c caller vals text suffix running inside complete
  | case7 returned =>
    intro stepped
    obtain ⟨e, position, gs, moved, rfl, rfl, rfl⟩ := executorStep_proceed stepped
    simp only [inside, PeriodicalExecutor.proceed, some.injEq, Prod.mk.injEq] at moved
    obtain ⟨rfl, rfl, rfl⟩ := moved
    exact .executed c caller vals _ running inside returned ⟨rfl, rfl⟩

theorem step_of_within (running : c.method.runs = true)
    (stepped : b.within c = some (b', c', started)) : InserterStep b c b' c' started := by
  unfold BulkInserter.within at stepped
  split at stepped
  case h_1 idle =>
    obtain ⟨method, returns, ⟨⟩⟩ := map_eq_some_iff.mp stepped
    exact .returned c method idle returns
  case h_2 caller vals inside => exact step_of_execute running inside stepped
  case h_3 _ elsewhere =>
    obtain ⟨e, position, gs, moved, rfl, rfl, rfl⟩ := executorStep_proceed stepped
    exact .ran c e position gs running elsewhere moved

theorem step_of_proceed (stepped : b.proceed c = some (b', c', started)) :
    InserterStep b c b' c' started := by
  revert stepped
  fun_cases BulkInserter.proceed b c with
  | case3 args here free =>
    rintro ⟨⟩
    exact .readLocked c args here (eq_false_of_ne_true free)
  | case4 args here =>
    rintro ⟨⟩
    exact .formatted c args _ here
  | case5 args here =>
    rintro ⟨⟩
    exact .refused c args here
  | case6 here =>
    rintro ⟨⟩
    exact .readUnlocked c here
  | case8 stmt here free =>
    rintro ⟨⟩
    push Not at free
    exact .locked c stmt here (eq_false_of_ne_true free.1) free.2
  | case9 stmt here =>
    rintro ⟨⟩
    exact .updated c stmt here
  | case11 stmt here =>
    rintro ⟨⟩
    exact .syncLocked c stmt here
  | case12 stmt here =>
    rintro ⟨⟩
    exact .stored c stmt here
  | case13 here =>
    rintro ⟨⟩
    exact .syncUnlocked c here
  | case14 here =>
    rintro ⟨⟩
    exact .unlocked c here
  | case15 =>
    have running : c.method.runs = true := by
      cases method : c.method <;> simp_all [Method.runs]
    exact step_of_within running
  | _ => nofun

theorem step_of_act {choice : InserterChoice}
    (acted : b.act toLower c choice = some (b', c', started)) : InserterStep b c b' c' started := by
  cases choice with
  | proceed => exact step_of_proceed acted
  | tick | sinceLast long => exact step_of_choose (by simp) (by simp) acted
  | call call =>
    simp only [BulkInserter.act] at acted
    split at acted
    · rename_i outside
      revert acted
      fun_cases BulkInserter.begin b toLower c call with
      | case1 args =>
        rintro ⟨⟩
        exact .called c _ outside (Or.inl ⟨args, rfl⟩)
      | case2 =>
        rintro ⟨⟩
        exact .called c _ outside (Or.inr (Or.inl ⟨_, rfl⟩))
      | case3 =>
        rintro ⟨⟩
        have same : c = { c with method := .idle } := by rw [← outside]
        rw [same]
        exact .called _ _ rfl (Or.inr (Or.inr rfl))
      | case4 =>
        rintro ⟨⟩
        exact .flushes c outside
    · simp at acted

end FastGoZero.Sqlx
