import FastGoZero.Executors.Batches
import FastGoZero.Sqlx.BulkInserter

/-!
# Which statement a row is sent with

As long as a batch waits for its `Execute`, its rows must have been made with the statement that
the `dbInserter` has. The lock of the inserter sees to it that no `Insert` is under way when the
statement changes, and the confirmations of the executor that no batch is in its channel then.
Nothing sees to it that no batch has been removed from the container by a flush, or confirmed by
the loop, without having been executed.
-/

namespace FastGoZero.Sqlx

open Lib Lib.Concurrent Executors Multiset

namespace Method

def reads : Method → Nat
  | insertFormat _ | insertAdd | insertUnlock => 1
  | _ => 0

def writes : Method → Nat
  | updateStmt _ | updateFlush _ | syncLock _ | syncStore _ | syncUnlock | updateUnlock => 1
  | _ => 0

/-- The statement that the inserter has got and the `dbInserter` has not. -/
def renews : Method → Option BulkStmt
  | updateFlush stmt | syncLock stmt | syncStore stmt => some stmt
  | _ => none

/-- Has given the statement to the `dbInserter`. -/
def renewed : Method → Bool
  | syncUnlock => true
  | updateUnlock => true
  | _ => false

/-- Is about to give the statement to the `dbInserter`. -/
def stores : Method → Bool
  | syncStore _ => true
  | _ => false

end Method

/-- `Execute` has read the whole statement. -/
def Execution.decided : Execution → Bool
  | complete _ _ => true
  | returned => true
  | _ => false

namespace Client

variable (c : Client)

def reads : Nat := c.method.reads

def writes : Nat := c.method.writes

def waits : Nat := c.g.position.waits

def commands : Nat := c.g.position.commands

/-- The rows whose statement is still to be read. -/
def pending : Multiset Row := if c.execution.decided then 0 else c.g.position.carried

def unsent : Multiset Row :=
  if c.execution = .returned then 0 else c.g.position.carried

/-- The rows that were removed by a flush, or received and confirmed, and whose statement is still
to be read. -/
def executes : List Row := if c.execution.decided then [] else c.g.position.ahead

/-- Has seen the container empty while it holds the lock alone. -/
def emptied : Bool :=
  match c.method with
  | .updateFlush _ => !c.g.position.clears
  | .syncLock _ => true
  | .syncStore _ => true
  | _ => false

/-- The call of the inserter and the place in the executor belong together. -/
structure Proper (c : Client) : Prop where
  resting : c.method.runs = false → c.g.position = .idle
  adding : c.g.position.adds = true → c.method = .insertAdd
  executing : c.execution ≠ .ready → ∃ caller vals, c.g.position = .executing caller vals

/-- What `Execute` has read is of the statement that the rows were made with. -/
def ReadRight : Prop :=
  match c.execution with
  | .prefixRead text | .suffixSeen text => ∀ row ∈ c.g.position.carried, row.stmt.prefixText = text
  | .complete text suffix =>
    ∀ row ∈ c.g.position.carried, row.stmt.prefixText = text ∧ row.stmt.suffix = suffix
  | _ => True

end Client

/-- The rows were made with the statement they are sent with. -/
def Sent.Bound (sent : Sent) : Prop :=
  ∀ row ∈ sent.rows, row.stmt.prefixText = sent.prefixText ∧ row.stmt.suffix = sent.suffix

def sentRows (sent : List Sent) : Multiset Row := (sent.flatMap Sent.rows : List Row)

open Client

/-- The invariant of the inserter. -/
structure Binding (b : BulkInserter) (crowd : Multiset Client) : Prop where
  proper : ∀ c ∈ crowd, c.Proper
  reading : total reads crowd = b.readers
  writing : total writes crowd = b.writing.toNat
  exclusive : b.writing = true → b.readers = 0
  agreed : b.writing = false → b.stmt = b.inserterStmt
  renews : ∀ c ∈ crowd, ∀ stmt, c.method.renews = some stmt → b.stmt = stmt
  renewed : ∀ c ∈ crowd, c.method.renewed = true → b.stmt = b.inserterStmt
  emptied : ∀ c ∈ crowd, c.emptied = true → dbInserter.tasks b.executor.content = 0
  confirmed : total waits crowd = total commands crowd + b.executor.inChannel
  made : ∀ row ∈ b.executor.kept + total pending crowd, row.stmt = b.inserterStmt
  read : ∀ c ∈ crowd, c.ReadRight
  sent : ∀ sent ∈ b.sent, sent.Bound
  conserved : b.formatted = b.executor.kept + total unsent crowd + sentRows b.sent

variable {b b' : BulkInserter} {c c' : Client} {started : List Client}

open PeriodicalExecutor

/-- What the ticker and the time since the last execution do to a goroutine. -/
theorem choose_apart {position after : Position Row} {choice : Choice Row}
    (other : ∀ call, choice ≠ .call call) (chose : position.choose choice = some after) :
    (position ≠ .idle ∧ ∀ caller vals, position ≠ .executing caller vals) ∧
      (position.carried = 0 ∧ after.carried = 0) ∧ (position.clears = false ∧ after.adds = false) ∧
      after.waits + position.commands = position.waits + after.commands := by
  cases position <;> cases choice <;> simp [Position.choose] at chose other ⊢ <;> subst chose <;>
    split <;> simp [Position.carried, Position.held, Position.clears, Position.adds,
      Position.waits, Position.commands]

section

variable (step : InserterStep b c b' c' started)
include step

theorem started_loop : ∀ v ∈ started, v = .loop { position := .select false } := by
  intro v mem
  cases step
  case ran e position gs running elsewhere moved =>
    obtain ⟨g, present, rfl⟩ := List.mem_map.mp mem
    rw [mem_started moved g present]
  all_goals exact absurd mem List.not_mem_nil

theorem total_started {M : Type*} [AddCommMonoid M] (f : Client → M)
    (quiet : f (.loop { position := .select false }) = 0) :
    total f (started : Multiset Client) = 0 := by
  apply total_eq_zero
  intro v mem
  rw [started_loop step v mem, quiet]

omit step in
theorem Client.proper_of_ready (place : c.method.runs = true ∨ c.g.position = .idle)
    (outside : c.g.position.adds = false ∨ c.method = .insertAdd)
    (ready : c.execution = .ready) : c.Proper := by
  refine ⟨?_, ?_, ?_⟩
  · intro rests
    exact place.resolve_left (by rw [rests]; exact Bool.false_ne_true)
  · intro adding
    exact outside.resolve_left (by rw [adding]; exact Bool.true_eq_false_eq_False)
  · intro begun
    exact absurd ready begun

omit step in
theorem Client.Proper.ready (proper : c.Proper)
    (elsewhere : ∀ caller vals, c.g.position ≠ .executing caller vals) : c.execution = .ready := by
  by_contra begun
  obtain ⟨caller, vals, inside⟩ := proper.executing begun
  exact elsewhere caller vals inside

omit step in
theorem Client.Proper.ready_of_idle (proper : c.Proper) (idle : c.g.position = .idle) :
    c.execution = .ready := by
  apply proper.ready
  rw [idle]
  simp

theorem proper_step (proper : c.Proper) : c'.Proper := by
  have ready : c.method.runs = false → c.execution = .ready := fun rests =>
    proper.ready_of_idle (proper.resting rests)
  cases step
  case ran e position gs running elsewhere moved =>
    refine proper_of_ready (Or.inl running) ?_ (proper.ready elsewhere)
    cases adding : position.adds with
    | false => exact Or.inl adding
    | true => exact Or.inr (proper.adding (proceed_adds moved adding))
  case chosen choice position other chose =>
    obtain ⟨⟨busy, elsewhere⟩, -, ⟨-, outside⟩, -⟩ := choose_apart other chose
    refine proper_of_ready (Or.inl ?_) (Or.inl outside) (proper.ready elsewhere)
    exact eq_true_of_ne_false fun rests => busy (proper.resting rests)
  case read caller vals _ _ inside _ | sent caller vals _ _ _ inside _ =>
    exact ⟨proper.resting, proper.adding, fun _ => ⟨caller, vals, inside⟩⟩
  case executed caller vals e running inside returned same =>
    exact proper_of_ready (Or.inl running) (Or.inl rfl) rfl
  case returned method idle returns =>
    refine proper_of_ready (Or.inr idle) (Or.inl ?_) (proper.ready_of_idle idle)
    simp [idle, Position.adds]
  case formatted args value here =>
    exact proper_of_ready (Or.inl rfl) (Or.inr rfl) (ready (by rw [here]; rfl))
  case flushes here | updated _ here =>
    exact proper_of_ready (Or.inl rfl) (Or.inl rfl) (ready (by rw [here]; rfl))
  all_goals
    have rests : c.method.runs = false := by simp_all [Method.runs]
    have idle := proper.resting rests
    refine proper_of_ready (Or.inr idle) (Or.inl ?_) (ready rests)
    simp [idle, Position.adds]

theorem reads_step (least : c.reads ≤ b.readers) : c'.reads + b.readers = c.reads + b'.readers := by
  simp only [reads] at least ⊢
  cases step
  case returned method idle returns =>
    rw [Client.returns] at returns
    split at returns <;> simp_all [Method.reads] <;> subst returns <;> rfl
  case called method outside call =>
    rcases call with ⟨args, rfl⟩ | ⟨stmt, rfl⟩ | rfl <;> simp [outside, Method.reads]
  all_goals simp_all [Method.reads] <;> omega

theorem writes_step (least : c.writes ≤ b.writing.toNat) :
    c'.writes + b.writing.toNat = c.writes + b'.writing.toNat := by
  simp only [writes] at least ⊢
  cases step
  case returned method idle returns =>
    rw [Client.returns] at returns
    split at returns <;> simp_all [Method.writes] <;> subst returns <;> rfl
  case called method outside call =>
    rcases call with ⟨args, rfl⟩ | ⟨stmt, rfl⟩ | rfl <;> simp [outside, Method.writes]
  case unlocked here =>
    cases writing : b.writing <;> simp_all [Method.writes]
  all_goals simp_all [Method.writes]

theorem waits_step (proper : c.Proper) :
    c'.waits + c.commands + b.executor.inChannel =
      c.waits + c'.commands + b'.executor.inChannel := by
  have idle : c.method.runs = false → c.g.position = .idle := proper.resting
  simp only [waits, commands]
  cases step
  case ran e position gs running elsewhere moved =>
    exact proceed_waits moved
  case chosen choice position other chose =>
    exact congrArg (· + _) (choose_apart other chose).2.2.2
  case executed caller vals e running inside returned same =>
    simp [inside, Position.waits, Position.commands, inChannel, same.2]
  case flushes here | formatted _ _ here | updated _ here =>
    rw [idle (by rw [here]; rfl)]
    simp [Position.waits, Position.commands]
  all_goals rfl

end

/-- What a step does with the rows. -/
inductive Effect (b : BulkInserter) (c : Client) (b' : BulkInserter) (c' : Client) : Prop
  | quiet (ready : c.execution = .ready) (ready' : c'.execution = .ready)
      (sent : b'.sent = b.sent) (formatted : b'.formatted = b.formatted)
      (carried : b'.executor.kept + c'.g.position.carried =
        b.executor.kept + c.g.position.carried)
  | formatted (row : Row) (made : row.stmt = b.stmt) (reads : c.reads = 1)
      (same : b' = { b with formatted := row ::ₘ b.formatted }) (idle : c.g.position = .idle)
      (ready : c.execution = .ready) (ready' : c'.execution = .ready)
      (carried : c'.g.position = .addLock row)
  | read (caller : Caller) (vals : Parcel Row) (execution : Execution)
      (inside : c.g.position = .executing caller vals)
      (reads : Reads b.inserterStmt vals.batch.tasks c.execution execution)
      (same : b' = b) (next : c' = { c with execution := execution })
  | sent (caller : Caller) (vals : Parcel Row) (text suffix : Str)
      (inside : c.g.position = .executing caller vals)
      (complete : c.execution = .complete text suffix)
      (same : b' = { b with sent := b.sent ++ [⟨vals.batch.tasks, text, suffix⟩] })
      (next : c' = { c with execution := .returned })
  | executed (returned : c.execution = .returned) (ready' : c'.execution = .ready)
      (sent : b'.sent = b.sent) (formatted : b'.formatted = b.formatted)
      (kept : b'.executor.kept = b.executor.kept) (none : c'.g.position.carried = 0)

theorem effect_of_step (step : InserterStep b c b' c' started) (proper : c.Proper) :
    Effect b c b' c' := by
  have idle : c.method.runs = false → c.g.position = .idle := proper.resting
  have ready : c.method.runs = false → c.execution = .ready := fun rests =>
    proper.ready_of_idle (proper.resting rests)
  cases step
  case ran e position gs running elsewhere moved =>
    have ready := proper.ready elsewhere
    exact .quiet ready ready rfl rfl (proceed_kept moved elsewhere)
  case chosen choice position other chose =>
    obtain ⟨⟨-, elsewhere⟩, ⟨before, after⟩, -⟩ := choose_apart other chose
    have ready := proper.ready elsewhere
    exact .quiet ready ready rfl rfl (by rw [goTo_position, before, after])
  case read caller vals execution running inside reads =>
    exact .read caller vals execution inside reads rfl rfl
  case sent caller vals text suffix running inside complete =>
    exact .sent caller vals text suffix inside complete rfl rfl
  case executed caller vals e running inside returned same =>
    refine .executed returned rfl rfl rfl ?_ rfl
    rw [kept, kept, same.1, same.2]
  case returned method idle returns =>
    have ready := proper.ready_of_idle idle
    exact .quiet ready ready rfl rfl rfl
  case flushes here | updated _ here =>
    have rests : c.method.runs = false := by rw [here]; rfl
    exact .quiet (ready rests) (ready rests) rfl rfl (by rw [idle rests]; rfl)
  case formatted args value here =>
    have rests : c.method.runs = false := by rw [here]; rfl
    refine .formatted ⟨value, b.stmt⟩ rfl ?_ rfl (idle rests) (ready rests) (ready rests) rfl
    rw [reads, here]
    rfl
  all_goals
    have rests : c.method.runs = false := by simp_all [Method.runs]
    exact .quiet (ready rests) (ready rests) rfl rfl rfl

theorem Client.pending_of_ready (ready : c.execution = .ready) :
    c.pending = c.g.position.carried := by
  simp [pending, ready, Execution.decided]

theorem Client.unsent_of_ready (ready : c.execution = .ready) :
    c.unsent = c.g.position.carried := by
  simp [unsent, ready]

theorem sentRows_concat (sent : List Sent) (last : Sent) :
    sentRows (sent ++ [last]) = sentRows sent + last.rows := by
  simp [sentRows]

section

variable (effect : Effect b c b' c')
include effect

theorem unsent_step :
    b'.executor.kept + c'.unsent + sentRows b'.sent + b.formatted =
      b.executor.kept + c.unsent + sentRows b.sent + b'.formatted := by
  cases effect with
  | quiet ready ready' sent formatted carried =>
    rw [unsent_of_ready ready, unsent_of_ready ready', carried, sent, formatted]
  | formatted row made reads same idle ready ready' carried =>
    rw [unsent_of_ready ready, unsent_of_ready ready', idle, carried, same, ← singleton_add]
    simp only [Position.carried, Position.held]
    abel
  | read caller vals execution inside reads same next =>
    rw [same, next]
    have unchanged : unsent { c with execution := execution } = c.unsent := by
      simp only [unsent, inside, Position.carried, Parcel.tasks]
      generalize c.execution = before at reads
      cases reads
      case nothing empty => simp [empty]
      all_goals simp
    rw [unchanged]
  | sent caller vals text suffix inside complete same next =>
    have before : c.unsent = vals.tasks := by
      simp [unsent, complete, inside, Position.carried]
    have after : c'.unsent = 0 := by
      rw [next]
      simp [unsent]
    rw [before, after, same, sentRows_concat, Parcel.tasks]
    abel
  | executed returned ready' sent formatted kept none =>
    have before : c.unsent = 0 := by simp [unsent, returned]
    rw [before, unsent_of_ready ready', none, kept, sent, formatted]

/-- The rows whose statement is to be read were there before, or are made now. -/
theorem pending_step : ∀ row ∈ b'.executor.kept + c'.pending,
    row ∈ b.executor.kept + c.pending ∨ row.stmt = b.stmt ∧ c.reads = 1 := by
  intro row mem
  cases effect with
  | quiet ready ready' sent formatted carried =>
    rw [pending_of_ready ready', carried, ← pending_of_ready ready] at mem
    exact Or.inl mem
  | formatted other made reads same idle ready ready' carried =>
    rw [pending_of_ready ready', carried, same] at mem
    rcases mem_add.mp mem with old | new
    · exact Or.inl (mem_add.mpr (Or.inl old))
    · obtain rfl := mem_singleton.mp new
      exact Or.inr ⟨made, reads⟩
  | read caller vals execution inside reads same next =>
    rw [same, next] at mem
    rcases mem_add.mp mem with old | held
    · exact Or.inl (mem_add.mpr (Or.inl old))
    · refine Or.inl (mem_add.mpr (Or.inr ?_))
      simp only [pending] at held ⊢
      generalize c.execution = before at reads ⊢
      cases reads <;> simp [Execution.decided] at held ⊢ <;> exact held
  | sent caller vals text suffix inside complete same next =>
    rw [same, next] at mem
    simp only [pending, Execution.decided] at mem
    rcases mem_add.mp mem with old | held
    · exact Or.inl (mem_add.mpr (Or.inl old))
    · simp at held
  | executed returned ready' sent formatted kept none =>
    rw [pending_of_ready ready', none, kept, add_zero] at mem
    exact Or.inl (mem_add.mpr (Or.inl mem))

theorem readRight_step (made : ∀ row ∈ c.pending, row.stmt = b.inserterStmt)
    (right : c.ReadRight) : c'.ReadRight := by
  cases effect with
  | quiet _ ready' | formatted _ _ _ _ _ _ ready' | executed _ ready' =>
    simp [ReadRight, ready']
  | sent caller vals text suffix inside complete same next =>
    rw [next]
    trivial
  | read caller vals execution inside reads same next =>
    rw [next]
    simp only [pending, ReadRight] at made right ⊢
    generalize c.execution = before at reads made right
    cases reads with
    | nothing empty => trivial
    | prefixText present =>
      intro row mem
      rw [made row mem]
    | seen text present => exact right
    | unseen text absent =>
      intro row mem
      exact ⟨right row mem, by rw [made row mem, absent]⟩
    | suffix text =>
      intro row mem
      exact ⟨right row mem, by rw [made row mem]⟩

theorem sent_step (right : c.ReadRight) (before : ∀ sent ∈ b.sent, sent.Bound) :
    ∀ sent ∈ b'.sent, sent.Bound := by
  intro last mem
  cases effect with
  | quiet _ _ same | executed _ _ same | read _ _ _ _ _ same => exact before last (same ▸ mem)
  | formatted row isMade reads same idle ready ready' carried =>
    rw [same] at mem
    exact before last mem
  | sent caller vals text suffix inside complete same next =>
    rw [same] at mem
    rcases List.mem_append.mp mem with old | new
    · exact before last old
    · obtain rfl := List.mem_singleton.mp new
      rwa [ReadRight, complete, inside] at right

end

end FastGoZero.Sqlx
