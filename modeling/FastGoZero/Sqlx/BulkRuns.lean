import FastGoZero.Sqlx.StatementBinding

/-!
# The statements of the rows over whole runs

The statement of the `dbInserter` changes in one step, made under the lock of the inserter after a
flush. A run in which no goroutine holds unexecuted rows at these steps sends every row with the
statement it was made with; a run in which one does may not.
-/

namespace FastGoZero.Sqlx

open Lib Lib.Concurrent Executors Multiset
open Lib.Str (bytes)

variable {toLower : Str → Str} {b b' : BulkInserter} {c c' v : Client}
  {started : List Client} {crowd rest : Multiset Client}

open Client

namespace Binding

section

variable (binding : Binding b crowd)

include binding

theorem reads_zero (writing : b.writing = true) : ∀ v ∈ crowd, v.reads = 0 := by
  have none := binding.reading
  rw [binding.exclusive writing] at none
  exact (total_eq_zero_iff reads crowd).mp none

theorem adds_false (writing : b.writing = true) : ∀ v ∈ crowd, v.g.position.adds = false := by
  intro v mem
  by_contra adding
  have method := (binding.proper v mem).adding (eq_true_of_ne_false adding)
  have none := binding.reads_zero writing v mem
  simp [reads, method, Method.reads] at none

theorem writing_of_writes {v : Client} (mem : v ∈ crowd) (writes : v.writes = 1) :
    b.writing = true := by
  have least := le_total Client.writes mem
  rw [binding.writing, writes] at least
  cases writing : b.writing with
  | true => rfl
  | false => simp [writing] at least

theorem agreed_of_reads {v : Client} (mem : v ∈ crowd) (reads : v.reads = 1) :
    b.stmt = b.inserterStmt := by
  apply binding.agreed
  by_contra writing
  have none := binding.reads_zero (eq_true_of_ne_false writing) v mem
  omega

end

/-- The goroutine that holds the lock alone is the only one. -/
theorem writes_rest (binding : Binding b (c ::ₘ rest)) (writes : c.writes = 1) :
    ∀ v ∈ rest, v.writes = 0 := by
  have most : b.writing.toNat ≤ 1 := Bool.toNat_le b.writing
  have balance := binding.writing
  rw [total_cons] at balance
  exact (total_eq_zero_iff Client.writes rest).mp (by omega)

theorem made_rest (binding : Binding b (c ::ₘ rest)) :
    (∀ row ∈ b.executor.kept + c.pending, row.stmt = b.inserterStmt) ∧
      ∀ row ∈ total pending rest, row.stmt = b.inserterStmt := by
  have made := binding.made
  rw [total_cons, ← add_assoc] at made
  constructor
  · exact fun row mem => made row (mem_add.mpr (Or.inl mem))
  · exact fun row mem => made row (mem_add.mpr (Or.inr mem))

end Binding

theorem writes_of_renews {stmt : BulkStmt} (renews : v.method.renews = some stmt) :
    v.writes = 1 := by
  cases method : v.method <;> simp_all [Method.renews, writes, Method.writes]

theorem writes_of_renewed (renewed : v.method.renewed = true) : v.writes = 1 := by
  cases method : v.method <;> simp_all [Method.renewed, writes, Method.writes]

theorem writes_of_emptied (emptied : v.emptied = true) : v.writes = 1 := by
  cases method : v.method <;> simp_all [Client.emptied, Client.writes, Method.writes]

section

variable (step : InserterStep b c b' c' started)

include step

theorem stmt_step (other : c.writes ≠ 1) : b'.stmt = b.stmt ∧ b'.inserterStmt = b.inserterStmt := by
  cases step <;> simp_all [writes, Method.writes]

theorem content_step (outside : c.g.position.adds = false) :
    dbInserter.tasks b'.executor.content = 0 ∨ b'.executor.content = b.executor.content := by
  cases step
  case ran e position gs running elsewhere moved =>
    rcases PeriodicalExecutor.proceed_empties moved outside with empty | ⟨same, _⟩
    · exact Or.inl empty
    · exact Or.inr same
  case executed caller vals e running inside returned same => exact Or.inr same.1
  all_goals exact Or.inr rfl

theorem forall_mem_step {P : Client → Prop} (loop : P (.loop { position := .select false }))
    (own : P c') (others : ∀ v ∈ rest, P v) : ∀ v ∈ c' ::ₘ ((started : Multiset Client) + rest), P v := by
  rw [forall_mem_cons]
  refine ⟨own, fun v mem => ?_⟩
  rcases mem_add.mp mem with new | old
  · rwa [started_loop step v new]
  · exact others v old

theorem exclusive_step (exclusive : b.writing = true → b.readers = 0) :
    b'.writing = true → b'.readers = 0 := by
  intro writing
  cases step
  case readLocked args here free => exact absurd writing (by simp only [free]; simp)
  case readUnlocked here =>
    have none : b.readers = 0 := exclusive writing
    simp only [none]
  case locked stmt here free alone => exact alone
  case unlocked here => simp at writing
  all_goals exact exclusive writing

end

namespace Binding

variable (binding : Binding b (c ::ₘ rest)) (step : InserterStep b c b' c' started)
include binding step

theorem agreed_step : b'.writing = false → b'.stmt = b'.inserterStmt := by
  intro free
  have self := mem_cons_self c rest
  have holds : c.writes = 1 → b.writing = true := binding.writing_of_writes self
  cases step
  case locked => simp at free
  case updated stmt here | stored stmt here =>
    rw [writes, here] at holds
    exact absurd (holds rfl) (by simp only at free; simp [free])
  case unlocked here => exact binding.renewed c self (by rw [here]; rfl)
  all_goals exact binding.agreed free

/-- What goroutines need of the statements while they hold the lock alone. -/
theorem stmt_rest (mem : v ∈ (started : Multiset Client) + rest) (writes : v.writes = 1) :
    v ∈ c ::ₘ rest ∧ b'.stmt = b.stmt ∧ b'.inserterStmt = b.inserterStmt := by
  rcases mem_add.mp mem with new | old
  · rw [started_loop step v new] at writes
    simp [Client.writes, Client.loop, Method.writes] at writes
  · refine ⟨mem_cons_of_mem old, stmt_step step ?_⟩
    intro own
    have := binding.writes_rest own v old
    omega

theorem renews_step : ∀ v ∈ c' ::ₘ ((started : Multiset Client) + rest), ∀ stmt,
    v.method.renews = some stmt → b'.stmt = stmt := by
  intro v mem stmt renews
  rcases mem_cons.mp mem with rfl | other
  · have before := binding.renews c (mem_cons_self c rest) stmt
    cases step
    case returned method idle returns =>
      rw [Client.returns] at returns
      split at returns
      case h_2 other here =>
        cases returns
        exact before (by rw [here]; exact renews)
      all_goals cases returns <;> simp [Method.renews] at renews
    case called method outside call =>
      rcases call with ⟨args, rfl⟩ | ⟨stmt, rfl⟩ | rfl <;> simp [Method.renews] at renews
    case updated other here => simpa [Method.renews] using renews
    case syncLocked other here => exact before (by rw [here]; exact renews)
    case ran | chosen | read | sent | executed => exact before renews
    all_goals simp [Method.renews] at renews
  · obtain ⟨present, same, _⟩ := binding.stmt_rest step other (writes_of_renews renews)
    rw [same]
    exact binding.renews v present stmt renews

theorem renewed_step : ∀ v ∈ c' ::ₘ ((started : Multiset Client) + rest),
    v.method.renewed = true → b'.stmt = b'.inserterStmt := by
  intro v mem renewed
  rcases mem_cons.mp mem with rfl | other
  · have self := mem_cons_self c rest
    have before := binding.renewed c self
    cases step
    case returned method idle returns =>
      rw [Client.returns] at returns
      split at returns <;> cases returns <;> simp [Method.renewed] at renewed
    case called method outside call =>
      rcases call with ⟨args, rfl⟩ | ⟨stmt, rfl⟩ | rfl <;> simp [Method.renewed] at renewed
    case stored stmt here => exact binding.renews c self stmt (by rw [here]; rfl)
    case syncUnlocked here => exact before (by rw [here]; rfl)
    case ran | chosen | read | sent | executed => exact before renewed
    all_goals simp [Method.renewed] at renewed
  · obtain ⟨present, same, sameInserter⟩ :=
      binding.stmt_rest step other (writes_of_renewed renewed)
    rw [same, sameInserter]
    exact binding.renewed v present renewed

theorem emptied_step : ∀ v ∈ c' ::ₘ ((started : Multiset Client) + rest),
    v.emptied = true → dbInserter.tasks b'.executor.content = 0 := by
  intro v mem emptied
  have self := mem_cons_self c rest
  rcases mem_cons.mp mem with rfl | other
  · have before := binding.emptied c self
    have adding := (binding.proper c self).adding
    cases step
    case ran e position gs running elsewhere moved =>
      have outside : c.g.position.adds = false := by
        by_contra adds
        have method := adding (eq_true_of_ne_false adds)
        simp [Client.emptied, method] at emptied
      rcases PeriodicalExecutor.proceed_empties moved outside with empty | ⟨same, clears⟩
      · exact empty
      · have already : c.emptied = true := by
          cases method : c.method <;> simp_all [Client.emptied]
        rw [same]
        exact before already
    case chosen choice position other chose =>
      have notRemoving := (choose_apart other chose).2.2.1.1
      apply before
      cases method : c.method <;> simp_all [Client.emptied]
    case executed caller vals e running inside returned same =>
      rw [same.1]
      apply before
      cases method : c.method <;> simp_all [Client.emptied, Position.clears]
    case returned method idle returns =>
      rw [Client.returns] at returns
      split at returns
      case h_2 stmt here =>
        apply before
        simp [Client.emptied, here, idle, Position.clears]
      all_goals cases returns <;> simp [Client.emptied] at emptied
    case called method outside call =>
      rcases call with ⟨args, rfl⟩ | ⟨stmt, rfl⟩ | rfl <;> simp [Client.emptied] at emptied
    case updated stmt here => simp [Client.emptied, Position.clears] at emptied
    case syncLocked stmt here => exact before (by simp [Client.emptied, here])
    case read | sent => exact before emptied
    all_goals simp [Client.emptied] at emptied
  · obtain ⟨present, _⟩ := binding.stmt_rest step other (writes_of_emptied emptied)
    have writing := binding.writing_of_writes present (writes_of_emptied emptied)
    rcases content_step step (binding.adds_false writing c self) with empty | same
    · exact empty
    · rw [same]
      exact binding.emptied v present emptied

omit step in
/-- When the `dbInserter` gets the statement, no rows are left but those that wait for their
execution. -/
theorem none_pending (stores : c.method.stores = true) (calm : ∀ v ∈ c ::ₘ rest, v.executes = []) :
    b.executor.kept = 0 ∧ ∀ v ∈ c ::ₘ rest, v.pending = 0 := by
  have self := mem_cons_self c rest
  have writes : c.writes = 1 := by
    cases method : c.method <;> simp_all [Method.stores, Client.writes, Method.writes]
  have emptied : c.emptied = true := by
    cases method : c.method <;> simp_all [Method.stores, Client.emptied]
  have outside := binding.adds_false (binding.writing_of_writes self writes)
  have none : total commands (c ::ₘ rest) + b.executor.inChannel = 0 := by
    rw [← binding.confirmed]
    apply total_eq_zero
    intro v mem
    exact Position.adds_of_waits (outside v mem)
  constructor
  · have free : b.executor.commander = Option.none := by
      simpa [PeriodicalExecutor.inChannel] using Nat.eq_zero_of_add_eq_zero_left none
    rw [PeriodicalExecutor.kept, binding.emptied c self emptied, free]
    rfl
  · intro v mem
    have confirmed := (total_eq_zero_iff commands _).mp
      (Nat.eq_zero_of_add_eq_zero_right none) v mem
    have held := calm v mem
    rw [executes] at held
    rw [pending]
    split_ifs with undecided
    · rfl
    · rw [if_neg undecided] at held
      rw [Position.carried_eq_ahead (outside v mem) confirmed, held]
      rfl

theorem made_step (calm : c.method.stores = true → ∀ v ∈ c ::ₘ rest, v.executes = []) :
    ∀ row ∈ b'.executor.kept + total pending (c' ::ₘ ((started : Multiset Client) + rest)),
      row.stmt = b'.inserterStmt := by
  have self := mem_cons_self c rest
  have effect := effect_of_step step (binding.proper c self)
  rw [total_cons, total_add, total_started step pending rfl, zero_add, ← add_assoc]
  intro row mem
  have origin : row ∈ b.executor.kept + c.pending ∨ (row.stmt = b.stmt ∧ c.reads = 1) ∨
      row ∈ total pending rest := by
    rcases mem_add.mp mem with here | there
    · rcases pending_step effect row here with old | new
      · exact Or.inl old
      · exact Or.inr (Or.inl new)
    · exact Or.inr (Or.inr there)
  by_cases stores : c.method.stores = true
  · exfalso
    obtain ⟨kept, pending⟩ := binding.none_pending stores (calm stores)
    rcases origin with old | ⟨_, reads⟩ | there
    · rw [kept, pending c self] at old
      simp at old
    · cases method : c.method <;> simp_all [Method.stores, Client.reads, Method.reads]
    · rw [total_eq_zero] at there
      · simp at there
      · exact fun v other => pending v (mem_cons_of_mem other)
  · have same : b'.inserterStmt = b.inserterStmt := by
      cases step
      case stored stmt here =>
        rw [here] at stores
        exact absurd rfl stores
      all_goals rfl
    rw [same]
    obtain ⟨own, others⟩ := binding.made_rest
    rcases origin with old | ⟨made, reads⟩ | there
    · exact own row old
    · rw [made]
      exact binding.agreed_of_reads self reads
    · exact others row there

theorem conserved_step :
    b'.formatted = b'.executor.kept +
      total unsent (c' ::ₘ ((started : Multiset Client) + rest)) + sentRows b'.sent := by
  have effect := effect_of_step step (binding.proper c (mem_cons_self c rest))
  have balance := unsent_step effect
  have before := binding.conserved
  rw [total_cons] at before
  rw [total_cons, total_add, total_started step unsent rfl, zero_add]
  have sum : b'.formatted + b.formatted = b'.executor.kept +
      (c'.unsent + total unsent rest) + sentRows b'.sent + b.formatted := by
    calc
      b'.formatted + b.formatted = b'.formatted +
          (b.executor.kept + (c.unsent + total unsent rest) + sentRows b.sent) := by
        rw [← before]
      _ = b.executor.kept + c.unsent + sentRows b.sent + b'.formatted +
          total unsent rest := by abel
      _ = b'.executor.kept + c'.unsent + sentRows b'.sent + b.formatted +
          total unsent rest := by rw [balance]
      _ = _ := by abel
  exact add_right_cancel sum

theorem step_keeps (calm : c.method.stores = true → ∀ v ∈ c ::ₘ rest, v.executes = []) :
    Binding b' (c' ::ₘ (started + rest)) := by
  have self := mem_cons_self c rest
  have proper := binding.proper c self
  have effect := effect_of_step step proper
  refine ⟨?_, ?_, ?_, ?_, binding.agreed_step step, binding.renews_step step,
    binding.renewed_step step, binding.emptied_step step, ?_, binding.made_step step calm, ?_,
    sent_step effect (binding.read c self) binding.sent, binding.conserved_step step⟩
  · refine forall_mem_step step (proper_of_ready (Or.inl rfl) (Or.inl rfl) rfl) ?_ ?_
    · exact proper_step step proper
    · exact fun v old => binding.proper v (mem_cons_of_mem old)
  · have before := binding.reading
    rw [total_cons] at before
    have balance := reads_step step (by omega)
    rw [total_cons, total_add, total_started step reads rfl]
    omega
  · have before := binding.writing
    rw [total_cons] at before
    have balance := writes_step step (by omega)
    rw [total_cons, total_add, total_started step writes rfl]
    omega
  · exact exclusive_step step binding.exclusive
  · have before := binding.confirmed
    rw [total_cons, total_cons] at before
    have balance := waits_step step proper
    rw [total_cons, total_add, total_started step waits rfl, total_cons, total_add,
      total_started step commands rfl]
    omega
  · refine forall_mem_step step trivial ?_ fun v old => binding.read v (mem_cons_of_mem old)
    refine readRight_step effect ?_ (binding.read c self)
    exact fun row held => binding.made_rest.1 row (mem_add.mpr (Or.inr held))

end Binding

theorem Binding.confirm_keeps {loop adder loop' adder' : Client}
    (binding : Binding b (loop ::ₘ adder ::ₘ rest))
    (met : b.confirm loop adder = some (b', loop', adder')) :
    Binding b' (loop' ::ₘ adder' ::ₘ rest) := by
  obtain ⟨⟨e, loopG, adderG⟩, confirmed, ⟨⟩⟩ := Option.map_eq_some_iff.mp met
  obtain ⟨vals, task, own, confirming, waiting, rfl, rfl, rfl⟩ :=
    PeriodicalExecutor.confirm_cases confirmed
  have loopProper := binding.proper loop (by simp)
  have adderProper := binding.proper adder (by simp)
  have loopReady : loop.execution = .ready := loopProper.ready (by simp [confirming])
  have adderReady : adder.execution = .ready := adderProper.ready (by simp [waiting])
  have adding : adder.method = .insertAdd := adderProper.adding (by rw [waiting]; rfl)
  have running : loop.method.runs = true := by
    by_contra rests
    have idle := loopProper.resting (eq_false_of_ne_true rests)
    simp [confirming] at idle
  obtain ⟨proper, reading, writing, exclusive, agreed, renews, renewed, emptied, confirmed, made,
    read, sent, conserved⟩ := binding
  simp only [forall_mem_cons] at proper renews renewed emptied read
  simp only [total_cons] at reading writing confirmed made conserved
  constructor <;> simp only [forall_mem_cons, total_cons]
  case proper =>
    exact ⟨proper_of_ready (Or.inl running) (Or.inl rfl) loopReady,
      proper_of_ready (Or.inr rfl) (Or.inl rfl) adderReady, proper.2.2⟩
  case emptied =>
    refine ⟨?_, ?_, emptied.2.2⟩
    · intro holds
      apply emptied.1
      cases method : loop.method <;> simp_all [Client.emptied, Position.clears]
    · intro holds
      simp [Client.emptied, adding] at holds
  case confirmed =>
    simp only [waits, commands, confirming, waiting, Position.waits,
      Position.commands] at confirmed ⊢
    omega
  case made =>
    simpa [pending, loopReady, adderReady, confirming, waiting, Execution.decided,
      Position.carried, Position.held] using made
  case read =>
    refine ⟨?_, ?_, read.2.2⟩
    · simp [Client.ReadRight, loopReady]
    · simp [Client.ReadRight, adderReady]
  case conserved =>
    simpa [unsent, loopReady, adderReady, confirming, waiting, Position.carried,
      Position.held] using conserved
  all_goals assumption

/-- The step that gives the statement to the `dbInserter` is taken when no goroutine holds rows
that a flush has removed, or that it has received and confirmed, and whose statement is still to
be read. -/
def calm (s : State BulkInserter Client) : Move InserterChoice → Bool
  | .act i _ =>
    match s.routines[i]? with
    | some c => !c.method.stores || s.routines.all fun v => v.executes.isEmpty
    | none => true
  | .meet _ _ => true

theorem executes_of_calm {s : State BulkInserter Client} {i : Nat} {choice : InserterChoice}
    (isCalm : calm s (.act i choice) = true) (found : s.routines[i]? = some c)
    (stores : c.method.stores = true) : ∀ v ∈ s.crowd, v.executes = [] := by
  intro v mem
  simp only [calm, found, stores, Bool.not_true, Bool.false_or, List.all_eq_true] at isCalm
  exact List.isEmpty_iff.mp (isCalm v mem)

theorem Binding.keeps :
    Keeps (bulkInserter toLower) (fun s move => calm s move = true) Binding where
  act := by
    intro s i choice c b' c' started rest isCalm found whole acted binding
    apply binding.step_keeps (step_of_act acted)
    intro stores
    rw [← whole]
    exact executes_of_calm isCalm found stores
  meet := by
    intro s i j loop adder b' loop' adder' rest _ _ _ met binding
    exact binding.confirm_keeps met

theorem Binding.start (stmt : BulkStmt) (callers : Nat) :
    Binding (newBulkInserter stmt) (bulkStart stmt callers).crowd := by
  have all {P : Client → Prop} (outside : P .outside) :
      ∀ v ∈ (bulkStart stmt callers).crowd, P v := by
    intro v mem
    rwa [List.eq_of_mem_replicate mem]
  constructor
  case proper => exact all (proper_of_ready (Or.inr rfl) (Or.inl rfl) rfl)
  case reading => exact total_start reads rfl callers
  case writing => exact total_start writes rfl callers
  case exclusive => exact fun _ => rfl
  case agreed => exact fun _ => rfl
  case renews => exact all (by rintro _ ⟨⟩)
  case renewed => exact all (by rintro ⟨⟩)
  case emptied => exact fun _ _ _ => rfl
  case confirmed =>
    exact (total_start waits rfl callers).trans (total_start commands rfl callers).symm
  case made =>
    intro row mem
    rw [bulkStart, State.crowd, total_start pending rfl] at mem
    exact absurd mem (notMem_zero row)
  case read => exact all trivial
  case sent =>
    intro sent mem
    exact absurd mem List.not_mem_nil
  case conserved =>
    rw [bulkStart, State.crowd, total_start unsent rfl]
    rfl

/-- In every run that is calm, each row is sent with the prefix and the suffix of the statement
that it was formatted with, and the rows that are not sent are on their way. -/
theorem rows_sent_bound (toLower : Str → Str) (stmt : BulkStmt) (callers : Nat)
    (moves : List (Move InserterChoice))
    (met : Runs.Meets (bulkInserter toLower).step (fun s move => calm s move = true)
      (bulkStart stmt callers) moves) :
    let s := (bulkInserter toLower).after (bulkStart stmt callers) moves
    (∀ sent ∈ s.shared.sent, ∀ row ∈ sent.rows,
      sent.prefixText = row.stmt.prefixText ∧ sent.suffix = row.stmt.suffix) ∧
    s.shared.formatted =
      s.shared.executor.kept + total unsent s.crowd + sentRows s.shared.sent := by
  have binding := Binding.keeps.run met (Binding.start stmt callers)
  constructor
  · intro sent mem row present
    obtain ⟨prefixText, suffix⟩ := binding.sent sent mem row present
    exact ⟨prefixText.symm, suffix.symm⟩
  · exact binding.conserved

/-- The lower-case spelling of a text of ASCII letters. -/
def lowerAscii (text : Str) : Str :=
  text.map fun b => if 65 ≤ b && b ≤ 90 then b + 32 else b

def proceeds (i times : Nat) : List (Move InserterChoice) :=
  List.replicate times (.act i .proceed)

/-- One goroutine inserts a row, another flushes; between the removal of the row and its
execution, or after it, the first changes the statement. -/
def updating (between : Bool) : List (Move InserterChoice) :=
  let update := .act 0 (.call (.updateStmt (bytes "u values (?) as n"))) :: proceeds 0 12
  .act 0 (.call (.insert [.int 1])) :: proceeds 0 9 ++
    .act 1 (.call .flush) :: proceeds 1 4 ++
    (if between then update ++ proceeds 1 6 else proceeds 1 6 ++ update)

def oldStmt : BulkStmt := ⟨bytes "t values", bytes "(?)", []⟩

theorem rows_sent_bound_after :
    let s := (bulkInserter lowerAscii).after (bulkStart oldStmt 2) (updating false)
    s.shared.sent = [⟨[⟨bytes "(1)", oldStmt⟩], bytes "t values", []⟩] ∧
    (∀ sent ∈ s.shared.sent, ∀ row ∈ sent.rows,
      sent.prefixText = row.stmt.prefixText ∧ sent.suffix = row.stmt.suffix) ∧
    s.shared.formatted =
      s.shared.executor.kept + total unsent s.crowd + sentRows s.shared.sent :=
  ⟨by decide +kernel,
    rows_sent_bound lowerAscii oldStmt 2 (updating false) (by decide +kernel)⟩

/-- A row of one statement between the prefix and the suffix of another. -/
theorem row_sent_with_another :
    let s := (bulkInserter lowerAscii).after (bulkStart oldStmt 2) (updating true)
    s.shared.sent = [⟨[⟨bytes "(1)", oldStmt⟩], bytes "u values",
      bytes "as n"⟩] ∧ bytes "u values" ≠ oldStmt.prefixText :=
  ⟨by decide +kernel, by decide⟩

end FastGoZero.Sqlx
