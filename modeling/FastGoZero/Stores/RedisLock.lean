import FastGoZero.Lib.Runs

/-!
# The lock in redis

Instances of `RedisLock` share one key. Redis runs a script in one step and drops the key at the
time that was set with it. `AcquireCtx` reads the setting of its instance in one step and sends
the script in another, so `SetExpire` and other calls may come in between, also calls on the same
instance. A call returns when redis has answered; a request that does not reach redis returns an
error and changes nothing. Time is in milliseconds.
-/

namespace FastGoZero.Stores

open Lib List

universe u

namespace RedisLock

/-- The key of the lock: its value and when it expires. -/
structure Stored where
  value : String
  deadline : Nat
  deriving DecidableEq

/-- `GET`. -/
def get (now : Nat) (key : Option Stored) : Option String :=
  (key.filter fun stored => now < stored.deadline).map Stored.value

/-- What `ScriptRunCtx` gives back. A status and a nil are told apart from integers, `failed` is
any other error. -/
inductive Reply where
  | status (text : String)
  | integer (code : Int)
  | nil
  | failed
  deriving DecidableEq

/-- `SET` with `PX`. -/
def set (now : Nat) (id : String) (px : Nat) : Option Stored × Reply :=
  (some ⟨id, now + px⟩, .status "OK")

/-- The script `lockscript.lua`. -/
def lockScript (now : Nat) (key : Option Stored) (id : String) (px : Nat) : Option Stored × Reply :=
  if get now key = some id then set now id px
  else if get now key = none then set now id px
  else (key, .nil)

/-- The script `delscript.lua`. -/
def delScript (now : Nat) (key : Option Stored) (id : String) : Option Stored × Reply :=
  if get now key = some id then (none, .integer 1) else (key, .integer 0)

def tolerance : Nat := 500

def millisPerSecond : Nat := 1000

def px (seconds : Nat) : Nat := seconds * millisPerSecond + tolerance

/-- What `AcquireCtx` makes of the reply. -/
def acquired : Reply → Bool
  | .status text => text == "OK"
  | .integer _ | .nil | .failed => false

/-- What `ReleaseCtx` makes of the reply. -/
def released : Reply → Bool
  | .integer code => code == 1
  | .status _ | .nil | .failed => false

/-- The conversion of an `int` to a `uint32`. -/
def toUint32 (seconds : Int) : Nat := (seconds % 4294967296).toNat

/-- The key, the settings of the instances, and the calls of `AcquireCtx` that have read their
setting and not sent the script. -/
structure System (I : Type u) where
  now : Nat
  key : Option Stored
  seconds : I → Nat
  calls : List (I × Nat)

inductive Move (I : Type u) where
  | setExpire (i : I) (seconds : Int)
  | load (i : I)
  | acquire (call : Nat)
  | failAcquire (call : Nat)
  | release (i : I)
  | failRelease (i : I)
  | pass (milliseconds : Nat)

/-- What a call returned and when, for `AcquireCtx` with the setting that it used. -/
inductive Event (I : Type u) where
  | acquire (i : I) (time seconds : Nat) (result : Bool)
  | release (i : I) (time : Nat) (result : Bool)

section

variable {I : Type u} [DecidableEq I] (id : I → String) (s : System I)

def step : Move I → System I × List (Event I)
  | .setExpire i seconds =>
    ({ s with seconds := Function.update s.seconds i (toUint32 seconds) }, [])
  | .load i => ({ s with calls := s.calls ++ [(i, s.seconds i)] }, [])
  | .acquire call =>
    match s.calls[call]? with
    | none => (s, [])
    | some (i, seconds) =>
      let (key, reply) := lockScript s.now s.key (id i) (px seconds)
      ({ s with key := key, calls := s.calls.eraseIdx call },
        [.acquire i s.now seconds (acquired reply)])
  | .failAcquire call =>
    match s.calls[call]? with
    | none => (s, [])
    | some (i, seconds) =>
      ({ s with calls := s.calls.eraseIdx call }, [.acquire i s.now seconds (acquired .failed)])
  | .release i =>
    let (key, reply) := delScript s.now s.key (id i)
    ({ s with key := key }, [.release i s.now (released reply)])
  | .failRelease i => (s, [.release i s.now (released .failed)])
  | .pass milliseconds => ({ s with now := s.now + milliseconds }, [])

def returns (moves : List (Move I)) : List (Event I) :=
  (Runs.run (step id) s moves).2

def after (moves : List (Move I)) : System I := (Runs.run (step id) s moves).1

/-- The value of the key that has not expired. -/
def System.holder : Option String := get s.now s.key

/-- The lease of an instance after one more event: a successful `Acquire` sets it, a successful
`Release` ends it. -/
def leaseStep (i : I) (lease : Option Nat) : Event I → Option Nat
  | .acquire j time seconds true => if j = i then some (time + px seconds) else lease
  | .release j _ true => if j = i then none else lease
  | .acquire _ _ _ false => lease
  | .release _ _ false => lease

/-- The end of the lease that an instance has from its last successful `Acquire`. -/
def leaseOf (i : I) (events : List (Event I)) : Option Nat := events.foldl (leaseStep i) none

/-- The key belongs to each instance whose lease has not ended. -/
def Leased (events : List (Event I)) : Prop :=
  ∀ i deadline, leaseOf i events = some deadline →
    deadline ≤ s.now ∨ s.key = some ⟨id i, deadline⟩

theorem get_of_live {now : Nat} {stored : Stored} (live : now < stored.deadline) :
    get now (some stored) = some stored.value := by
  simp [get, live]

/-- What the lock script does: a success needs a free key or one's own. -/
theorem lockScript_cases (now : Nat) (key : Option Stored) (own : String) (px : Nat) :
    (acquired (lockScript now key own px).2 = true ∧
      (get now key = some own ∨ get now key = none) ∧
      (lockScript now key own px).1 = some ⟨own, now + px⟩) ∨
    (acquired (lockScript now key own px).2 = false ∧ (lockScript now key own px).1 = key) := by
  unfold lockScript
  split
  · rename_i mine
    exact Or.inl ⟨rfl, Or.inl mine, rfl⟩
  split_ifs with free
  · exact Or.inl ⟨rfl, Or.inr free, rfl⟩
  · exact Or.inr ⟨rfl, rfl⟩

theorem delScript_cases (now : Nat) (key : Option Stored) (own : String) :
    (released (delScript now key own).2 = true ∧ get now key = some own ∧
      (delScript now key own).1 = none) ∨
    (released (delScript now key own).2 = false ∧ get now key ≠ some own ∧
      (delScript now key own).1 = key) := by
  unfold delScript
  split
  · rename_i mine
    exact Or.inl ⟨rfl, mine, rfl⟩
  · rename_i other
    exact Or.inr ⟨rfl, other, rfl⟩

theorem step_cases (move : Move I) :
    ((step id s move).1.key = s.key ∧ s.now ≤ (step id s move).1.now ∧
      (∀ e ∈ (step id s move).2, (∃ i time seconds, e = .acquire i time seconds false) ∨
        ∃ i time, e = .release i time false) ∧ (step id s move).2.length ≤ 1) ∨
    (∃ i seconds, (get s.now s.key = some (id i) ∨ get s.now s.key = none) ∧
      (step id s move).1.key = some ⟨id i, s.now + px seconds⟩ ∧
      (step id s move).1.now = s.now ∧
      (step id s move).2 = [.acquire i s.now seconds true]) ∨
    (∃ i, get s.now s.key = some (id i) ∧ (step id s move).1.key = none ∧
      (step id s move).1.now = s.now ∧ (step id s move).2 = [.release i s.now true]) := by
  cases move with
  | setExpire i seconds | load i => simp [step]
  | acquire call =>
    simp only [step]
    cases s.calls[call]? with
    | none => simp
    | some found =>
      obtain ⟨i, seconds⟩ := found
      rcases lockScript_cases s.now s.key (id i) (px seconds) with ⟨won, free, key⟩ | ⟨lost, key⟩
      · exact Or.inr (Or.inl ⟨i, seconds, free, key, rfl, by simp [won]⟩)
      · exact Or.inl ⟨key, Nat.le_refl _, by simp [lost], by simp⟩
  | failAcquire call =>
    simp only [step]
    cases s.calls[call]? with
    | none => simp
    | some found => simp [acquired]
  | release i =>
    simp only [step]
    rcases delScript_cases s.now s.key (id i) with ⟨done, mine, key⟩ | ⟨refused, _, key⟩
    · exact Or.inr (Or.inr ⟨i, mine, key, trivial, by simp [done]⟩)
    · exact Or.inl ⟨key, Nat.le_refl _, by simp [refused], by simp⟩
  | failRelease i => simp [step, released]
  | pass milliseconds => simp [step]

theorem single (move : Move I) : (step id s move).2.length ≤ 1 := by
  rcases step_cases id s move with ⟨_, _, _, few⟩ | ⟨_, _, _, _, _, out⟩ | ⟨_, _, _, _, out⟩
  · exact few
  · simp [out]
  · simp [out]

variable {id} {events : List (Event I)} {i : I} {e : Event I}

/-- An event without success leaves every lease as it is. -/
theorem leaseStep_false {lease : Option Nat}
    (fails : (∃ j time seconds, e = .acquire j time seconds false) ∨
      ∃ j time, e = .release j time false) : leaseStep i lease e = lease := by
  rcases fails with ⟨j, time, seconds, rfl⟩ | ⟨j, time, rfl⟩ <;> rfl

theorem foldl_leaseStep_of_quiet (i : I) (events : List (Event I)) : ∀ lease,
    (∀ e ∈ events, ∀ lease, leaseStep i lease e = lease) →
    events.foldl (leaseStep i) lease = lease := by
  induction events with
  | nil => exact fun _ _ => rfl
  | cons e events ih =>
    intro lease quiet
    rw [foldl_cons, quiet e mem_cons_self]
    exact ih lease fun other mem => quiet other (mem_cons_of_mem _ mem)

/-- A key that is free or belongs to another instance ends the lease. -/
theorem Leased.ended (distinct : Function.Injective id) {s : System I}
    (leased : Leased id s events) {deadline : Nat} (lease : leaseOf i events = some deadline) {j : I}
    (other : j ≠ i) (free : get s.now s.key = some (id j) ∨ get s.now s.key = none) :
    deadline ≤ s.now := by
  rcases leased i deadline lease with ended | key
  · exact ended
  · by_contra open_
    rw [key, get_of_live (Nat.lt_of_not_le open_)] at free
    rcases free with same | absent
    · exact other (distinct (Option.some.inj same)).symm
    · cases absent

theorem Leased.step (distinct : Function.Injective id) {s : System I} (leased : Leased id s events)
    (move : Move I) : Leased id (step id s move).1 (events ++ (step id s move).2) := by
  intro i deadline lease
  rw [leaseOf, foldl_append] at lease
  rcases step_cases id s move with
    ⟨key, later, fails, _⟩ | ⟨j, seconds, free, key, now, out⟩ | ⟨j, mine, key, now, out⟩
  · rw [foldl_leaseStep_of_quiet i _ _ fun e mem _ => leaseStep_false (fails e mem)] at lease
    rw [key]
    exact (leased i deadline lease).imp_left (Nat.le_trans · later)
  · rw [out, foldl_cons, foldl_nil, leaseStep] at lease
    rw [key, now]
    split at lease
    · rename_i same
      subst same
      exact Or.inr (by rw [Option.some.inj lease])
    · rename_i other
      exact Or.inl (leased.ended distinct lease other free)
  · rw [out, foldl_cons, foldl_nil, leaseStep] at lease
    rw [now]
    split at lease
    · cases lease
    · rename_i other
      exact Or.inl (leased.ended distinct lease other (Or.inl mine))

theorem Leased.run (distinct : Function.Injective id) (moves : List (Move I)) :
    ∀ {s : System I} {events : List (Event I)}, Leased id s events →
    Leased id (after id s moves) (events ++ returns id s moves) := by
  induction moves with
  | nil =>
    intro s events leased
    simpa [after, returns] using leased
  | cons move moves ih =>
    intro s events leased
    have next := ih (leased.step distinct move)
    simpa [after, returns, Runs.run_cons] using next

/-- The event is a successful `Acquire` or `Release` of the instance. -/
def Event.changes (i : I) : Event I → Bool
  | .acquire j _ _ result | .release j _ result => j = i && result

theorem leaseStep_of_not_changes (other : e.changes i = false) (lease : Option Nat) :
    leaseStep i lease e = lease := by
  cases e with
  | acquire j time seconds result | release _ _ result =>
    cases result <;> simp_all [leaseStep, Event.changes]

/-- After a successful `Acquire` no other instance succeeds before the lease has ended or the lock
was released, where a later success of the same instance begins a new lease. A `Release` of an
instance that is not the holder returns false and leaves the key as it is. -/
theorem acquire_exclusive (distinct : Function.Injective id) (s : System I)
    (moves : List (Move I)) :
    (∀ past mid rest i j time seconds later seconds',
      returns id s moves =
        past ++ .acquire i time seconds true :: mid ++ .acquire j later seconds' true :: rest →
      i ≠ j → (∀ e ∈ mid, e.changes i = false) → time + (seconds * 1000 + 500) ≤ later) ∧
    (∀ i, (after id s moves).holder ≠ some (id i) →
      (step id (after id s moves) (.release i)).1.key = (after id s moves).key ∧
      (step id (after id s moves) (.release i)).2 =
        [.release i (after id s moves).now false]) := by
  constructor
  · intro past mid rest i j time seconds later seconds' events other quiet
    obtain ⟨first, move, last, rfl, before, emits⟩ :=
      Runs.exists_emits (step id) (single id) moves s _ _ _ events
    have start : Leased id s [] := by
      intro i deadline lease
      simp [leaseOf] at lease
    have leased := Leased.run distinct first start
    rw [nil_append, returns, before] at leased
    have lease : leaseOf i (past ++ .acquire i time seconds true :: mid) =
        some (time + px seconds) := by
      rw [leaseOf, foldl_append, foldl_cons,
        foldl_leaseStep_of_quiet i mid _ fun e mem => leaseStep_of_not_changes (quiet e mem)]
      simp [leaseStep]
    rcases step_cases id (after id s first) move with
      ⟨_, _, fails, _⟩ | ⟨k, _, free, _, _, out⟩ | ⟨k, _, _, _, out⟩
    · have fail := fails (.acquire j later seconds' true) (by simp [after, emits])
      simp at fail
    · rw [after, emits] at out
      simp only [List.cons.injEq, Event.acquire.injEq, and_true] at out
      obtain ⟨rfl, now, _⟩ := out
      have ended := leased.ended distinct lease other.symm free
      rwa [after, ← now] at ended
    · rw [after, emits] at out
      simp at out
  · intro i other
    rcases delScript_cases (after id s moves).now (after id s moves).key (id i) with
      ⟨_, mine, _⟩ | ⟨refused, _, key⟩
    · exact absurd mine other
    · exact ⟨key, by simp [step, refused]⟩

end

/-- Two instances: the second one gets the lock when the first lease has ended. -/
def inTurn : List (Move Bool) := [.load false, .acquire 0, .pass 500, .load true, .acquire 0]

def names (second : Bool) : String := if second then "b" else "a"

def unlocked : System Bool := ⟨0, none, fun _ => 0, []⟩

theorem acquire_exclusive_in_turn :
    returns names unlocked inTurn = [.acquire false 0 0 true, .acquire true 500 0 true] ∧
    0 + (0 * 1000 + 500) ≤ 500 ∧
    (step names (after names unlocked inTurn) (.release false)).1.key =
      (after names unlocked inTurn).key := by
  have distinct : Function.Injective names := by
    intro i j same
    revert i j
    decide
  obtain ⟨exclusive, refuses⟩ := acquire_exclusive distinct unlocked inTurn
  refine ⟨rfl, exclusive [] [] [] false true 0 0 500 0 rfl (by decide) (by simp), ?_⟩
  exact (refuses false (by decide)).1

end RedisLock

end FastGoZero.Stores
