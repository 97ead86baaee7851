import Mathlib.Logic.Function.Basic

/-!
# Programs that remember what they have computed

A program may keep what it computes in tables that outlive it: it looks a key up, and computes
and stores a value only if there is none. The answer it then works with may have been stored by
another program. If all that is ever computed for a key is the same, no program can tell.

A computation that fails stores nothing.
-/

namespace FastGoZero.Lib.Memo

universe u

variable {Key : Type} {Value : Key → Type} {Failure : Type}

/-- A program over tables with the given keys and values. -/
inductive Program (Key : Type) (Value : Key → Type) (Failure : Type) : Type → Type 1 where
  | done {α : Type} (result : α) : Program Key Value Failure α
  | memo {α : Type} (key : Key) (compute : Program Key Value Failure (Except Failure (Value key)))
      (next : Except Failure (Value key) → Program Key Value Failure α) :
      Program Key Value Failure α

namespace Program

def bind {α β : Type} : Program Key Value Failure α → (α → Program Key Value Failure β) →
    Program Key Value Failure β
  | done result, rest => rest result
  | memo key compute next, rest => memo key compute fun answer => (next answer).bind rest

instance : Monad (Program Key Value Failure) where
  pure := done
  bind := bind

/-- What the program computes when nothing is ever stored. -/
def plain {α : Type} : Program Key Value Failure α → α
  | done result => result
  | memo _ compute next => (next compute.plain).plain

/-- All that the program computes for a key is what belongs to it. -/
def Agrees {α : Type} (truth : (key : Key) → Except Failure (Value key)) :
    Program Key Value Failure α → Prop
  | done _ => True
  | memo key compute next =>
    compute.Agrees truth ∧ compute.plain = truth key ∧ (next (truth key)).Agrees truth

variable {truth : (key : Key) → Except Failure (Value key)}

@[simp] theorem plain_bind {α β : Type} (program : Program Key Value Failure α)
    (rest : α → Program Key Value Failure β) :
    (program.bind rest).plain = (rest program.plain).plain := by
  induction program with
  | done result => rfl
  | memo key compute next _ nextHypothesis => exact nextHypothesis _ rest

theorem agrees_bind {α β : Type} {program : Program Key Value Failure α}
    {rest : α → Program Key Value Failure β} (first : program.Agrees truth)
    (second : (rest program.plain).Agrees truth) : (program.bind rest).Agrees truth := by
  induction program with
  | done result => exact second
  | memo key compute next _ nextHypothesis =>
    obtain ⟨computes, same, goesOn⟩ := first
    rw [plain, same] at second
    exact ⟨computes, same, nextHypothesis _ goesOn second⟩

variable (Key Value) in
abbrev Tables := (key : Key) → Option (Value key)

/-- All that is stored is what belongs to its key. -/
def Honest (truth : (key : Key) → Except Failure (Value key)) (tables : Tables Key Value) : Prop :=
  ∀ key value, tables key = some value → truth key = .ok value

theorem honest_empty (truth : (key : Key) → Except Failure (Value key)) :
    Honest truth (fun _ => none) := by
  intro key value stored
  contradiction

/-- If no two values are computed for a key, there is one that belongs to it. -/
theorem exists_truth [Inhabited Failure]
    {computed : (key : Key) → Except Failure (Value key) → Prop}
    (unique : ∀ key a b, computed key a → computed key b → a = b) :
    ∃ truth : (key : Key) → Except Failure (Value key),
      ∀ key a, computed key a → a = truth key := by
  classical
  refine ⟨fun key => if known : ∃ a, computed key a then known.choose else .error default, ?_⟩
  intro key a holds
  have known : ∃ a, computed key a := ⟨a, holds⟩
  dsimp only
  rw [dif_pos known]
  exact unique key a _ holds known.choose_spec

variable [DecidableEq Key] {tables : Tables Key Value}

/-- Run the program: the result, and what is stored afterwards. -/
def run {α : Type} : Program Key Value Failure α → Tables Key Value → α × Tables Key Value
  | done result, tables => (result, tables)
  | memo key compute next, tables =>
    match tables key with
    | some value => (next (.ok value)).run tables
    | none =>
      let (answer, tables) := compute.run tables
      match answer with
      | .ok value => (next (.ok value)).run (Function.update tables key (some value))
      | .error failure => (next (.error failure)).run tables

theorem Honest.update (honest : Honest truth tables) {key : Key} {value : Value key}
    (belongs : truth key = .ok value) : Honest truth (Function.update tables key (some value)) := by
  intro probe stored found
  by_cases same : probe = key
  · subst same
    rw [Function.update_self, Option.some.injEq] at found
    rw [belongs, found]
  · rw [Function.update_of_ne same] at found
    exact honest probe stored found

/-- A program that agrees with what is stored computes what it computes on its own, and what is
stored afterwards is right as well. -/
theorem run_of_agrees {α : Type} {program : Program Key Value Failure α}
    (agrees : program.Agrees truth) (honest : Honest truth tables) :
    (program.run tables).1 = program.plain ∧ Honest truth (program.run tables).2 := by
  induction program generalizing tables with
  | done result => exact ⟨rfl, honest⟩
  | memo key compute next computeHypothesis nextHypothesis =>
    obtain ⟨computes, same, goesOn⟩ := agrees
    rw [run, plain, same]
    split
    · rename_i value stored
      rw [honest key value stored] at goesOn ⊢
      exact nextHypothesis _ goesOn honest
    · obtain ⟨result, kept⟩ := computeHypothesis computes honest
      rw [same] at result
      dsimp only
      rw [result]
      cases answer : truth key with
      | ok value =>
        rw [answer] at goesOn
        exact nextHypothesis _ goesOn (kept.update answer)
      | error failure =>
        rw [answer] at goesOn
        exact nextHypothesis _ goesOn kept

variable {Shared α : Type} {shared : Shared}

/-- The programs are run one after the other. They also pass on what they share. -/
def runAll : List (Shared → Program Key Value Failure (α × Shared)) →
    Shared × Tables Key Value → Shared × Tables Key Value
  | [], package => package
  | program :: rest, (shared, tables) =>
    let (outcome, tables) := (program shared).run tables
    runAll rest (outcome.2, tables)

/-- The program agrees with what is stored, and leaves what is shared as it was. -/
def Leaves (truth : (key : Key) → Except Failure (Value key)) (shared : Shared)
    (program : Shared → Program Key Value Failure (α × Shared)) : Prop :=
  (program shared).Agrees truth ∧ (program shared).plain.2 = shared

theorem honest_runAll {programs : List (Shared → Program Key Value Failure (α × Shared))}
    (leave : ∀ program ∈ programs, Leaves truth shared program) (honest : Honest truth tables) :
    (runAll programs (shared, tables)).1 = shared ∧
      Honest truth (runAll programs (shared, tables)).2 := by
  induction programs generalizing tables with
  | nil => exact ⟨rfl, honest⟩
  | cons program rest ih =>
    obtain ⟨⟨agrees, same⟩, others⟩ := List.forall_mem_cons.mp leave
    obtain ⟨result, kept⟩ := run_of_agrees agrees honest
    rw [runAll]
    dsimp only
    rw [result, same]
    exact ih others kept

/-- What was run before changes nothing for programs that agree. -/
theorem run_runAll {β : Type} {earlier : List (Shared → Program Key Value Failure (α × Shared))}
    {program : Shared → Program Key Value Failure β} (agrees : (program shared).Agrees truth)
    (leave : ∀ program ∈ earlier, Leaves truth shared program) :
    let package := runAll earlier (shared, fun _ => none)
    ((program package.1).run package.2).1 = ((program shared).run fun _ => none).1 := by
  obtain ⟨same, honest⟩ := honest_runAll leave (honest_empty truth)
  dsimp only
  rw [same, (run_of_agrees agrees honest).1, (run_of_agrees agrees (honest_empty truth)).1]

end Program

/-- A program that works on a state of its own and may fail. -/
def Code (Key : Type) (Value : Key → Type) (Failure State : Type) (α : Type) : Type 1 :=
  State → Program Key Value Failure (Except Failure α × State)

namespace Code

variable {State α : Type}

def bind {β : Type} (code : Code Key Value Failure State α)
    (rest : α → Code Key Value Failure State β) : Code Key Value Failure State β :=
  fun state => (code state).bind fun outcome =>
    match outcome.1 with
    | .ok result => rest result outcome.2
    | .error failure => .done (.error failure, outcome.2)

instance : Monad (Code Key Value Failure State) where
  pure result := fun state => .done (.ok result, state)
  bind := bind

def fail (failure : Failure) : Code Key Value Failure State α :=
  fun state => .done (.error failure, state)

def get : Code Key Value Failure State State := fun state => .done (.ok state, state)

def modify (change : State → State) : Code Key Value Failure State Unit :=
  fun state => .done (.ok (), change state)

/-- Look the key up, and compute what belongs to it if it is not there. -/
def memo (key : Key) (compute : Program Key Value Failure (Except Failure (Value key))) :
    Code Key Value Failure State (Value key) :=
  fun state => .memo key compute fun answer => .done (answer, state)

def apply (change : State → Except Failure α × State) : Code Key Value Failure State α :=
  fun state => .done (change state)

/-- The code agrees with what belongs to the keys, the state stays as it has to be, and a result
that is returned is as said. -/
def Sound (truth : (key : Key) → Except Failure (Value key)) (kept : State → Prop)
    (code : Code Key Value Failure State α) (post : α → Prop) : Prop :=
  ∀ state, kept state → (code state).Agrees truth ∧ kept (code state).plain.2 ∧
    ∀ result, (code state).plain.1 = .ok result → post result

variable {truth : (key : Key) → Except Failure (Value key)} {kept : State → Prop} {α β : Type}
  {code : Code Key Value Failure State α} {rest : α → Code Key Value Failure State β}
  {post : α → Prop} {middle : α → Prop} {last : β → Prop}

theorem sound_apply {change : State → Except Failure α × State}
    (keeps : ∀ state, kept state → kept (change state).2)
    (holds : ∀ state result, kept state → (change state).1 = .ok result → post result) :
    Sound truth kept (apply change : Code Key Value Failure State α) post :=
  fun state holdsBefore =>
    ⟨trivial, keeps state holdsBefore, fun result => holds state result holdsBefore⟩

theorem sound_pure {result : α} (holds : post result) :
    Sound truth kept (pure result : Code Key Value Failure State α) post := by
  refine sound_apply (fun _ => id) ?_
  rintro _ _ _ ⟨⟩
  exact holds

theorem sound_fail {failure : Failure} :
    Sound truth kept (fail failure : Code Key Value Failure State α) post := by
  refine sound_apply (fun _ => id) ?_
  rintro _ _ _ ⟨⟩

theorem sound_get : Sound truth kept (get : Code Key Value Failure State State) kept := by
  refine sound_apply (fun _ => id) ?_
  rintro _ _ before ⟨⟩
  exact before

theorem sound_modify {change : State → State} (keeps : ∀ state, kept state → kept (change state)) :
    Sound truth kept (modify change : Code Key Value Failure State Unit) fun _ => True :=
  fun state holdsBefore => ⟨trivial, keeps state holdsBefore, fun _ _ => trivial⟩

theorem plain_bind (code : Code Key Value Failure State α)
    (rest : α → Code Key Value Failure State β) (state : State) :
    ((code >>= rest) state).plain =
      match (code state).plain.1 with
      | .ok result => (rest result (code state).plain.2).plain
      | .error failure => (.error failure, (code state).plain.2) := by
  change ((code state).bind _).plain = _
  rw [Program.plain_bind]
  cases (code state).plain.1 <;> rfl

theorem sound_bind (first : Sound truth kept code middle)
    (second : ∀ result, middle result → Sound truth kept (rest result) last) :
    Sound truth kept (code >>= rest) last := by
  intro state holdsBefore
  obtain ⟨agrees, keeps, returns⟩ := first state holdsBefore
  rw [plain_bind]
  cases answer : (code state).plain.1 with
  | error failure =>
    refine ⟨Program.agrees_bind agrees ?_, keeps, by simp⟩
    rw [answer]
    trivial
  | ok value =>
    obtain ⟨goesOn, keepsOn, ends⟩ := second value (returns value answer) _ keeps
    refine ⟨Program.agrees_bind agrees ?_, keepsOn, ends⟩
    rwa [answer]

theorem Sound.weaken (sound : Sound truth kept code post)
    (implies : ∀ result, post result → middle result) : Sound truth kept code middle := by
  intro state holdsBefore
  obtain ⟨agrees, keeps, returns⟩ := sound state holdsBefore
  exact ⟨agrees, keeps, fun result same => implies result (returns result same)⟩

theorem sound_memo {key : Key} {compute : Program Key Value Failure (Except Failure (Value key))}
    {post : Value key → Prop} (agrees : compute.Agrees truth) (same : compute.plain = truth key)
    (holds : ∀ value, compute.plain = .ok value → post value) :
    Sound truth kept (memo key compute : Code Key Value Failure State (Value key)) post :=
  fun _ holdsBefore => ⟨⟨agrees, same, trivial⟩, holdsBefore, holds⟩

theorem sound_foldlM {γ : Type} {pass : β → γ → Code Key Value Failure State β} {items : List γ}
    {start : β} (initial : last start)
    (keeps : ∀ item ∈ items, ∀ value, last value → Sound truth kept (pass value item) last) :
    Sound truth kept (items.foldlM pass start) last := by
  induction items generalizing start with
  | nil => exact sound_pure initial
  | cons item items ih =>
    obtain ⟨first, others⟩ := List.forall_mem_cons.mp keeps
    rw [List.foldlM_cons]
    exact sound_bind (first start initial) fun value holds => ih holds others

end Code

end FastGoZero.Lib.Memo
