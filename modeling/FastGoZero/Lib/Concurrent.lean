import FastGoZero.Lib.Runs
import Mathlib.Algebra.Order.BigOperators.Group.Multiset
import Mathlib.Algebra.BigOperators.Group.Multiset.Basic
import Mathlib.Algebra.Order.Group.Nat

/-!
# Goroutines over shared variables

A program says what a goroutine does next, given the shared variables and where it is: it may
change both and start other goroutines. At an unbuffered channel two goroutines take one step
together. A move names who goes next, so that a list of moves is an interleaving. Which index a
goroutine has does not matter to an invariant: the rule at the end speaks of the goroutine that
moves and of the multiset of the others.
-/

namespace FastGoZero.Lib.Concurrent

open List Multiset

universe u v w
variable {Shared : Type u} {Local : Type v} {Choice : Type w}

/-- The shared variables, and where each goroutine is. -/
structure State (Shared : Type u) (Local : Type v) where
  shared : Shared
  routines : List Local
deriving DecidableEq

/-- The goroutines without their order. -/
def State.crowd (s : State Shared Local) : Multiset Local := s.routines

/-- What a goroutine does by itself, with the goroutines it starts, and what a sender and a
receiver do that meet at an unbuffered channel. -/
structure Program (Shared : Type u) (Local : Type v) (Choice : Type w) where
  act : Shared → Local → Choice → Option (Shared × Local × List Local)
  meet : Shared → Local → Local → Option (Shared × Local × Local)

inductive Move (Choice : Type w) where
  | act (i : Nat) (choice : Choice)
  | meet (sender receiver : Nat)
deriving DecidableEq

namespace Program

variable (program : Program Shared Local Choice) (s : State Shared Local)

/-- The state after a move, if the move is possible. -/
def next : Move Choice → Option (State Shared Local)
  | .act i choice =>
    s.routines[i]?.bind fun l =>
      (program.act s.shared l choice).map fun (shared, after, started) =>
        ⟨shared, s.routines.set i after ++ started⟩
  | .meet i j =>
    if i = j then none
    else
      s.routines[i]?.bind fun a =>
        s.routines[j]?.bind fun b =>
          (program.meet s.shared a b).map fun (shared, sender, receiver) =>
            ⟨shared, (s.routines.set i sender).set j receiver⟩

def step (move : Move Choice) : State Shared Local × List Unit :=
  ((program.next s move).getD s, [])

def after (moves : List (Move Choice)) : State Shared Local :=
  (Runs.run program.step s moves).1

end Program

variable {routines : List Local} {s s' : State Shared Local} {i : Nat} {l : Local}
  {move : Move Choice}

theorem coe_set (found : routines[i]? = some l) (after : Local) :
    ((routines.set i after : List Local) : Multiset Local) =
      after ::ₘ (routines.eraseIdx i : List Local) := by
  obtain ⟨inside, -⟩ := List.getElem?_eq_some_iff.mp found
  exact coe_eq_coe.mpr (set_perm_cons_eraseIdx inside after)

theorem set_self (found : routines[i]? = some l) : routines.set i l = routines := by
  obtain ⟨inside, rfl⟩ := List.getElem?_eq_some_iff.mp found
  exact set_getElem_self inside

/-- Take one goroutine out of the crowd and put others in its place. -/
theorem crowd_set (found : routines[i]? = some l) :
    ∃ rest : Multiset Local, (routines : Multiset Local) = l ::ₘ rest ∧
      ∀ after, ((routines.set i after : List Local) : Multiset Local) = after ::ₘ rest := by
  refine ⟨(routines.eraseIdx i : List Local), ?_, coe_set found⟩
  rw [← coe_set found l, set_self found]

theorem forall_mem_set {P : Local → Prop} (old : ∀ l ∈ routines, P l) {after : Local}
    (new : P after) : ∀ l ∈ routines.set i after, P l := by
  intro l mem
  rcases mem_or_eq_of_mem_set mem with before | rfl
  · exact old l before
  · exact new

/-- Take two goroutines out of the crowd and put others in their places. -/
theorem crowd_set_set {j : Nat} {a b : Local} (distinct : i ≠ j)
    (foundSender : routines[i]? = some a) (foundReceiver : routines[j]? = some b) :
    ∃ rest : Multiset Local, (routines : Multiset Local) = a ::ₘ b ::ₘ rest ∧
      ∀ x y, (((routines.set i x).set j y : List Local) : Multiset Local) = x ::ₘ y ::ₘ rest := by
  -- without the second goroutine, the first one stands at the same index or one before
  obtain ⟨k, stays, changes⟩ : ∃ k, (routines.eraseIdx j)[k]? = some a ∧
      ∀ x, (routines.set i x).eraseIdx j = (routines.eraseIdx j).set k x := by
    rcases Nat.lt_or_gt_of_ne distinct with before | behind
    · refine ⟨i, ?_, fun x => eraseIdx_set_gt before⟩
      rw [getElem?_eraseIdx_of_lt before, foundSender]
    · refine ⟨i - 1, ?_, fun x => eraseIdx_set_lt behind⟩
      rw [getElem?_eraseIdx_of_ge (by omega), Nat.sub_add_cancel (by omega), foundSender]
  obtain ⟨rest, whole, replaced⟩ := crowd_set stays
  have both : ∀ x y, (((routines.set i x).set j y : List Local) : Multiset Local) =
      x ::ₘ y ::ₘ rest := by
    intro x y
    have found : (routines.set i x)[j]? = some b := by
      rw [getElem?_set_ne distinct, foundReceiver]
    rw [coe_set found, changes, replaced, cons_swap]
  refine ⟨rest, ?_, both⟩
  rw [← both a b, set_self foundSender, set_self foundReceiver]

/-- What a move does: one goroutine acts and may start others, or two meet. -/
theorem next_cases {program : Program Shared Local Choice} (moved : program.next s move = some s') :
    (∃ i choice l after started rest, move = .act i choice ∧ s.routines[i]? = some l ∧
      program.act s.shared l choice = some (s'.shared, after, started) ∧
      s.crowd = l ::ₘ rest ∧ s'.crowd = after ::ₘ (started + rest)) ∨
    ∃ i j a b sender receiver rest, move = .meet i j ∧ s.routines[i]? = some a ∧
      s.routines[j]? = some b ∧ program.meet s.shared a b = some (s'.shared, sender, receiver) ∧
      s.crowd = a ::ₘ b ::ₘ rest ∧ s'.crowd = sender ::ₘ receiver ::ₘ rest := by
  cases move with
  | act i choice =>
    obtain ⟨l, found, mapped⟩ := Option.bind_eq_some_iff.mp moved
    obtain ⟨⟨shared, after, started⟩, acted, rfl⟩ := Option.map_eq_some_iff.mp mapped
    obtain ⟨rest, whole, replaced⟩ := crowd_set found
    refine Or.inl ⟨i, choice, l, after, started, rest, rfl, found, acted, whole, ?_⟩
    rw [State.crowd, ← coe_add, replaced, cons_add, add_comm]
  | meet i j =>
    rw [Program.next] at moved
    split at moved
    · simp at moved
    rename_i distinct
    obtain ⟨a, foundSender, bound⟩ := Option.bind_eq_some_iff.mp moved
    obtain ⟨b, foundReceiver, mapped⟩ := Option.bind_eq_some_iff.mp bound
    obtain ⟨⟨shared, sender, receiver⟩, met, rfl⟩ := Option.map_eq_some_iff.mp mapped
    obtain ⟨rest, whole, replaced⟩ := crowd_set_set distinct foundSender foundReceiver
    exact Or.inr ⟨i, j, a, b, sender, receiver, rest, rfl, foundSender, foundReceiver, met,
      whole, replaced sender receiver⟩

section

variable (program : Program Shared Local Choice) {l' : Local}

theorem Program.after_append (s : State Shared Local) (first second : List (Move Choice)) :
    program.after s (first ++ second) = program.after (program.after s first) second := by
  rw [after, Runs.run_append]
  rfl

theorem Program.after_act {shared shared' : Shared} {choice : Choice} {started : List Local}
    (acted : program.act shared l choice = some (shared', l', started))
    (found : routines[i]? = some l) : program.after ⟨shared, routines⟩ [.act i choice] =
      ⟨shared', routines.set i l' ++ started⟩ := by
  simp [after, Runs.run_cons, step, next, found, acted]

/-- What a goroutine does that acts several times in a row and starts no other. -/
def Program.alone (shared : Shared) (l : Local) : List Choice → Option (Shared × Local)
  | [] => some (shared, l)
  | choice :: choices =>
    match program.act shared l choice with
    | some (shared, l, []) => alone shared l choices
    | _ => none

theorem Program.after_alone {shared shared' : Shared} {choices : List Choice}
    (acted : program.alone shared l choices = some (shared', l')) (found : routines[i]? = some l) :
    program.after ⟨shared, routines⟩ (choices.map (Move.act i)) = ⟨shared', routines.set i l'⟩ := by
  induction choices generalizing shared l routines with
  | nil =>
    cases acted
    obtain ⟨inside, rfl⟩ := List.getElem?_eq_some_iff.mp found
    rw [set_getElem_self]
    rfl
  | cons choice choices ih =>
    rw [alone] at acted
    split at acted
    · rename_i between between' moved
      have placed : (routines.set i between')[i]? = some between' :=
        getElem?_set_self (List.getElem?_eq_some_iff.mp found).1
      have rest := ih acted placed
      rw [set_set] at rest
      have first := program.after_act moved found
      rw [append_nil] at first
      rw [← rest, List.map_cons, ← first, ← program.after_append]
      rfl
    · simp at acted

end

section

variable {M : Type*} [AddCommMonoid M] (f : Local → M) {crowd : Multiset Local}

/-- The sum over the crowd of what each goroutine has. -/
def total (crowd : Multiset Local) : M := (crowd.map f).sum

@[simp] theorem total_zero : total f 0 = 0 := by
  rw [total, map_zero, sum_zero]

@[grind =] theorem total_nil : total f (([] : List Local) : Multiset Local) = 0 := total_zero f

@[simp] theorem total_cons (l : Local) (crowd : Multiset Local) :
    total f (l ::ₘ crowd) = f l + total f crowd := by
  rw [total, Multiset.map_cons, Multiset.sum_cons, total]

@[simp] theorem total_singleton (l : Local) : total f {l} = f l := by
  rw [total, Multiset.map_singleton, Multiset.sum_singleton]

@[simp] theorem total_add (crowd others : Multiset Local) :
    total f (crowd + others) = total f crowd + total f others := by
  rw [total, map_add, sum_add, total, total]

theorem total_concat (routines : List Local) (l : Local) :
    total f ((routines ++ [l] : List Local) : Multiset Local) =
      total f (routines : Multiset Local) + f l := by
  rw [← coe_add, total_add, coe_singleton, total_singleton]

theorem total_set {f : Local → M} (found : routines[i]? = some l) (after : Local)
    (same : f after = f l) : total f ((routines.set i after : List Local) : Multiset Local) =
      total f (routines : Multiset Local) := by
  obtain ⟨rest, whole, replaced⟩ := crowd_set found
  rw [whole, replaced, total_cons, total_cons, same]

variable (count : Local → Nat)

theorem total_eq_zero_iff (crowd : Multiset Local) :
    total count crowd = 0 ↔ ∀ l ∈ crowd, count l = 0 := by
  rw [total, Multiset.sum_eq_zero_iff, Multiset.forall_mem_map_iff]

theorem total_eq_zero (every : ∀ l ∈ crowd, f l = 0) : total f crowd = 0 := by
  apply Multiset.sum_eq_zero
  rwa [forall_mem_map_iff]

theorem total_start (f : Local → M) {idle : Local} (none : f idle = 0) (count : Nat) :
    total f ((List.replicate count idle : List Local) : Multiset Local) = 0 := by
  apply total_eq_zero
  intro l mem
  rw [List.eq_of_mem_replicate mem, none]

theorem exists_of_total (positive : total count crowd ≠ 0) :
    ∃ l ∈ crowd, count l ≠ 0 := by
  by_contra none
  push Not at none
  exact positive (total_eq_zero _ none)

theorem total_le_total {count more : Local → Nat} (crowd : Multiset Local)
    (least : ∀ l ∈ crowd, count l ≤ more l) : total count crowd ≤ total more crowd :=
  sum_map_le_sum_map count more least

theorem le_total (mem : l ∈ crowd) : count l ≤ total count crowd := by
  obtain ⟨rest, rfl⟩ := exists_cons_of_mem mem
  rw [total_cons]
  exact Nat.le_add_right _ _

/-- The goroutines that pass a test are no more than what those have together that pass it. -/
theorem countP_le_total (test : Local → Bool) (count : Local → Nat)
    (least : ∀ l, test l = true → 1 ≤ count l) (routines : List Local) :
    routines.countP test ≤ total count (routines : Multiset Local) := by
  induction routines with
  | nil => simp
  | cons l routines ih =>
    rw [List.countP_cons, ← cons_coe, total_cons]
    split
    · have := least l ‹_›
      omega
    · omega

end

/-- An invariant of the shared variables and the crowd is kept by what one goroutine does and
by what two do together, as far as the move meets the condition. -/
structure Keeps (program : Program Shared Local Choice)
    (condition : State Shared Local → Move Choice → Prop)
    (invariant : Shared → Multiset Local → Prop) : Prop where
  act : ∀ {s : State Shared Local} {i choice l shared after started rest},
    condition s (.act i choice) → s.routines[i]? = some l → s.crowd = l ::ₘ rest →
    program.act s.shared l choice = some (shared, after, started) →
    invariant s.shared (l ::ₘ rest) → invariant shared (after ::ₘ (started + rest))
  meet : ∀ {s : State Shared Local} {i j a b shared sender receiver rest},
    condition s (.meet i j) → s.routines[i]? = some a → s.routines[j]? = some b →
    program.meet s.shared a b = some (shared, sender, receiver) →
    invariant s.shared (a ::ₘ b ::ₘ rest) → invariant shared (sender ::ₘ receiver ::ₘ rest)

variable {program : Program Shared Local Choice}
  {condition : State Shared Local → Move Choice → Prop}
  {invariant : Shared → Multiset Local → Prop}

section

variable (keeps : Keeps program condition invariant)

include keeps

theorem Keeps.next (moved : program.next s move = some s') (met : condition s move)
    (holds : invariant s.shared s.crowd) : invariant s'.shared s'.crowd := by
  rcases next_cases moved with
    ⟨i, choice, l, after, started, rest, rfl, found, acted, whole, replaced⟩ |
    ⟨i, j, a, b, sender, receiver, rest, rfl, foundSender, foundReceiver, together, whole,
      replaced⟩
  · rw [whole] at holds
    rw [replaced]
    exact keeps.act met found whole acted holds
  · rw [whole] at holds
    rw [replaced]
    exact keeps.meet met foundSender foundReceiver together holds

theorem Keeps.step (s : State Shared Local) (move : Move Choice)
    (holds : invariant s.shared s.crowd) (met : condition s move) :
    invariant (program.step s move).1.shared (program.step s move).1.crowd := by
  cases moved : program.next s move with
  | none =>
    rwa [Program.step, moved]
  | some s' =>
    rw [Program.step, moved]
    exact keeps.next moved met holds

/-- The invariant holds after every run whose moves meet the condition. -/
theorem Keeps.run {moves : List (Move Choice)} (met : Runs.Meets program.step condition s moves)
    (holds : invariant s.shared s.crowd) :
    invariant (program.after s moves).shared (program.after s moves).crowd :=
  Runs.run_invariant program.step condition (fun s => invariant s.shared s.crowd) keeps.step
    s moves holds met

end

/-- The invariant rule for a program all of whose moves keep the invariant. -/
theorem Keeps.run_always (keeps : Keeps program (fun _ _ => True) invariant)
    (moves : List (Move Choice)) (holds : invariant s.shared s.crowd) :
    invariant (program.after s moves).shared (program.after s moves).crowd :=
  keeps.run (Runs.meets_of_forall program.step (fun _ => True) s moves fun _ _ => trivial) holds

/-- What follows from the invariant is true at each move of such a run. -/
theorem Keeps.meets (keeps : Keeps program condition invariant)
    {property : State Shared Local → Move Choice → Prop}
    (follows : ∀ s move, invariant s.shared s.crowd → property s move) {moves : List (Move Choice)}
    (met : Runs.Meets program.step condition s moves) (holds : invariant s.shared s.crowd) :
    Runs.Meets program.step property s moves := by
  induction moves generalizing s with
  | nil => trivial
  | cons move moves ih =>
    exact ⟨follows s move holds, ih met.2 (keeps.step s move holds met.1)⟩

/-- Goroutines that neither meet nor start others. -/
def Program.apart (act : Shared → Local → Choice → Option (Shared × Local)) :
    Program Shared Local Choice where
  act shared l choice := (act shared l choice).map fun (shared, after) => (shared, after, [])
  meet _ _ _ := none

theorem Keeps.apart {act : Shared → Local → Choice → Option (Shared × Local)}
    (keeps : ∀ {s : State Shared Local} {i choice l shared after rest},
      condition s (.act i choice) → s.routines[i]? = some l → s.crowd = l ::ₘ rest →
      act s.shared l choice = some (shared, after) → invariant s.shared (l ::ₘ rest) →
      invariant shared (after ::ₘ rest)) : Keeps (.apart act) condition invariant where
  act := by
    intro s i choice l shared after started rest met found whole acted holds
    obtain ⟨_, moved, ⟨⟩⟩ := Option.map_eq_some_iff.mp acted
    rw [coe_nil, zero_add]
    exact keeps met found whole moved holds
  meet := by
    rintro s i j a b shared sender receiver rest _ _ _ ⟨⟩

end FastGoZero.Lib.Concurrent
