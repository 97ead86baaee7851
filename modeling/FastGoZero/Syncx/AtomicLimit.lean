import FastGoZero.Lib.Concurrent

/-!
# The atomic limit

`TryBorrow` increments a counter and decrements it again when it has passed the limit, `Return`
decrements it; each of these is one atomic step on a word of 32 bits. A goroutine borrows again and
again and returns only what it holds, as the handler for connections does.
-/

namespace FastGoZero.Syncx

open Lib.Concurrent

inductive BorrowPosition where
  | idle
  | tries
  | undoes
  | holds
deriving DecidableEq

/-- `atomic.AddUint32` of `^uint32(0)`. -/
def decremented (m : Nat) : Nat := if m = 0 then 2 ^ 32 - 1 else m - 1

/-- One step of a goroutine on the counter; the limit is a word too. -/
def borrow (n m : Nat) : BorrowPosition → Unit → Option (Nat × BorrowPosition)
  | .idle, _ => some (m, .tries)
  | .tries, _ =>
    if n < (m + 1) % 2 ^ 32 then some ((m + 1) % 2 ^ 32, .undoes)
    else some ((m + 1) % 2 ^ 32, .holds)
  | .undoes, _ | .holds, _ => some (decremented m, .idle)

/-- The goroutines that use an `AtomicLimit` of the given size. -/
def limited (n : Nat) : Program Nat BorrowPosition Unit := .apart (borrow (n % 2 ^ 32))

namespace BorrowPosition

def holding : BorrowPosition → Nat
  | holds => 1
  | _ => 0

def undoing : BorrowPosition → Nat
  | undoes => 1
  | _ => 0

end BorrowPosition

open BorrowPosition

/-- The counter counts the outstanding borrows and those that are about to be undone. -/
structure Counted (n goroutines m : Nat) (crowd : Multiset BorrowPosition) : Prop where
  counter : m = total holding crowd + total undoing crowd
  most : total holding crowd ≤ n
  goroutines : crowd.card = goroutines

theorem counted_keeps {n goroutines : Nat} (few : goroutines < 2 ^ 31) :
    Keeps (limited n) (fun _ _ => True) (Counted (n % 2 ^ 32) goroutines) := by
  apply Keeps.apart
  intro s i _ position m after rest _ _ _ acted ⟨counter, most, card⟩
  generalize n % 2 ^ 32 = n at *
  simp only [total_cons] at counter most
  rw [Multiset.card_cons] at card
  -- as there are few goroutines, the word does not overflow
  have fewer : total holding rest + total undoing rest ≤ rest.card := by
    have sum : total holding rest + total undoing rest =
      total (fun p => p.holding + p.undoing) rest := Multiset.sum_map_add.symm
    have ones : rest.card = total (fun _ => 1) rest := by simp [total]
    rw [sum, ones]
    exact total_le_total rest fun p _ => by cases p <;> decide
  cases position <;> simp only [borrow, decremented, holding, undoing] at acted counter most
  case tries =>
    rw [Nat.mod_eq_of_lt (by omega)] at acted
    split at acted <;> cases acted <;> constructor <;>
      simp only [total_cons, Multiset.card_cons, holding, undoing] <;> omega
  case undoes | holds =>
    rw [if_neg (by omega)] at acted
    cases acted
    constructor <;> simp only [total_cons, Multiset.card_cons, holding, undoing] <;> omega
  case idle =>
    cases acted
    constructor <;> simp only [total_cons, Multiset.card_cons, holding, undoing] <;> omega

theorem counted_reached {n goroutines : Nat} {s : State Nat BorrowPosition}
    (few : goroutines < 2 ^ 31) {moves : List (Move Unit)}
    (reached : (limited n).after ⟨0, List.replicate goroutines .idle⟩ moves = s) :
    Counted (n % 2 ^ 32) goroutines s.shared s.crowd := by
  rw [← reached]
  refine (counted_keeps few).run_always moves ⟨?_, ?_, List.length_replicate⟩
  · exact (congrArg₂ (· + ·) (total_start holding rfl _) (total_start undoing rfl _)).symm
  · exact (total_start holding rfl _).le.trans (Nat.zero_le _)

/-- At most `n` borrows are outstanding, and the counter is their number when no call of
`TryBorrow` is in progress. -/
theorem atomicLimit_safe (n goroutines : Nat) (few : goroutines < 2 ^ 31)
    (moves : List (Move Unit)) (s : State Nat BorrowPosition)
    (reached : (limited n).after ⟨0, List.replicate goroutines .idle⟩ moves = s) :
    total holding s.crowd ≤ n ∧
      ((∀ position ∈ s.crowd, position = .idle ∨ position = .holds) →
        s.shared = total holding s.crowd) := by
  have counted := counted_reached few reached
  refine ⟨counted.most.trans (Nat.mod_le n _), fun quiet => ?_⟩
  rw [counted.counter, total_eq_zero undoing, Nat.add_zero]
  intro position mem
  rcases quiet position mem with rfl | rfl <;> rfl

/-- The only element is held by one of two goroutines, and the other one is refused. -/
theorem atomicLimit_safe_one : total holding ((limited 1).after ⟨0, List.replicate 2 .idle⟩
    [.act 0 (), .act 0 (), .act 1 (), .act 1 (), .act 1 ()]).crowd ≤ 1 :=
  (atomicLimit_safe 1 2 (by decide) _ _ rfl).1

/-- A call that increments the counter while no other call is about to undo its increment is
refused only if all elements are borrowed at this moment. -/
theorem tryBorrow_refused_full (n goroutines : Nat) (word : n < 2 ^ 32) (few : goroutines < 2 ^ 31)
    (moves : List (Move Unit)) (s : State Nat BorrowPosition)
    (reached : (limited n).after ⟨0, List.replicate goroutines .idle⟩ moves = s)
    (apart : .undoes ∉ s.crowd) (m : Nat)
    (refused : borrow (n % 2 ^ 32) s.shared .tries () = some (m, .undoes)) :
    total holding s.crowd = n := by
  have counted := counted_reached few reached
  rw [Nat.mod_eq_of_lt word] at counted
  have none : total undoing s.crowd = 0 := by
    apply total_eq_zero
    intro position mem
    cases position with
    | undoes => exact absurd mem apart
    | idle | tries | holds => rfl
  have counter := counted.counter
  have most := counted.most
  rw [borrow, Nat.mod_eq_of_lt word] at refused
  split at refused
  · omega
  · cases refused

/-- The second of two goroutines is refused while the first one holds the only element. -/
theorem tryBorrow_refused_full_one : total holding ((limited 1).after
    ⟨0, List.replicate 2 .idle⟩ [.act 0 (), .act 0 (), .act 1 ()]).crowd = 1 :=
  tryBorrow_refused_full 1 2 (by decide) (by decide) _ _ rfl (by decide) 2 (by decide)

/-- The only element is returned while a refused call is about to undo its increment; then the
third goroutine takes some steps. -/
def refusal (steps : Nat) : State Nat BorrowPosition :=
  (limited 1).after ⟨0, List.replicate 3 .idle⟩
    ([.act 0 (), .act 0 (), .act 1 (), .act 1 (), .act 0 ()] ++ List.replicate steps (.act 2 ()))

/-- Its call is refused although nothing is borrowed while it runs. -/
theorem tryBorrow_refused_free :
    [1, 2, 3].map (fun steps => (refusal steps).routines[2]?) =
        [some .tries, some .undoes, some .idle] ∧
      [0, 1, 2, 3].map (fun steps => total holding (refusal steps).crowd) = [0, 0, 0, 0] := by
  decide

end FastGoZero.Syncx
