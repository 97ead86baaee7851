import FastGoZero.Lib.Concurrent

/-!
# The balanced pusher

`Push` takes its targets from an index that all calls share and that each attempt increments, a
word of 64 bits. A call that fails has tried as many pushers as there are; they are all of them if
no other call took an index in between and the word did not overflow.
-/

namespace FastGoZero.Queue

open Lib Lib.Concurrent List

/-- Where a call of `Push` is, with the pushers that have failed for it, the last one first. -/
inductive PushPosition where
  | takes (failed : List Nat)
  | pushes (failed : List Nat) (target : Nat)
  | returned (available : Bool) (failed : List Nat)
deriving DecidableEq

variable (size : Nat)

/-- One step of `Push` with the index; the choice is whether the pusher returns an error. -/
def push (index : Nat) : PushPosition → Bool → Option (Nat × PushPosition)
  | .takes failed, _ =>
    if failed.length < size then
      some ((index + 1) % 2 ^ 64, .pushes failed ((index + 1) % 2 ^ 64 % size))
    else some (index, .returned false failed)
  | .pushes failed target, true => some (index, .takes (target :: failed))
  | .pushes failed _, false => some (index, .returned true failed)
  | .returned _ _, _ => none

/-- The call has taken an index and may take another. -/
def PushPosition.busy : PushPosition → Bool
  | takes failed => failed.length < size && failed != []
  | pushes _ _ => true
  | returned _ _ => false

/-- A call that takes an index is the only busy one, and the index does not overflow. -/
def pushesInTurn (s : State Nat PushPosition) : Move Bool → Bool
  | .act i _ =>
    match s.routines[i]? with
    | some (.takes failed) => size ≤ failed.length || (s.shared + 1 < 2 ^ 64 &&
        (s.routines.erase (.takes failed)).all fun other => !other.busy size)
    | _ => true
  | .meet _ _ => true

/-- The pushers are the last ones that the index stood for. -/
def Recent (index : Nat) (failed : List Nat) : Prop :=
  failed.length ≤ index ∧ failed = (range failed.length).map fun back => (index - back) % size

def Fits (index : Nat) : PushPosition → Prop
  | .takes failed =>
    if failed.length < size then Recent size index failed else ∀ pusher < size, pusher ∈ failed
  | .pushes failed target => Recent size index (target :: failed)
  | .returned available failed => available = false → ∀ pusher < size, pusher ∈ failed

variable {size}

theorem Recent.take {index : Nat} {failed : List Nat} (recent : Recent size index failed) :
    Recent size (index + 1) ((index + 1) % size :: failed) := by
  refine ⟨Nat.succ_le_succ recent.1, ?_⟩
  rw [length_cons, range_succ_eq_map, map_cons, map_map, Nat.sub_zero]
  refine congrArg (_ :: ·) (recent.2.trans (map_congr_left fun back _ => ?_))
  rw [Function.comp_apply, Nat.succ_sub_succ]

theorem Recent.covers {index : Nat} {failed : List Nat} (recent : Recent size index failed)
    (all : size ≤ failed.length) : ∀ pusher < size, pusher ∈ failed := by
  intro pusher inside
  obtain ⟨taken, same⟩ := recent
  have split := Nat.div_add_mod (index - pusher) size
  have less := Nat.mod_lt (index - pusher) (Nat.zero_lt_of_lt inside)
  have back : index - (index - pusher) % size = pusher + size * ((index - pusher) / size) := by
    omega
  rw [same]
  refine mem_map.mpr ⟨(index - pusher) % size, mem_range.mpr (by omega), ?_⟩
  rw [back, Nat.add_mul_mod_self_left, Nat.mod_eq_of_lt inside]

/-- What a call that is not busy has tried does not depend on the index. -/
theorem Fits.idle {index other : Nat} {position : PushPosition} (idle : position.busy size = false)
    (fits : Fits size index position) : Fits size other position := by
  cases position with
  | takes failed =>
    rw [Fits] at fits ⊢
    split_ifs with less
    · have none : failed = [] := by simpa [PushPosition.busy, less] using idle
      subst none
      exact ⟨Nat.zero_le _, rfl⟩
    · rwa [if_neg ‹_›] at fits
  | pushes failed target => cases idle
  | returned available failed => exact fits

theorem fits_keeps : Keeps (.apart (push size)) (fun s move => pushesInTurn size s move)
    fun index crowd => ∀ position ∈ crowd, Fits size index position := by
  apply Keeps.apart
  intro s i choice position index after rest inTurn found whole acted fits
  obtain ⟨own, others⟩ := Multiset.forall_mem_cons.mp fits
  rw [Multiset.forall_mem_cons]
  unfold push at acted
  split at acted
  · rw [Fits] at own
    split at acted
    · rename_i less
      simp only [pushesInTurn, found, Nat.not_le.mpr less, decide_false, Bool.false_or,
        Bool.and_eq_true, decide_eq_true_eq, all_eq_true, Bool.not_eq_true'] at inTurn
      obtain ⟨small, alone⟩ := inTurn
      have idle : ∀ other ∈ rest, other.busy size = false := by
        intro other mem
        apply alone
        rwa [← Multiset.mem_coe, ← Multiset.coe_erase, ← State.crowd, whole,
          Multiset.erase_cons_head]
      rw [if_pos less] at own
      rw [Nat.mod_eq_of_lt small] at acted
      cases acted
      exact ⟨own.take, fun other mem => (others other mem).idle (idle other mem)⟩
    · rename_i all
      rw [if_neg all] at own
      cases acted
      exact ⟨fun _ => own, others⟩
  · cases acted
    refine ⟨?_, others⟩
    rw [Fits]
    split
    · exact own
    · exact Recent.covers own (Nat.not_lt.mp ‹_›)
  · cases acted
    refine ⟨fun unavailable => ?_, others⟩
    cases unavailable
  · cases acted

/-- As long as calls take their indices in turn, a call that returns `ErrNoAvailablePusher` has
tried every pusher. -/
theorem push_error_tried_all (size index calls : Nat) (moves : List (Move Bool))
    (inTurn : Runs.Meets (Program.apart (push size)).step (fun s move => pushesInTurn size s move)
      ⟨index, replicate calls (.takes [])⟩ moves) (failed : List Nat)
    (returned : .returned false failed ∈ ((Program.apart (push size)).after
      ⟨index, replicate calls (.takes [])⟩ moves).routines) : ∀ pusher < size, pusher ∈ failed := by
  refine fits_keeps.run inTurn ?_ _ (Multiset.mem_coe.mpr returned) rfl
  intro position mem
  rw [eq_of_mem_replicate (Multiset.mem_coe.mp mem), Fits]
  split
  · exact ⟨Nat.zero_le _, rfl⟩
  · exact fun pusher inside => absurd (Nat.zero_lt_of_lt inside) ‹_›

/-- A call that runs alone. -/
theorem push_error_tried_all_alone : 1 ∈ [0, 1] :=
  push_error_tried_all 2 0 1 (replicate 5 (.act 0 true)) (by decide) [0, 1] (by decide) 1 (by decide)

/-- Two calls in turns: each of them tries one pusher twice and the other one never. -/
theorem push_error_one_untried :
    ((Program.apart (push 2)).after ⟨0, replicate 2 (.takes [])⟩
      (replicate 5 [Move.act 0 true, .act 1 true]).flatten).routines =
        [.returned false [1, 1], .returned false [0, 0]] := by
  decide

end FastGoZero.Queue
