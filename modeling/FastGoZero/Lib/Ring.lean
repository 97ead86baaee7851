import Mathlib.Data.List.Rotate
import Mathlib.Data.Nat.ModEq

/-!
# Rings of slots

A list whose positions are counted around: the slot after the last is the first. A loop that goes
around from a position sees a stretch of the list rotated there. Slots that are overwritten in a
loop leave the ring from the front of the rotated list, and come in again at its back.
-/

namespace FastGoZero.Lib.Ring

open List

universe u
variable {α : Type u} {start : Nat} {ring : List α} {count offset : Nat}

theorem eq_of_mod_eq {size i j : Nat} (left : i < size) (right : j < size)
    (same : (start + i) % size = (start + j) % size) : i = j := by
  have congruent : i ≡ j [MOD size] := Nat.ModEq.add_left_cancel' start same
  exact congruent.eq_of_lt_of_lt left right

/-- Write a value into so many slots from a position on, one after the other. -/
def overwrite (ring : List α) (start : Nat) (value : α) : Nat → List α
  | 0 => ring
  | count + 1 => (overwrite ring start value count).set ((start + count) % ring.length) value

@[simp] theorem length_overwrite (ring : List α) (start : Nat) (value : α) (count : Nat) :
    (overwrite ring start value count).length = ring.length := by
  induction count with
  | zero => rfl
  | succ count ih => rw [overwrite, length_set, ih]

/-- The slots that the loop has passed hold the value, the others what they held. -/
theorem getElem?_overwrite (value : α)
    (enough : count ≤ ring.length) (inside : offset < ring.length) :
    (overwrite ring start value count)[(start + offset) % ring.length]? =
      if offset < count then some value else ring[(start + offset) % ring.length]? := by
  have bound : (start + offset) % ring.length < ring.length :=
    Nat.mod_lt _ (Nat.zero_lt_of_lt inside)
  induction count with
  | zero => rw [overwrite, if_neg (Nat.not_lt_zero offset)]
  | succ count ih =>
    rw [overwrite, getElem?_set, length_overwrite]
    by_cases last : offset = count
    · subst last
      rw [if_pos rfl, if_pos bound, if_pos (Nat.lt_succ_self offset)]
    · have apart : (start + count) % ring.length ≠ (start + offset) % ring.length := by
        intro same
        exact last (eq_of_mod_eq (by omega) inside same).symm
      rw [if_neg apart, ih (by omega)]
      by_cases passed : offset < count
      · rw [if_pos passed, if_pos (by omega)]
      · rw [if_neg passed, if_neg (by omega)]

theorem getElem?_rotate (inside : offset < ring.length) :
    (ring.rotate start)[offset]? = ring[(start + offset) % ring.length]? := by
  rw [List.getElem?_rotate inside, Nat.add_comm]

/-- A ring that is turned by the overwritten slots has lost as many from its front. -/
theorem rotate_overwrite (value : α) (enough : count ≤ ring.length) :
    (overwrite ring start value count).rotate (start + count) =
      (ring.rotate start).drop count ++ replicate count value := by
  apply ext_getElem?'
  intro offset inside
  simp only [length_rotate, length_overwrite, length_append, length_drop, length_replicate] at inside
  rw [getElem?_rotate (by rw [length_overwrite]; omega), length_overwrite, Nat.add_assoc]
  by_cases early : count + offset < ring.length
  · rw [getElem?_overwrite value enough early, if_neg (by omega), getElem?_append_left,
      getElem?_drop, getElem?_rotate early]
    rw [length_drop, length_rotate]
    omega
  · -- the position has gone around to a slot that was overwritten
    have around : (start + (count + offset)) % ring.length =
        (start + (count + offset - ring.length)) % ring.length := by
      rw [← Nat.add_sub_assoc (by omega), ← Nat.mod_eq_sub_mod (by omega)]
    rw [around, getElem?_overwrite value enough (by omega), if_pos (by omega),
      getElem?_append_right, getElem?_replicate, if_pos]
    all_goals
      rw [length_drop, length_rotate]
      omega

/-- A slot that is changed in place is changed in the rotated list. -/
theorem rotate_modify (change : α → α) (inside : offset < ring.length) :
    (ring.modify ((start + offset) % ring.length) change).rotate start =
      (ring.rotate start).modify offset change := by
  apply ext_getElem?'
  intro probe bound
  simp only [length_rotate, length_modify, max_self] at bound
  rw [getElem?_rotate (by rwa [length_modify]), length_modify, getElem?_modify, getElem?_modify,
    getElem?_rotate bound]
  by_cases same : offset = probe
  · subst same
    simp only [if_true]
  · have apart : (start + offset) % ring.length ≠ (start + probe) % ring.length := by
      intro meet
      exact same (eq_of_mod_eq inside bound meet)
    simp only [apart, same, if_false]

theorem modify_append_last {front : List α} {position : Nat} (last : α) (change : α → α)
    (length : front.length = position) :
    (front ++ [last]).modify position change = front ++ [change last] := by
  subst length
  induction front with
  | nil => rfl
  | cons slot front ih =>
    rw [cons_append, length_cons, modify_succ_cons, ih, cons_append]

/-- Read so many slots from a position on, one after the other. -/
def read (ring : List α) (start count : Nat) : List α :=
  (List.range count).filterMap fun i => ring[(start + i) % ring.length]?

theorem read_eq_take (enough : count ≤ ring.length) :
    read ring start count = (ring.rotate start).take count := by
  induction count with
  | zero => rfl
  | succ count ih =>
    have inside : count < ring.length := by omega
    have found : (ring.rotate start)[count]? = ring[(start + count) % ring.length]? :=
      getElem?_rotate inside
    rw [read, range_succ, filterMap_append, ← read, ih (by omega), take_add_one, found]
    rw [filterMap_cons]
    cases ring[(start + count) % ring.length]? <;> rfl

end FastGoZero.Lib.Ring
