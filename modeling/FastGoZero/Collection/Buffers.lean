import FastGoZero.Lib.Ring
import Mathlib.Data.List.DropRight

/-!
# Circular buffers

A `Ring` keeps the last values that were added to it. A `Queue` gives out what was put into it in
the order of the puts, and grows when it is full. Both go around a slice: the `Ring` folds its index
back by the length of the slice, the `Queue` takes head and tail modulo the length. A value that
was not written is the default one.
-/

namespace FastGoZero.Collection

open Lib List

universe u

structure Ring (α : Type u) where
  elements : List α
  index : Nat

structure Queue (α : Type u) where
  elements : List α
  size : Nat
  head : Nat := 0
  tail : Nat := 0
  count : Nat := 0

inductive QueueCall (α : Type u) where
  | put (element : α)
  | take

variable {α : Type u}

namespace Ring

/-- It panics if the size is not positive. -/
def newRing [Inhabited α] (n : Int) : Option (Ring α) :=
  if n < 1 then none else some ⟨replicate n.toNat default, 0⟩

def add (r : Ring α) (v : α) : Ring α :=
  let rlen := r.elements.length
  let index := r.index + 1
  ⟨r.elements.set (r.index % rlen) v, if rlen * 2 ≤ index then index - rlen else index⟩

def take (r : Ring α) : List α :=
  let rlen := r.elements.length
  if rlen < r.index then Lib.Ring.read r.elements (r.index % rlen) rlen
  else Lib.Ring.read r.elements 0 r.index

/-- From the next slot on, the slots hold the last of what was there and what was added. -/
structure Holds (r : Ring α) (n : Nat) (first values : List α) : Prop where
  length : r.elements.length = n
  below : r.index < n * 2
  folded : r.index = values.length ∨ (n ≤ r.index ∧ n ≤ values.length)
  slots : r.elements.rotate r.index = (first ++ values).drop values.length

variable {r : Ring α} {n : Nat} {first values : List α}

theorem Holds.add (holds : r.Holds n first values) (positive : 0 < n) (full : first.length = n)
    (v : α) : (r.add v).Holds n first (values ++ [v]) := by
  obtain ⟨length, below, folded, slots⟩ := holds
  have written : (Ring.overwrite r.elements r.index v 1).rotate (r.index + 1) = _ :=
    Ring.rotate_overwrite v (by omega)
  rw [slots, drop_drop, ← drop_append_of_le_length (by simp; omega), append_assoc] at written
  refine ⟨by simpa [Ring.add] using length, ?_, ?_, ?_⟩
  · simp only [Ring.add]
    split_ifs <;> omega
  · simp only [Ring.add, length_append, length_singleton]
    split_ifs <;> omega
  · rw [length_append, length_singleton]
    refine Eq.trans ?_ written
    simp only [Ring.add]
    split_ifs with wraps
    · rw [← rotate_mod, ← rotate_mod _ (r.index + 1), length_set, Ring.length_overwrite,
        ← Nat.mod_eq_sub_mod (by omega)]
      rfl
    · rfl

theorem Holds.take (holds : r.Holds n first values) (full : first.length = n) :
    r.take = values.rtake n := by
  obtain ⟨length, below, folded, slots⟩ := holds
  have late : ∀ {count : Nat}, n ≤ count → (first ++ values).drop count = values.drop (count - n) := by
    intro count past
    rw [drop_append, full, drop_eq_nil_of_le (full ▸ past), nil_append]
  simp only [Ring.take, rtake]
  split_ifs with wrapped
  · rw [Ring.read_eq_take (Nat.le_refl _), rotate_mod, take_of_length_le (by simp), slots]
    exact late (by omega)
  · have parts := rotate_eq_drop_append_take (l := r.elements) (n := r.index) (by omega)
    rw [Ring.read_eq_take (by omega), rotate_zero]
    calc r.elements.take r.index
        = (r.elements.rotate r.index).drop (n - r.index) := by
          rw [parts, drop_left' (by rw [length_drop, length])]
      _ = values.drop (values.length + (n - r.index) - n) := by
          rw [slots, drop_drop, late (by omega)]
      _ = values.drop (values.length - n) := by congr 1; omega

/-- A ring gives the last values that were added to it, as many as it has slots, in the order in
which they were added. -/
theorem take_newRing [Inhabited α] (n : Int) (positive : 1 ≤ n) :
    ∃ r : Ring α, newRing n = some r ∧
      ∀ values : List α, (values.foldl add r).take = values.rtake n.toNat := by
  refine ⟨_, if_neg (by omega), fun values => ?_⟩
  have full := length_replicate (n := n.toNat) (a := (default : α))
  suffices holds : Holds (values.foldl add ⟨replicate n.toNat default, 0⟩) n.toNat
      (replicate n.toNat default) values from holds.take full
  induction values using List.reverseRecOn with
  | nil => exact ⟨full, by simp; omega, Or.inl rfl, by simp⟩
  | append_singleton values v ih =>
    rw [foldl_append]
    exact ih.add (by omega) full v

theorem take_newRing_twice :
    ∃ r : Ring Nat, newRing 2 = some r ∧ ([1, 2, 3, 4, 5].foldl add r).take = [4, 5] := by
  obtain ⟨r, made, last⟩ := take_newRing (α := Nat) 2 (by decide)
  exact ⟨r, made, last [1, 2, 3, 4, 5]⟩

end Ring

namespace Queue

section

variable [Inhabited α]

def newQueue (size : Nat) : Queue α := { elements := replicate size default, size }

/-- A full queue is copied from its head on into a slice with more room. -/
def grow (q : Queue α) : Queue α :=
  if q.head = q.tail ∧ 0 < q.count then
    { q with
      elements := q.elements.drop q.head ++ q.elements.take q.head ++ replicate q.size default
      head := 0
      tail := q.elements.length }
  else q

/-- It panics where the tail is not an index. -/
def put (q : Queue α) (element : α) : Option (Queue α) :=
  let q := q.grow
  if q.tail < q.elements.length then
    some { q with
      elements := q.elements.set q.tail element
      tail := (q.tail + 1) % q.elements.length
      count := q.count + 1 }
  else none

end

/-- The element, or nothing from an empty queue. It panics where the head is not an index. -/
def take (q : Queue α) : Option (Option α × Queue α) :=
  if q.count = 0 then some (none, q)
  else q.elements[q.head]?.map fun element =>
    (some element, { q with head := (q.head + 1) % q.elements.length, count := q.count - 1 })

/-- What the calls of `Take` return. -/
def answers [Inhabited α] : Queue α → List (QueueCall α) → Option (List (Option α))
  | _, [] => some []
  | q, .put element :: calls => do (← q.put element).answers calls
  | q, .take :: calls => do
    let (answer, q) ← q.take
    (q.answers calls).map (answer :: ·)

/-- The same of a list that is put to at its end and taken from at its front. -/
def fifoAnswers : List α → List (QueueCall α) → List (Option α)
  | _, [] => []
  | content, .put element :: calls => fifoAnswers (content ++ [element]) calls
  | content, .take :: calls => content.head? :: fifoAnswers content.tail calls

structure Holds (q : Queue α) (content : List α) : Prop where
  size : 0 < q.size
  head : q.head < q.elements.length
  count : q.count = content.length
  room : q.count ≤ q.elements.length
  tail : q.tail = (q.head + q.count) % q.elements.length
  slots : ∀ i < q.count, q.elements[(q.head + i) % q.elements.length]? = content[i]?

variable {q : Queue α} {content : List α}

theorem Holds.take (holds : q.Holds content) :
    ∃ next, q.take = some (content.head?, next) ∧ next.Holds content.tail := by
  obtain ⟨size, head, count, room, tail, slots⟩ := holds
  rw [Queue.take]
  cases content with
  | nil => exact ⟨q, if_pos count, size, head, count, room, tail, slots⟩
  | cons first rest =>
    rw [length_cons] at count
    have front := slots 0 (by omega)
    rw [Nat.add_zero, Nat.mod_eq_of_lt head] at front
    rw [if_neg (by omega), front]
    refine ⟨_, rfl, size, Nat.mod_lt _ (by omega), by simp [count], by simp; omega, ?_, ?_⟩
    · simp only [tail, Nat.mod_add_mod]
      congr 1
      omega
    · intro i below
      have next := slots (i + 1) (by simp only at below; omega)
      simpa [Nat.add_assoc, Nat.add_comm 1] using next

variable [Inhabited α]

theorem Holds.grow (holds : q.Holds content) :
    q.grow.Holds content ∧ q.grow.count < q.grow.elements.length := by
  obtain ⟨size, head, count, room, tail, slots⟩ := holds
  rw [Queue.grow]
  split_ifs with full
  · have whole : q.count = q.elements.length := by
      by_contra other
      have meets : (q.head + 0) % q.elements.length = (q.head + q.count) % q.elements.length := by
        rw [← tail, ← full.1, Nat.add_zero, Nat.mod_eq_of_lt head]
      exact absurd (Ring.eq_of_mod_eq (by omega) (by omega) meets) (by omega)
    rw [← rotate_eq_drop_append_take (Nat.le_of_lt head)]
    refine ⟨⟨size, by simp; omega, count, by simp; omega, ?_, ?_⟩, by simp; omega⟩
    · simp [whole, Nat.mod_eq_of_lt, size]
    · intro i (below : i < q.count)
      rw [Nat.zero_add, Nat.mod_eq_of_lt (by simp; omega), getElem?_append_left (by simp; omega),
        Ring.getElem?_rotate (whole ▸ below), slots i below]
  · refine ⟨⟨size, head, count, room, tail, slots⟩, Nat.lt_of_le_of_ne room fun whole => full ?_⟩
    rw [tail, whole, Nat.add_mod_right, Nat.mod_eq_of_lt head]
    exact ⟨rfl, by omega⟩

theorem Holds.put (holds : q.Holds content) (element : α) :
    ∃ next, q.put element = some next ∧ next.Holds (content ++ [element]) := by
  obtain ⟨⟨size, head, count, room, tail, slots⟩, free⟩ := holds.grow
  have index : q.grow.tail < q.grow.elements.length := tail ▸ Nat.mod_lt _ (by omega)
  refine ⟨_, if_pos index, size, by simpa using head, by simp [count], ?_, ?_, ?_⟩
  · rw [length_set]
    exact free
  · simp [tail, Nat.add_assoc]
  · intro i (below : i < q.grow.count + 1)
    rw [length_set, getElem?_set]
    rcases Nat.lt_succ_iff_lt_or_eq.mp below with earlier | rfl
    · have apart : q.grow.tail ≠ (q.grow.head + i) % q.grow.elements.length := fun same =>
        Nat.ne_of_gt earlier (Ring.eq_of_mod_eq free (by omega) (tail ▸ same))
      rw [if_neg apart, slots i earlier, getElem?_append_left (count ▸ earlier)]
    · rw [if_pos tail, if_pos index, count, getElem?_concat_length]

theorem Holds.answers (holds : q.Holds content) (calls : List (QueueCall α)) :
    q.answers calls = some (fifoAnswers content calls) := by
  induction calls generalizing q content with
  | nil => rfl
  | cons call calls ih =>
    cases call with
    | put element =>
      obtain ⟨next, done, holds⟩ := holds.put element
      simp [Queue.answers, done, ih holds, fifoAnswers]
    | take =>
      obtain ⟨next, done, holds⟩ := holds.take
      simp [Queue.answers, done, ih holds, fifoAnswers]

/-- A queue answers as the list of what was put and not yet taken. -/
theorem answers_newQueue (size : Nat) (positive : 0 < size) (calls : List (QueueCall α)) :
    (newQueue size).answers calls = some (fifoAnswers [] calls) := by
  refine Holds.answers ⟨positive, ?_, rfl, Nat.zero_le _, ?_, ?_⟩ calls
  · simpa [newQueue] using positive
  · simp [newQueue]
  · simp [newQueue]

theorem answers_newQueue_grown :
    (newQueue 1 : Queue Nat).answers [.put 1, .put 2, .take, .put 3, .take, .take, .take] =
      some [some 1, some 2, some 3, none] :=
  answers_newQueue (α := Nat) 1 (by decide) _

end Queue

end FastGoZero.Collection
