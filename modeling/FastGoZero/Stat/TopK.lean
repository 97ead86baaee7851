import Mathlib.Data.List.Induction
import Mathlib.Data.List.Sort

/-!
# The longest tasks

`topK` keeps the longest tasks seen so far in a heap whose root is the shortest of them, and
exchanges the root for each longer task that comes.
-/

namespace FastGoZero.Stat

structure Task where
  drop : Bool
  duration : Int
  description : String
deriving DecidableEq

/-- `container/heap` over tasks: its operations keep the heap property, by which the root is a
shortest task. `pop` is what is left. -/
structure Heap where
  Ordered : List Task → Prop
  push : List Task → Task → List Task
  pop : List Task → List Task
  nil : Ordered []
  root : ∀ {first rest}, Ordered (first :: rest) → ∀ t ∈ rest, first.duration ≤ t.duration
  pushed : ∀ {h} each, Ordered h → Ordered (push h each) ∧ (push h each).Perm (each :: h)
  popped : ∀ {first rest}, Ordered (first :: rest) →
    Ordered (pop (first :: rest)) ∧ (pop (first :: rest)).Perm rest

variable (heap : Heap) (k : Int)

/-- The body of the loop; the root of an empty heap is out of range. -/
def offer (h : List Task) (each : Task) : Option (List Task) :=
  if h.length < k then some (heap.push h each)
  else match h with
    | [] => none
    | root :: _ =>
      if root.duration < each.duration then some (heap.push (heap.pop h) each) else some h

def topK (all : List Task) : Option (List Task) := all.foldlM (offer heap k) []

/-- The heap has as many of the tasks seen as it may, and no other one of them is longer. -/
structure Top (seen h left : List Task) : Prop where
  ordered : heap.Ordered h
  perm : (h ++ left).Perm seen
  length : (h.length : Int) = min k seen.length
  longest : ∀ t ∈ h, ∀ o ∈ left, o.duration ≤ t.duration

variable {heap k} {seen h left : List Task}

theorem Top.offer (top : Top heap k seen h left) (each : Task) (one : 1 ≤ k) :
    ∃ h' left', offer heap k h each = some h' ∧ Top heap k (seen ++ [each]) h' left' := by
  have count := top.perm.length_eq
  have length := top.length
  have all : (each :: (h ++ left)).Perm (seen ++ [each]) :=
    (top.perm.cons each).trans (List.perm_append_singleton each seen).symm
  rw [List.length_append] at count
  rw [offer.eq_def]
  split_ifs with room
  · -- while there is room nothing is left out
    obtain rfl : left = [] := List.length_eq_zero_iff.mp (by omega)
    obtain ⟨ordered, perm⟩ := heap.pushed each top.ordered
    refine ⟨_, [], rfl, ordered, (perm.append_right []).trans all, ?_, by simp⟩
    rw [perm.length_eq, List.length_cons, List.length_append, List.length_singleton]
    omega
  · cases h with
    | nil => exact absurd (Int.lt_of_lt_of_le Int.zero_lt_one one) room
    | cons root rest =>
      have least := heap.root top.ordered
      have shorter : ∀ o ∈ left, o.duration ≤ root.duration :=
        top.longest root List.mem_cons_self
      dsimp only
      split_ifs with longer
      · obtain ⟨popped, rest_perm⟩ := heap.popped top.ordered
        obtain ⟨ordered, pushed⟩ := heap.pushed each popped
        have perm := pushed.trans (rest_perm.cons each)
        refine ⟨_, root :: left, rfl, ordered, ?_, ?_, fun t kept o out => ?_⟩
        · exact (perm.append_right _).trans ((List.perm_middle.cons each).trans all)
        · rw [perm.length_eq, List.length_append]
          simp only [List.length_cons, List.length_nil] at length room ⊢
          omega
        · have short : o.duration ≤ root.duration := by
            rcases List.mem_cons.mp out with rfl | out
            · exact le_rfl
            · exact shorter o out
          rcases List.mem_cons.mp (perm.mem_iff.mp kept) with rfl | kept
          · exact short.trans longer.le
          · exact short.trans (least t kept)
      · refine ⟨_, each :: left, rfl, top.ordered, List.perm_middle.trans all, ?_, ?_⟩
        · rw [List.length_append, List.length_singleton]
          omega
        · intro t kept o out
          rcases List.mem_cons.mp out with rfl | out
          · have short : o.duration ≤ root.duration := not_lt.mp longer
            rcases List.mem_cons.mp kept with rfl | kept
            · exact short
            · exact short.trans (least t kept)
          · exact top.longest t kept o out

/-- `topK` keeps as many of the tasks as it may, and none that is left out is longer. -/
theorem topK_longest (heap : Heap) {k : Int} (one : 1 ≤ k) (all : List Task) :
    ∃ top left, topK heap k all = some top ∧ (top ++ left).Perm all ∧
      (top.length : Int) = min k all.length ∧
      ∀ t ∈ top, ∀ o ∈ left, o.duration ≤ t.duration := by
  suffices run : ∃ h left, topK heap k all = some h ∧ Top heap k all h left by
    obtain ⟨h, left, run, top⟩ := run
    exact ⟨h, left, run, top.perm, top.length, top.longest⟩
  induction all using List.reverseRecOn with
  | nil => exact ⟨[], [], rfl, heap.nil, .nil, by simp; omega, by simp⟩
  | append_singleton seen each ih =>
    obtain ⟨h, left, run, top⟩ := ih
    obtain ⟨h', left', step, top'⟩ := top.offer each one
    refine ⟨h', left', ?_, top'⟩
    rw [topK] at run
    simp [topK, List.foldlM_append, run, step]

/-- A sorted list is a heap. -/
def sortedHeap : Heap where
  Ordered := List.Pairwise (Order.Preimage Task.duration (· ≤ ·))
  push h each := h.orderedInsert (Order.Preimage Task.duration (· ≤ ·)) each
  pop := List.tail
  nil := .nil
  root ordered := (List.pairwise_cons.mp ordered).1
  pushed each ordered := ⟨ordered.orderedInsert each _, List.perm_orderedInsert _ each _⟩
  popped ordered := ⟨ordered.of_cons, .rfl⟩

theorem topK_longest_one : ∃ top left, topK sortedHeap 1 [⟨false, 1, ""⟩, ⟨true, 2, ""⟩] = some top ∧
    (top ++ left).Perm [⟨false, 1, ""⟩, ⟨true, 2, ""⟩] ∧ (top.length : Int) = 1 ∧
    ∀ t ∈ top, ∀ o ∈ left, o.duration ≤ t.duration :=
  topK_longest sortedHeap (by decide) _

end FastGoZero.Stat
