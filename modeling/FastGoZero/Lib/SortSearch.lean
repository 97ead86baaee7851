import Mathlib.Data.List.Sort
import Mathlib.Data.List.Count
import Mathlib.Data.List.Perm.Basic

/-!
# Binary search in a sorted slice

The loop of Go's `sort.Search` over an index range, and what it finds in a sorted
list. The loop is fuelled by the length of its range, which each pass shortens.
`sort.Slice` is any function that keeps its contract.
-/

namespace FastGoZero.Lib.SortSearch

open List

universe u

/-- `sort.Slice` by `less`: elements that `less` does not order come in any order. -/
structure SliceSort {α : Type u} (less : α → α → Bool) where
  sort : List α → List α
  perm : ∀ l, (sort l).Perm l
  sorted : ∀ l, (sort l).Pairwise fun a b => less b a = false

/-- The loop of `sort.Search` on the half-open range from `low` to `high`. -/
def searchLoop (f : Nat → Bool) : Nat → Nat → Nat → Nat
  | 0, low, _ => low
  | fuel + 1, low, high =>
    if low < high then
      let middle := (low + high) / 2
      if f middle then searchLoop f fuel low middle else searchLoop f fuel (middle + 1) high
    else low

/-- `sort.Search`. -/
def search (count : Nat) (f : Nat → Bool) : Nat := searchLoop f count 0 count

/-- Below the result the predicate fails, from the result on it holds. -/
structure Splits (f : Nat → Bool) (count index : Nat) : Prop where
  le : index ≤ count
  below : ∀ i, i < index → f i = false
  above : ∀ i, index ≤ i → i < count → f i = true

variable {f : Nat → Bool} {count : Nat}

/-- The search keeps the split point of a monotone predicate inside its range. -/
theorem searchLoop_splits (monotone : ∀ i j, i ≤ j → j < count → f i = true → f j = true) :
    ∀ fuel low high, low ≤ high → high ≤ count → high - low ≤ fuel →
      (∀ i, i < low → f i = false) → (∀ i, high ≤ i → i < count → f i = true) →
      Splits f count (searchLoop f fuel low high) := by
  intro fuel
  induction fuel with
  | zero =>
    intro low high ordered inside short below above
    have same : low = high := by omega
    subst same
    exact ⟨inside, below, above⟩
  | succ fuel ih =>
    intro low high ordered inside short below above
    by_cases more : low < high
    · simp only [searchLoop, more, ↓reduceIte]
      split
      · rename_i holds
        apply ih low _ (by omega) (by omega) (by omega) below
        intro i reached bounded
        exact monotone _ i reached bounded holds
      · rename_i fails
        apply ih _ high (by omega) inside (by omega) _ above
        intro i reached
        by_contra holds
        have middle := monotone i ((low + high) / 2) (by omega) (by omega)
          (Bool.eq_true_of_not_eq_false holds)
        exact fails middle
    · simp only [searchLoop, more, ↓reduceIte]
      exact ⟨by omega, below, fun i reached => above i (by omega)⟩

theorem search_splits (monotone : ∀ i j, i ≤ j → j < count → f i = true → f j = true) :
    Splits f count (search count f) := by
  apply searchLoop_splits monotone count 0 count (Nat.zero_le _) (Nat.le_refl _) (by omega)
  · intro i impossible
    omega
  · intro i reached bounded
    omega

variable {α : Type u} [LE α] [DecidableLE α] {keys : List α}

/-- The first index of a slice whose element is not below the probe. -/
def lowerBound (keys : List α) (probe : α) : Nat :=
  search keys.length fun i => (keys[i]?).any fun key => decide (probe ≤ key)

theorem lowerBound_splits [Std.IsLinearOrder α] (sorted : keys.Pairwise (· ≤ ·)) (probe : α) :
    Splits (fun i => (keys[i]?).any fun key => decide (probe ≤ key)) keys.length
      (lowerBound keys probe) := by
  apply search_splits
  intro i j ordered bounded holds
  have smaller : i < keys.length := Nat.lt_of_le_of_lt ordered bounded
  simp only [getElem?_eq_getElem smaller, getElem?_eq_getElem bounded, Option.any_some,
    decide_eq_true_eq] at holds ⊢
  rcases Nat.lt_or_eq_of_le ordered with earlier | same
  · exact Std.le_trans holds (pairwise_iff_getElem.mp sorted i j smaller bounded earlier)
  · subst same
    exact holds

/-- A probe that is in the sorted slice is found at its lower bound. -/
theorem lowerBound_mem [Std.IsLinearOrder α] (sorted : keys.Pairwise (· ≤ ·)) {probe : α}
    (mem : probe ∈ keys) : keys[lowerBound keys probe]? = some probe := by
  obtain ⟨_, below, above⟩ := lowerBound_splits sorted probe
  obtain ⟨i, bounded, found⟩ := mem_iff_getElem.mp mem
  have reached : lowerBound keys probe ≤ i := by
    by_contra before
    have fails := below i (by omega)
    simp [getElem?_eq_getElem bounded, found] at fails
  have inside : lowerBound keys probe < keys.length := Nat.lt_of_le_of_lt reached bounded
  have enough := above _ (Nat.le_refl _) inside
  simp only [getElem?_eq_getElem inside, Option.any_some, decide_eq_true_eq] at enough
  rw [getElem?_eq_getElem inside, Option.some.injEq]
  rcases Nat.lt_or_eq_of_le reached with earlier | same
  · have ordered := pairwise_iff_getElem.mp sorted _ i inside bounded earlier
    exact Std.le_antisymm (found ▸ ordered) enough
  · simp only [same, found]

variable [DecidableEq α]

/-- The slice without the element at the probe's lower bound, when that element is
the probe. -/
def removeKey (keys : List α) (probe : α) : List α :=
  if keys[lowerBound keys probe]? = some probe then keys.eraseIdx (lowerBound keys probe) else keys

theorem removeKey_sorted (sorted : keys.Pairwise (· ≤ ·)) (probe : α) :
    (removeKey keys probe).Pairwise (· ≤ ·) := by
  unfold removeKey
  split
  · exact sorted.sublist (eraseIdx_sublist _ _)
  · exact sorted

/-- One occurrence of the probe goes, if there is one. -/
theorem count_removeKey [Std.IsLinearOrder α] (sorted : keys.Pairwise (· ≤ ·)) (probe key : α) :
    (removeKey keys probe).count key = keys.count key - if probe = key then 1 else 0 := by
  unfold removeKey
  split
  · rename_i found
    obtain ⟨inside, element⟩ := List.getElem?_eq_some_iff.mp found
    have permuted := (getElem_cons_eraseIdx_perm inside).count_eq key
    rw [element, count_cons] at permuted
    simp only [beq_iff_eq] at permuted
    omega
  · rename_i missing
    split_ifs with same
    · subst same
      have absent : probe ∉ keys := fun mem => missing (lowerBound_mem sorted mem)
      rw [count_eq_zero_of_not_mem absent]
    · rfl

end FastGoZero.Lib.SortSearch
