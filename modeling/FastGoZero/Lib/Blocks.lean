import Mathlib.Data.List.Basic

/-!
# Lists of full blocks

A function of blocks, applied to a list block after block.
-/

namespace FastGoZero.Lib

open List

universe u

variable {α : Type u}

/-- Applies a function of blocks to the first blocks of a list. -/
def mapBlocks (size : Nat) (f : List α → List α) : Nat → List α → List α
  | 0, _ => []
  | count + 1, xs => f (xs.take size) ++ mapBlocks size f count (xs.drop size)

def KeepsSize (size : Nat) (f : List α → List α) : Prop :=
  ∀ block, block.length = size → (f block).length = size

variable {size : Nat} {f g : List α → List α} {count : Nat} {xs : List α}

theorem take_block (full : xs.length = (count + 1) * size) : (xs.take size).length = size := by
  rw [length_take, full, Nat.succ_mul]
  omega

theorem drop_block (full : xs.length = (count + 1) * size) :
    (xs.drop size).length = count * size := by
  rw [length_drop, full, Nat.succ_mul]
  omega

theorem length_mapBlocks (keeps : KeepsSize size f)
    (full : xs.length = count * size) : (mapBlocks size f count xs).length = count * size := by
  induction count generalizing xs with
  | zero => simp [mapBlocks]
  | succ count ih =>
    rw [mapBlocks, length_append, keeps _ (take_block full),
      ih (drop_block full), Nat.succ_mul, Nat.add_comm]

/-- Where one function of blocks undoes another, so it does block after block. -/
theorem mapBlocks_leftInverse (keeps : KeepsSize size f)
    (undoes : ∀ block, block.length = size → g (f block) = block)
    (full : xs.length = count * size) :
    mapBlocks size g count (mapBlocks size f count xs) = xs := by
  induction count generalizing xs with
  | zero =>
    have empty : xs = [] := length_eq_zero_iff.mp (by simpa using full)
    simp [mapBlocks, empty]
  | succ count ih =>
    have first := keeps _ (take_block full)
    rw [mapBlocks, mapBlocks, take_left' first, drop_left' first,
      undoes _ (take_block full), ih (drop_block full), take_append_drop]

theorem getLast?_mapBlocks (positive : 0 < size) (keeps : KeepsSize size f)
    (full : xs.length = (count + 1) * size) :
    (mapBlocks size f (count + 1) xs).getLast? = (f (xs.drop (count * size))).getLast? := by
  induction count generalizing xs with
  | zero =>
    rw [Nat.zero_add, Nat.one_mul] at full
    simp [mapBlocks, take_of_length_le (Nat.le_of_eq full)]
  | succ count ih =>
    have rest := drop_block full
    have nonempty : mapBlocks size f (count + 1) (xs.drop size) ≠ [] := by
      intro empty
      have length := length_mapBlocks keeps rest
      rw [empty, length_nil] at length
      exact absurd length (Nat.ne_of_lt (Nat.mul_pos (Nat.succ_pos count) positive))
    rw [mapBlocks, getLast?_append_of_ne_nil _ nonempty, ih rest,
      drop_drop, Nat.succ_mul, Nat.add_comm]

end FastGoZero.Lib
