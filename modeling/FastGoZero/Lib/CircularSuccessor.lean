import FastGoZero.Lib.SortSearch

/-!
# The next key on a circle

Keys lie on a circle in their order. The successor of a probe is the least key that is not below it,
or the least key of all if there is none. It is unique, and it stays the successor when other keys
are taken away: a key set that grows gives up a probe to a new key only.
-/

namespace FastGoZero.Lib

open List

universe u
variable {κ : Type u} [LE κ]

/-- The key is the successor of the probe among the keys. -/
structure Successor (keys : κ → Prop) (probe key : κ) : Prop where
  mem : keys key
  next : ∀ other, keys other → probe ≤ other → probe ≤ key ∧ key ≤ other
  least : ∀ other, keys other → ¬ probe ≤ key → key ≤ other

namespace Successor

variable {keys fewer : κ → Prop} {probe key other : κ}

theorem unique [Std.IsLinearOrder κ] (first : Successor keys probe key)
    (second : Successor keys probe other) : key = other := by
  by_cases above : probe ≤ key
  · obtain ⟨otherAbove, le⟩ := second.next key first.mem above
    exact Std.le_antisymm (first.next other second.mem otherAbove).2 le
  · by_cases otherAbove : probe ≤ other
    · exact absurd (first.next other second.mem otherAbove).1 above
    · exact Std.le_antisymm (first.least other second.mem above)
        (second.least key first.mem otherAbove)

/-- Without keys that it is not among, the successor stays. -/
theorem of_subset (successor : Successor keys probe key)
    (subset : ∀ other, fewer other → keys other) (stays : fewer key) :
    Successor fewer probe key where
  mem := stays
  next other mem := successor.next other (subset other mem)
  least other mem := successor.least other (subset other mem)

end Successor

open SortSearch in
/-- The search in the sorted keys, taken round the end, finds the successor. -/
theorem successor_lowerBound [DecidableLE κ] [Std.IsLinearOrder κ] {keys : List κ}
    (sorted : keys.Pairwise (· ≤ ·)) (nonempty : 0 < keys.length) (probe fallback : κ) :
    Successor (· ∈ keys) probe (keys.getD (lowerBound keys probe % keys.length) fallback) := by
  obtain ⟨le, below, above⟩ := lowerBound_splits sorted probe
  have ordered : ∀ i j (first : i < keys.length) (second : j < keys.length), i ≤ j →
      keys[i] ≤ keys[j] := by
    intro i j first second before
    rcases Nat.lt_or_eq_of_le before with earlier | rfl
    · exact pairwise_iff_getElem.mp sorted i j first second earlier
    · exact Std.le_refl _
  have reached : ∀ i (inside : i < keys.length), probe ≤ keys[i] →
      lowerBound keys probe ≤ i := by
    intro i inside large
    by_contra before
    have fails := below i (by omega)
    simp [getElem?_eq_getElem inside, large] at fails
  by_cases found : lowerBound keys probe < keys.length
  · have large := above _ (Nat.le_refl _) found
    simp only [getElem?_eq_getElem found, Option.any_some, decide_eq_true_eq] at large
    rw [Nat.mod_eq_of_lt found, getD_eq_getElem?_getD, getElem?_eq_getElem found, Option.getD_some]
    refine ⟨getElem_mem found, ?_, fun _ _ small => absurd large small⟩
    intro other mem otherLarge
    obtain ⟨i, inside, rfl⟩ := getElem_of_mem mem
    exact ⟨large, ordered _ i found inside (reached i inside otherLarge)⟩
  · have atEnd : lowerBound keys probe = keys.length := by omega
    rw [atEnd, Nat.mod_self, getD_eq_getElem?_getD, getElem?_eq_getElem nonempty, Option.getD_some]
    refine ⟨getElem_mem nonempty, ?_, ?_⟩
    · intro other mem otherLarge
      obtain ⟨i, inside, rfl⟩ := getElem_of_mem mem
      have beyond := reached i inside otherLarge
      omega
    · intro other mem _
      obtain ⟨i, inside, rfl⟩ := getElem_of_mem mem
      exact ordered 0 i nonempty inside (Nat.zero_le i)

end FastGoZero.Lib
