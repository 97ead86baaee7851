import Mathlib.Data.List.Nodup
import Mathlib.Data.List.Perm.Basic

/-!
# Lists in the order of last use

A history lists the keys that were used, the last one first, so the place at which a key first
occurs in it tells how long ago the key was last used. Keys that are brought to the front at each
use stay in that order, and the last of them is the one that was not used for the longest time.
-/

namespace FastGoZero.Lib

open List

universe u
variable {K : Type u} [DecidableEq K]

/-- The first key was used after the second. -/
def MoreRecent (history : List K) (first second : K) : Prop :=
  history.idxOf first < history.idxOf second

/-- The keys stand in the order of their last use. -/
structure Recent (history keys : List K) : Prop where
  ordered : keys.Pairwise (MoreRecent history)
  used : ∀ key ∈ keys, key ∈ history

namespace Recent

variable {history keys : List K}

theorem nil (history : List K) : Recent history ([] : List K) := ⟨Pairwise.nil, by simp⟩

theorem nodup (recent : Recent history keys) : keys.Nodup := by
  refine recent.ordered.imp ?_
  intro first second order same
  rw [MoreRecent, same] at order
  exact Nat.lt_irrefl _ order

theorem sublist {fewer : List K} (recent : Recent history keys) (kept : fewer.Sublist keys) :
    Recent history fewer where
  ordered := recent.ordered.sublist kept
  used key mem := recent.used key (kept.subset mem)

theorem moreRecent_cons {key first second : K} (other : first ≠ key) (another : second ≠ key)
    (order : MoreRecent history first second) : MoreRecent (key :: history) first second := by
  rw [MoreRecent, idxOf_cons_ne _ other.symm, idxOf_cons_ne _ another.symm]
  exact Nat.succ_lt_succ order

theorem use (recent : Recent history keys) (key : K) :
    Recent (key :: history) (key :: keys.erase key) := by
  have apart : ∀ other ∈ keys.erase key, other ≠ key := by
    rintro other mem rfl
    exact recent.nodup.not_mem_erase mem
  constructor
  · refine pairwise_cons.mpr ⟨?_, ?_⟩
    · intro other mem
      rw [MoreRecent, idxOf_cons_self, idxOf_cons_ne _ (apart other mem).symm]
      exact Nat.succ_pos _
    · have shorter : (keys.erase key).Pairwise (MoreRecent history) :=
        recent.ordered.sublist erase_sublist
      apply shorter.imp_of_mem
      intro first second left right order
      exact moreRecent_cons (apart first left) (apart second right) order
  · refine forall_mem_cons.mpr ⟨mem_cons_self, fun other old => ?_⟩
    exact mem_cons_of_mem _ (recent.used other (mem_of_mem_erase old))

theorem last {front : List K} {oldest : K} (recent : Recent history (front ++ [oldest])) :
    ∀ key ∈ front, MoreRecent history key oldest := by
  intro key mem
  exact (pairwise_append.mp recent.ordered).2.2 key mem oldest (mem_singleton_self _)

end Recent

end FastGoZero.Lib
