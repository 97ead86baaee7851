import Mathlib.Data.List.Infix

/-!
# Longest suffixes in a set of words

A matcher for several words keeps, while it reads a text, the longest suffix of what it has read
that begins one of the words. When the next letter does not continue that suffix, it falls back to
the longest proper suffix, and so on. The set of beginnings is any set of words that has every
prefix of its members.
-/

namespace FastGoZero.Lib

open List

universe u
variable {α : Type u}

def PrefixClosed (words : List α → Prop) : Prop := ∀ u c, words (u ++ [c]) → words u

/-- The longest suffix of the text in the set. -/
structure Longest (words : List α → Prop) (text s : List α) : Prop where
  suffix : s <:+ text
  mem : words s
  longest : ∀ u, u <:+ text → words u → u <:+ s

/-- Every suffix of the text that the letter continues within the set is a suffix of this one. -/
structure Live (words : List α → Prop) (text : List α) (c : α) (s : List α) : Prop where
  suffix : s <:+ text
  mem : words s
  live : ∀ u, u <:+ text → words (u ++ [c]) → u <:+ s

variable {words : List α → Prop} {text s f u : List α} {c : α}

theorem Longest.refl (mem : words s) : Longest words s s :=
  ⟨suffix_refl s, mem, fun _ suffix _ => suffix⟩

/-- The suffixes in the set of the longest one are those of the text. -/
theorem Longest.suffix_iff (longest : Longest words text s) (mem : words u) :
    u <:+ s ↔ u <:+ text :=
  ⟨fun suffix => suffix.trans longest.suffix, fun suffix => longest.longest u suffix mem⟩

theorem Longest.length_lt (falls : Longest words text.tail s) (nonempty : text ≠ []) :
    s.length < text.length := by
  have shorter := falls.suffix.length_le
  have positive := length_pos_of_ne_nil nonempty
  rw [length_tail] at shorter
  omega

theorem Longest.live (longest : Longest words text s) (closed : PrefixClosed words) (c : α) :
    Live words text c s :=
  ⟨longest.suffix, longest.mem, fun u suffix continued =>
    longest.longest u suffix (closed u c continued)⟩

theorem Live.found (live : Live words text c s) (continued : words (s ++ [c])) :
    Longest words (text ++ [c]) (s ++ [c]) := by
  obtain ⟨front, rfl⟩ := live.suffix
  refine ⟨⟨front, (append_assoc _ _ _).symm⟩, continued, ?_⟩
  intro u suffix mem
  rcases suffix_concat_iff.mp suffix with rfl | ⟨v, rfl, shorter⟩
  · exact nil_suffix
  · obtain ⟨rest, whole⟩ := live.live v shorter mem
    refine ⟨rest, ?_⟩
    rw [← append_assoc, whole]

/-- The letter does not continue the suffix: the next candidate is the longest proper suffix. -/
theorem Live.next (live : Live words text c s) (closed : PrefixClosed words)
    (stuck : ¬ words (s ++ [c])) (falls : Longest words s.tail f) : Live words text c f := by
  refine ⟨(falls.suffix.trans (tail_suffix s)).trans live.suffix, falls.mem, ?_⟩
  intro u suffix continued
  have within := live.live u suffix continued
  cases s with
  | nil =>
    rw [suffix_nil.mp within] at continued
    exact absurd continued stuck
  | cons a rest =>
    rcases suffix_cons_iff.mp within with rfl | shorter
    · exact absurd continued stuck
    · exact falls.longest u shorter (closed u c continued)

theorem Live.lost (live : Live words text c []) (stuck : ¬ words [c]) :
    Longest words (text ++ [c]) [] := by
  refine ⟨nil_suffix, live.mem, ?_⟩
  intro u suffix mem
  rcases suffix_concat_iff.mp suffix with rfl | ⟨v, rfl, shorter⟩
  · exact nil_suffix
  · rw [suffix_nil.mp (live.live v shorter mem)] at mem
    exact absurd mem stuck

/-- A suffix in the set is the whole word or a suffix of its longest proper suffix. -/
theorem suffix_iff_falls {a : α} {rest : List α} (falls : Longest words rest f) (mem : words u) :
    u <:+ a :: rest ↔ u = a :: rest ∨ u <:+ f := by
  rw [suffix_cons_iff, falls.suffix_iff mem]

end FastGoZero.Lib
