import Mathlib.Data.List.Infix

/-!
# Go strings

A Go string is a sequence of bytes. The operations here are those of the language and
its `strings` package that the models use.
-/

namespace FastGoZero.Lib

open List

abbrev Str := List UInt8

namespace Str

/-- A string literal of one-byte characters. -/
def bytes (text : String) : Str := text.toList.map fun c => UInt8.ofNat c.toNat

/-- `strings.Index`: the first place where the part occurs. -/
def index (text part : Str) : Option Nat :=
  (List.range (text.length + 1)).find? fun i => part.isPrefixOf (text.drop i)

/-- `strings.IndexByte`. -/
def indexByte (text : Str) (b : UInt8) : Option Nat := text.findIdx? (· == b)

/-- `strings.LastIndexByte`. -/
def lastIndexByte (text : Str) (b : UInt8) : Option Nat :=
  (indexByte text.reverse b).map fun i => text.length - 1 - i

/-- The part before the first separator byte: `strings.SplitN(text, sep, 2)[0]`. -/
def before (separator : UInt8) (text : Str) : Str :=
  text.takeWhile (· ≠ separator)

def longestCommonPrefix : Str → Str → Nat
  | a :: as, b :: bs => if a = b then longestCommonPrefix as bs + 1 else 0
  | _, _ => 0

theorem longestCommonPrefix_le_right (a b : Str) : longestCommonPrefix a b ≤ b.length := by
  fun_induction longestCommonPrefix a b with
  | case1 a as bs ih => exact Nat.succ_le_succ ih
  | case2 | case3 => exact Nat.zero_le _

theorem take_longestCommonPrefix (a b : Str) :
    a.take (longestCommonPrefix a b) = b.take (longestCommonPrefix a b) := by
  fun_induction longestCommonPrefix a b with
  | case1 a as bs ih => rw [take_succ_cons, take_succ_cons, ih]
  | case2 | case3 => rfl

theorem longestCommonPrefix_append (a rest : Str) :
    longestCommonPrefix (a ++ rest) a = a.length := by
  induction a with
  | nil => cases rest <;> rfl
  | cons x as ih => simp [longestCommonPrefix, ih]

theorem longestCommonPrefix_pos {a b : Str} {first : UInt8} (left : a.head? = some first)
    (right : b.head? = some first) : 0 < longestCommonPrefix a b := by
  cases a with
  | nil => cases left
  | cons x as =>
    cases b with
    | nil => cases right
    | cons y bs =>
      simp only [head?_cons, Option.some.injEq] at left right
      simp [longestCommonPrefix, left, right]

/-- Past the common length the two strings differ, if neither has ended. -/
theorem longestCommonPrefix_split {a b : Str} {x y : UInt8} {as bs : Str}
    (left : a.drop (longestCommonPrefix a b) = x :: as)
    (right : b.drop (longestCommonPrefix a b) = y :: bs) : x ≠ y := by
  fun_induction longestCommonPrefix a b with
  | case1 a as bs ih => exact ih left right
  | case2 a as b bs differ =>
    cases left
    cases right
    exact differ
  | case3 a b short =>
    subst left right
    exact absurd rfl (short x as y bs rfl)

/-- Of two suffixes of one string, the shorter is a suffix of the longer. -/
theorem suffix_iff_length_le {whole first second : Str} (one : first <:+ whole)
    (two : second <:+ whole) : first <:+ second ↔ first.length ≤ second.length := by
  constructor
  · exact IsSuffix.length_le
  · exact suffix_of_suffix_length_le one two

theorem index_eq_some {text part : Str} {i : Nat} (found : index text part = some i) :
    ∃ front rest, text = front ++ (part ++ rest) ∧ front.length = i := by
  have inside := mem_range.mp (mem_of_find?_eq_some found)
  have starts := find?_some (p := fun i => part.isPrefixOf (text.drop i)) found
  obtain ⟨rest, here⟩ := isPrefixOf_iff_prefix.mp starts
  refine ⟨text.take i, rest, ?_, length_take_of_le (Nat.le_of_lt_succ inside)⟩
  rw [here, take_append_drop]

theorem indexByte_eq_some {text : Str} {b : UInt8} {i : Nat} (found : indexByte text b = some i) :
    ∃ front rest, text = front ++ b :: rest ∧ front.length = i ∧ b ∉ front := by
  obtain ⟨inside, here, before⟩ := findIdx?_eq_some_iff_getElem.mp found
  refine ⟨text.take i, text.drop (i + 1), ?_, length_take_of_le (Nat.le_of_lt inside), ?_⟩
  · rw [← beq_iff_eq.mp here, ← drop_eq_getElem_cons inside, take_append_drop]
  · intro mem
    obtain ⟨j, short, same⟩ := mem_take_iff_getElem.mp mem
    have differs := before j (Nat.lt_of_lt_of_le short (Nat.min_le_left _ _))
    exact differs (beq_iff_eq.mpr same)

end Str

end FastGoZero.Lib
