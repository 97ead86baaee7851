import FastGoZero.Lib.GoString
import Mathlib.Data.List.DropRight

/-!
# UTF-8

A Go program that ranges over a string sees runes. Bytes that are not UTF-8 are seen one by
one, each as the replacement character.
-/

namespace FastGoZero.Lib.Utf8

/-- The replacement character. -/
def runeError : Nat := 0xFFFD

def isContinuation (b : UInt8) : Bool := 0x80 ≤ b && b ≤ 0xBF

/-- The bytes that may follow the first byte of three. -/
def secondOfThree (first b : UInt8) : Bool :=
  (if first = 0xE0 then 0xA0 else 0x80) ≤ b && b ≤ (if first = 0xED then 0x9F else 0xBF)

/-- The bytes that may follow the first byte of four. -/
def secondOfFour (first b : UInt8) : Bool :=
  (if first = 0xF0 then 0x90 else 0x80) ≤ b && b ≤ (if first = 0xF4 then 0x8F else 0xBF)

/-- The rune at the front of a string, with the number of bytes that it takes after the
first. -/
def decodeRune (first : UInt8) (rest : Str) : Nat × Nat :=
  if first < 0x80 then (first.toNat, 0)
  else if 0xC2 ≤ first && first ≤ 0xDF then
    match rest with
    | b :: _ =>
      if isContinuation b then (first.toNat % 32 * 64 + b.toNat % 64, 1) else (runeError, 0)
    | [] => (runeError, 0)
  else if 0xE0 ≤ first && first ≤ 0xEF then
    match rest with
    | b :: c :: _ =>
      if secondOfThree first b && isContinuation c then
        ((first.toNat % 16 * 64 + b.toNat % 64) * 64 + c.toNat % 64, 2)
      else (runeError, 0)
    | _ => (runeError, 0)
  else if 0xF0 ≤ first && first ≤ 0xF4 then
    match rest with
    | b :: c :: d :: _ =>
      if secondOfFour first b && isContinuation c && isContinuation d then
        (((first.toNat % 8 * 64 + b.toNat % 64) * 64 + c.toNat % 64) * 64 + d.toNat % 64, 3)
      else (runeError, 0)
    | _ => (runeError, 0)
  else (runeError, 0)

/-- The runes of a string, as `range` gives them. -/
def runesFrom : Nat → Str → List Nat
  | 0, _ => []
  | _, [] => []
  | fuel + 1, first :: rest =>
    (decodeRune first rest).1 :: runesFrom fuel (rest.drop (decodeRune first rest).2)

def runes (text : Str) : List Nat := runesFrom text.length text

theorem runes_ne_nil {text : Str} (nonempty : text ≠ []) : runes text ≠ [] := by
  obtain ⟨first, rest, rfl⟩ := List.exists_cons_of_ne_nil nonempty
  simp [runes, runesFrom]

/-- The runes of a string with the bytes that they are decoded from. -/
def chunksFrom : Nat → Str → List (Nat × Str)
  | 0, _ => []
  | _, [] => []
  | fuel + 1, first :: rest =>
    ((decodeRune first rest).1, first :: rest.take (decodeRune first rest).2) ::
      chunksFrom fuel (rest.drop (decodeRune first rest).2)

def chunks (text : Str) : List (Nat × Str) := chunksFrom text.length text

/-- `strings.TrimLeftFunc`. -/
def trimLeft (drop : Nat → Bool) (text : Str) : Str :=
  ((chunks text).dropWhile fun chunk => drop chunk.1).flatMap Prod.snd

/-- `strings.TrimRightFunc`. -/
def trimRight (drop : Nat → Bool) (text : Str) : Str :=
  ((chunks text).rdropWhile fun chunk => drop chunk.1).flatMap Prod.snd

/-- `unicode.IsSpace`. -/
def isSpace (r : Nat) : Bool :=
  (9 ≤ r && r ≤ 13) || r == 32 || r == 0x85 || r == 0xA0 || r == 0x1680 ||
    (0x2000 ≤ r && r ≤ 0x200A) || r == 0x2028 || r == 0x2029 || r == 0x202F || r == 0x205F ||
    r == 0x3000

/-- `strings.TrimSpace`. -/
def trimSpace (text : Str) : Str := trimRight isSpace (trimLeft isSpace text)

/-- The bytes of a rune. Surrogates and what is too large become the replacement character. -/
def encodeRune (r : Nat) : Str :=
  if r < 0x80 then [UInt8.ofNat r]
  else if r < 0x800 then [UInt8.ofNat (0xC0 + r / 64), UInt8.ofNat (0x80 + r % 64)]
  else if (0xD800 ≤ r ∧ r ≤ 0xDFFF) ∨ 0x10FFFF < r then [0xEF, 0xBF, 0xBD]
  else if r < 0x10000 then
    [UInt8.ofNat (0xE0 + r / 4096), UInt8.ofNat (0x80 + r / 64 % 64), UInt8.ofNat (0x80 + r % 64)]
  else
    [UInt8.ofNat (0xF0 + r / 262144), UInt8.ofNat (0x80 + r / 4096 % 64),
      UInt8.ofNat (0x80 + r / 64 % 64), UInt8.ofNat (0x80 + r % 64)]

/-- The bytes of a rune beyond ASCII are beyond ASCII. -/
theorem le_encodeRune {r : Nat} (beyond : 0x80 ≤ r) : ∀ b ∈ encodeRune r, 0x80 ≤ b.toNat := by
  rw [encodeRune, if_neg (Nat.not_lt.mpr beyond)]
  split
  · simp only [List.forall_mem_cons, UInt8.toNat_ofNat']
    refine ⟨by omega, by omega, by simp⟩
  split
  · simp
  split
  · simp only [List.forall_mem_cons, UInt8.toNat_ofNat']
    refine ⟨by omega, by omega, by omega, by simp⟩
  · simp only [List.forall_mem_cons, UInt8.toNat_ofNat']
    refine ⟨by omega, by omega, by omega, by omega, by simp⟩

end FastGoZero.Lib.Utf8
