import FastGoZero.Sqlx.Format

/-!
# Arguments that stay one literal

An SQL literal is a number, a keyword, or a quoted text that nothing inside it ends. Which
arguments are written as one literal depends on their type: what is not a string, a time or a
number brings its own text into the statement.
-/

namespace FastGoZero.Sqlx

open Lib Lang List

/-- The body of a quoted text: no quote in it is without a backslash, and the last backslash
is not left for the closing quote. -/
def unbroken : Str → Bool
  | [] => true
  | cur :: rest =>
    if cur = backslash then
      match rest with
      | [] => false
      | _ :: rest => unbroken rest
    else cur ≠ quote && unbroken rest

def isQuoted : Str → Bool
  | [] => false
  | first :: rest => first == quote && rest.getLast? == some quote && unbroken rest.dropLast

variable (text : Str)

/-- Digits, then maybe a point and digits. -/
def isUnsigned : Bool :=
  text.takeWhile isDigit ≠ [] &&
    match text.dropWhile isDigit with
    | [] => true
    | point :: fraction => point == 46 && fraction ≠ [] && fraction.all isDigit

def isNumber : Str → Bool
  | [] => false
  | first :: rest => if first = 45 then isUnsigned rest else isUnsigned (first :: rest)

def isKeyword : Bool :=
  let lower := text.map fun b => if 65 ≤ b && b ≤ 90 then b + 32 else b
  lower == Str.bytes "true" || lower == Str.bytes "false" ||
    lower == Str.bytes "null"

/-- The text is one SQL literal. -/
def isLiteral : Bool := isNumber text || isKeyword text || isQuoted text

def returnsLiteral : Except Panic Str → Bool
  | .ok text => isLiteral text
  | .error _ => false

def isFinite : GoFloat → Bool
  | .finite _ _ _ => true
  | _ => false

/-- The value at which pointers end, if it prints as a literal. -/
def printsLiteral : GoValue → Bool
  | .bool _ | .int _ | .uint _ => true
  | .float f => isFinite f
  | .string s | .bytes s => isLiteral s
  | value => returnsLiteral value.printing.text

/-- A boolean, a string, a number; a time without a quote in the name of its zone; and of the
other types what happens to print as a literal. -/
def isSafe : GoValue → Bool
  | .nil => false
  | .bool _ => true
  | .string _ => true
  | .time text | .pointer _ (.time text) => unbroken text
  | .nilTime => false
  | value =>
    match value.printing.string with
    | some text => returnsLiteral text
    | none => printsLiteral value.elem.dynamic

theorem unbroken_plain {cur : UInt8} (plain : cur ≠ backslash) (rest : Str) :
    unbroken (cur :: rest) = (cur ≠ quote && unbroken rest) := by
  rw [unbroken.eq_def]
  simp only [plain, ↓reduceIte]

theorem unbroken_escaped (next : UInt8) (rest : Str) :
    unbroken (backslash :: next :: rest) = unbroken rest := by
  rw [unbroken.eq_def]
  simp only [↓reduceIte]

theorem unbroken_append {text : Str} (rest : Str) (plain : ∀ b ∈ text, b ≠ backslash ∧ b ≠ quote) :
    unbroken (text ++ rest) = unbroken rest := by
  induction text with
  | nil => rfl
  | cons b text ih =>
    rw [forall_mem_cons] at plain
    rw [cons_append, unbroken_plain plain.1.1, ih plain.2]
    simp [plain.1.2]

theorem encodeRune_plain {ch : Nat} (noBackslash : ch ≠ 0x5C) (noQuote : ch ≠ 0x27) :
    ∀ b ∈ Utf8.encodeRune ch, b ≠ backslash ∧ b ≠ quote := by
  by_cases ascii : ch < 0x80
  · rw [Utf8.encodeRune, if_pos ascii, forall_mem_singleton, Ne, Ne, ← UInt8.toNat_inj,
      ← UInt8.toNat_inj, UInt8.toNat_ofNat', Nat.mod_eq_of_lt (by omega)]
    exact ⟨noBackslash, noQuote⟩
  · intro b mem
    have large := Utf8.le_encodeRune (Nat.not_lt.mp ascii) b mem
    constructor
    · rintro rfl
      exact absurd large (by decide)
    · rintro rfl
      exact absurd large (by decide)

/-- What is written for a rune leaves the quoted text open: two bytes that begin with a
backslash, then maybe more, or the bytes of a rune that is none of the special ones. -/
theorem unbroken_escapeRune (ch : Nat) (rest : Str) :
    unbroken (escapeRune ch ++ rest) = unbroken rest := by
  have pair : ∀ (next : UInt8) (more : Str), (∀ b ∈ more, b ≠ backslash ∧ b ≠ quote) →
      unbroken ((backslash :: next :: more) ++ rest) = unbroken rest := by
    intro next more plain
    rw [cons_append, cons_append, unbroken_escaped, unbroken_append rest plain]
  rw [escapeRune]
  split
  · exact pair 120 [48, 48] (by simp; decide)
  split
  · exact pair 114 [] (by simp)
  split
  · exact pair 110 [] (by simp)
  split
  · exact pair 92 [] (by simp)
  split
  · exact pair 39 [] (by simp)
  split
  · exact pair 34 [] (by simp)
  split
  · exact pair 120 [49, 97] (by simp; decide)
  apply unbroken_append
  exact encodeRune_plain (by assumption) (by assumption)

theorem unbroken_escape (input : Str) : unbroken (escape input) = true := by
  have written : ∀ chs : List Nat, unbroken (chs.flatMap escapeRune) = true := by
    intro chs
    induction chs with
    | nil => rfl
    | cons ch chs ih =>
      rwa [flatMap_cons, unbroken_escapeRune]
  exact written _

/-- A text in quotes is a literal exactly if nothing in it ends it. -/
theorem isLiteral_quoted : isLiteral (quoted text) = unbroken text := by
  have shape : quoted text = quote :: (text ++ [quote]) := rfl
  have noNumber : isNumber (quoted text) = false := by
    rw [shape]
    rfl
  have noKeyword : isKeyword (quoted text) = false := by
    rw [shape, isKeyword, map_cons]
    simp [Str.bytes, quote]
  have isQuote : isQuoted (quoted text) = unbroken text := by
    rw [shape, isQuoted]
    simp
  rw [isLiteral, noNumber, noKeyword, isQuote]
  rfl

theorem digits_ne_nil (n : Nat) : digits n ≠ [] := by
  rw [digits, Ne, map_eq_nil_iff]
  exact Nat.toDigits_ne_nil

theorem isDigit_digits (n : Nat) : ∀ b ∈ digits n, isDigit b = true := by
  intro b mem
  obtain ⟨c, inside, rfl⟩ := mem_map.mp mem
  have digit := Nat.isDigit_of_mem_toDigits (by decide) (by decide) inside
  simp only [Char.isDigit, Bool.and_eq_true, decide_eq_true_eq, ge_iff_le,
    UInt32.le_iff_toNat_le] at digit
  have small : c.toNat ≤ 57 := digit.2
  have large : 48 ≤ c.toNat := digit.1
  simp only [isDigit, Bool.and_eq_true, decide_eq_true_eq, UInt8.le_iff_toNat_le,
    UInt8.toNat_ofNat', Nat.mod_eq_of_lt (by omega : c.toNat < 2 ^ 8)]
  exact ⟨large, small⟩

theorem isUnsigned_digits (n : Nat) (rest : Str)
    (after : rest = [] ∨ ∃ fraction, rest = 46 :: fraction ∧ fraction ≠ [] ∧
      ∀ b ∈ fraction, isDigit b = true) : isUnsigned (digits n ++ rest) = true := by
  rw [isUnsigned, takeWhile_append_of_pos (isDigit_digits n),
    dropWhile_append_of_pos (isDigit_digits n)]
  rcases after with rfl | ⟨fraction, rfl, nonempty, plain⟩
  · simp [digits_ne_nil]
  · have stops : (46 :: fraction).dropWhile isDigit = 46 :: fraction := rfl
    rw [stops]
    simpa [digits_ne_nil, nonempty] using plain

theorem isNumber_unsigned {text : Str} (unsigned : isUnsigned text = true) :
    isNumber text = true := by
  cases text with
  | nil => exact absurd unsigned (by decide)
  | cons first rest =>
    rw [isNumber]
    by_cases minus : first = 45
    · rw [minus] at unsigned
      exact absurd unsigned (by simp [isUnsigned, isDigit])
    · rwa [if_neg minus]

theorem isLiteral_formatInt (i : Int) : isLiteral (formatInt i) = true := by
  have number : isNumber (formatInt i) = true := by
    cases i with
    | ofNat n =>
      have unsigned := isUnsigned_digits n [] (Or.inl rfl)
      rw [append_nil] at unsigned
      exact isNumber_unsigned unsigned
    | negSucc n =>
      have unsigned := isUnsigned_digits (n + 1) [] (Or.inl rfl)
      rwa [append_nil] at unsigned
  rw [isLiteral, number]
  rfl

theorem isLiteral_formatFloat (f : GoFloat) : isLiteral (formatFloat f) = isFinite f := by
  cases f with
  | nan => decide
  | infinite negative => cases negative <;> decide
  | finite negative whole fraction =>
    let tail : Str :=
      if fraction = [] then [] else Str.bytes "." ++ fraction.flatMap fun d => digits d
    have after : tail = [] ∨ ∃ part, tail = 46 :: part ∧ part ≠ [] ∧
        ∀ b ∈ part, isDigit b = true := by
      cases fraction with
      | nil => exact Or.inl rfl
      | cons d ds =>
        refine Or.inr ⟨(d :: ds).flatMap fun d => digits d, rfl, ?_, ?_⟩
        · simp [digits_ne_nil]
        · intro b mem
          obtain ⟨d, _, inside⟩ := mem_flatMap.mp mem
          exact isDigit_digits d b inside
    have unsigned := isUnsigned_digits whole tail after
    have number : isNumber (formatFloat (.finite negative whole fraction)) = true := by
      cases negative with
      | false => exact isNumber_unsigned unsigned
      | true => exact unsigned
    rw [isLiteral, number]
    rfl

theorem isLiteral_formatBool (b : Bool) : isLiteral (formatBool b) = true := by
  cases b <;> decide

theorem returnsLiteral_iff (result : Except Panic Str) :
    (∃ text, result = .ok text ∧ isLiteral text = true) ↔ returnsLiteral result = true := by
  cases result with
  | error panic | ok text => simp [returnsLiteral]

variable (value : GoValue)

theorem returnsLiteral_reprOf : returnsLiteral value.reprOf = printsLiteral value := by
  cases value with
  | bool b => exact isLiteral_formatBool b
  | int i | uint i => exact isLiteral_formatInt i
  | float f => exact isLiteral_formatFloat f
  | string s | bytes s | nil | time text | nilTime | nilPointer printing | pointer printing elem
  | interface content | other printing => rfl

/-- What `Repr` returns: the text of the method `String`, or that of the value behind. -/
theorem returnsLiteral_repr (present : value ≠ .nil) :
    returnsLiteral value.repr =
      match value.printing.string with
      | some text => returnsLiteral text
      | none => printsLiteral value.elem.dynamic := by
  have shape : value.repr = match value.printing.string with
      | some text => text
      | none => value.elem.dynamic.reprOf := by
    cases value <;> first | rfl | exact absurd rfl present
  rw [shape]
  cases value.printing.string with
  | some text => rfl
  | none => exact returnsLiteral_reprOf _

theorem returnsLiteral_writeValue : returnsLiteral (writeValue value) = isSafe value := by
  cases value with
  | nil => decide
  | bool b => cases b <;> decide
  | string s => exact (isLiteral_quoted _).trans (unbroken_escape s)
  | time text => exact isLiteral_quoted text
  | nilTime => rfl
  | pointer printing elem =>
    cases elem with
    | time text => exact isLiteral_quoted text
    | _ => exact returnsLiteral_repr (.pointer printing _) (by simp)
  | int i => exact returnsLiteral_repr (.int i) (by simp)
  | uint n => exact returnsLiteral_repr (.uint n) (by simp)
  | float f => exact returnsLiteral_repr (.float f) (by simp)
  | bytes s => exact returnsLiteral_repr (.bytes s) (by simp)
  | nilPointer printing => exact returnsLiteral_repr (.nilPointer printing) (by simp)
  | interface content => exact returnsLiteral_repr (.interface content) (by simp)
  | other printing => exact returnsLiteral_repr (.other printing) (by simp)

/-- An argument is written as one literal exactly if it is safe. -/
theorem writeValue_literal_iff (value : GoValue) :
    (∃ text, writeValue value = .ok text ∧ isLiteral text = true) ↔ isSafe value = true := by
  rw [returnsLiteral_iff, returnsLiteral_writeValue]

/-- Bytes and what a pointer leads to are written as they are, and a time is not escaped. -/
theorem writeValue_injects :
    let text := Str.bytes "1 OR 1=1"
    let zone := Str.bytes "2009-11-10 23:00:00 +0000 ' OR '1'='1"
    (∃ written, writeValue (.bytes text) = .ok written ∧ isLiteral written = false) ∧
      (∃ written, writeValue (.pointer { sprint := [] } (.string text)) = .ok written ∧
        isLiteral written = false) ∧
      ∃ written, writeValue (.time zone) = .ok written ∧ isLiteral written = false := by
  intro text zone
  refine ⟨⟨text, rfl, ?_⟩, ⟨text, rfl, ?_⟩, quoted zone, rfl, ?_⟩
  · decide +kernel
  · decide +kernel
  · decide +kernel

end FastGoZero.Sqlx
