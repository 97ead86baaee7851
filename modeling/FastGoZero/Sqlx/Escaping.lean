import FastGoZero.Sqlx.Literals
import FastGoZero.Lib.Utf8Text

/-!
# Escaped strings

`escape` writes a string rune by rune, and the loop of `format` over a quoted part reads it byte by
byte. What is written for a rune never ends the quoted part, for a single and for a double quote.
The codes of two runes never begin with each other, so that a valid string can be read back.
-/

namespace FastGoZero.Sqlx

open Lib List
open Lib.Str (bytes)

/-- The runes that are written with a backslash. -/
def specialRunes : List Nat := [0x00, 0x0D, 0x0A, 0x5C, 0x27, 0x22, 0x1A]

variable {ch : Nat} {q : UInt8}

theorem escapeRune_plain (plain : ch ∉ specialRunes) : escapeRune ch = Utf8.encodeRune ch := by
  simp only [specialRunes, mem_cons, not_mem_nil, or_false, not_or] at plain
  obtain ⟨zero, ret, newline, slash, single, double, substitute⟩ := plain
  rw [escapeRune, if_neg zero, if_neg ret, if_neg newline, if_neg slash, if_neg single,
    if_neg double, if_neg substitute]

/-- A special rune is written as a backslash, a byte, and bytes that mean nothing to the scan. -/
theorem escapeRune_special (special : ch ∈ specialRunes) :
    ∃ next more, escapeRune ch = backslash :: next :: more ∧
      ∀ b ∈ more, b ≠ backslash ∧ b ≠ quote ∧ b ≠ doubleQuote := by
  simp only [specialRunes, mem_cons, not_mem_nil, or_false] at special
  rcases special with rfl | rfl | rfl | rfl | rfl | rfl | rfl
  · exact ⟨120, [48, 48], rfl, by simp; decide⟩
  · exact ⟨114, [], rfl, by simp⟩
  · exact ⟨110, [], rfl, by simp⟩
  · exact ⟨92, [], rfl, by simp⟩
  · exact ⟨39, [], rfl, by simp⟩
  · exact ⟨34, [], rfl, by simp⟩
  · exact ⟨120, [49, 97], rfl, by simp; decide⟩

/-- A byte of ASCII stands in the encoding of its own rune only. -/
theorem not_mem_encodeRune {b : UInt8} (ascii : b.toNat < 0x80)
    (differs : ch ≠ b.toNat) : b ∉ Utf8.encodeRune ch := by
  intro mem
  by_cases small : ch < 0x80
  · rw [Utf8.encodeRune, if_pos small, mem_singleton] at mem
    rw [mem, UInt8.toNat_ofNat', Nat.mod_eq_of_lt (by omega)] at differs
    exact differs rfl
  · exact absurd (Utf8.le_encodeRune (Nat.not_lt.mp small) b mem) (Nat.not_le.mpr ascii)

/-- The scan goes on after the text, and has copied it. -/
def Passes (q : UInt8) (text : Str) : Prop :=
  ∀ rest, scanQuoted q (text ++ rest) =
    (scanQuoted q rest).map fun scanned => (text ++ scanned.1, scanned.2)

theorem Passes.nil (q : UInt8) : Passes q [] := by
  intro rest
  rw [nil_append]
  cases scanQuoted q rest <;> rfl

theorem Passes.append {first second : Str} (passesFirst : Passes q first)
    (passesSecond : Passes q second) : Passes q (first ++ second) := by
  intro rest
  rw [append_assoc, passesFirst, passesSecond]
  cases scanQuoted q rest with
  | error failure => rfl
  | ok scanned => simp [Except.map]

theorem passes_plain {text : Str} (plain : ∀ b ∈ text, b ≠ backslash ∧ b ≠ q) : Passes q text := by
  induction text with
  | nil => exact Passes.nil q
  | cons b text ih =>
    rw [forall_mem_cons] at plain
    have one : Passes q [b] := by
      intro rest
      rw [singleton_append, scanQuoted.eq_def]
      simp only [plain.1.1, plain.1.2, if_false]
      rfl
    exact one.append (ih plain.2)

theorem passes_escaped (q next : UInt8) : Passes q [backslash, next] := by
  intro rest
  rw [cons_append, singleton_append, scanQuoted.eq_def]
  rfl

section

variable (isQuote : q = quote ∨ q = doubleQuote)

include isQuote

theorem passes_escapeRune (ch : Nat) : Passes q (escapeRune ch) := by
  by_cases special : ch ∈ specialRunes
  · obtain ⟨next, more, written, plain⟩ := escapeRune_special special
    rw [written]
    refine (passes_escaped q next).append (passes_plain ?_)
    intro b mem
    obtain ⟨noBackslash, noQuote, noDoubleQuote⟩ := plain b mem
    rcases isQuote with rfl | rfl
    · exact ⟨noBackslash, noQuote⟩
    · exact ⟨noBackslash, noDoubleQuote⟩
  · rw [escapeRune_plain special]
    have outside : ∀ special : UInt8, special.toNat ∈ specialRunes → special.toNat < 0x80 →
        ∀ b ∈ Utf8.encodeRune ch, b ≠ special := by
      rintro code isSpecial ascii b mem rfl
      refine not_mem_encodeRune ascii ?_ mem
      rintro rfl
      exact special isSpecial
    apply passes_plain
    intro b mem
    refine ⟨outside backslash (by decide) (by decide) b mem, ?_⟩
    rcases isQuote with rfl | rfl
    · exact outside quote (by decide) (by decide) b mem
    · exact outside doubleQuote (by decide) (by decide) b mem

theorem passes_escape (input : Str) : Passes q (escape input) := by
  rw [escape]
  induction Utf8.runes input with
  | nil => exact Passes.nil q
  | cons ch chs ih =>
    rw [flatMap_cons]
    exact (passes_escapeRune isQuote ch).append ih

theorem scanQuoted_escape (input following : Str) :
    scanQuoted q (escape input ++ q :: following) = .ok (escape input ++ [q], some following) := by
  have notBackslash : q ≠ backslash := by rcases isQuote with rfl | rfl <;> decide
  have closes : scanQuoted q (q :: following) = .ok ([q], some following) := by
    rw [scanQuoted.eq_def]
    simp only [notBackslash, if_true, if_false]
  rw [passes_escape isQuote input, closes]
  rfl

end

theorem head_escapeRune_plain (plain : ch ∉ specialRunes) (rest tail : Str) :
    escapeRune ch ++ rest ≠ backslash :: tail := by
  intro same
  rw [escapeRune_plain plain] at same
  have notEmpty : Utf8.encodeRune ch ≠ [] := by
    rw [Utf8.encodeRune]
    split_ifs <;> simp
  obtain ⟨first, more, shape⟩ := exists_cons_of_ne_nil notEmpty
  rw [shape, cons_append, cons.injEq] at same
  refine not_mem_encodeRune (b := backslash) (by decide) ?_ (same.1 ▸ shape ▸ mem_cons_self)
  rintro rfl
  exact plain (by decide)

theorem special_codes_differ : ∀ r ∈ specialRunes, ∀ s ∈ specialRunes,
    escapeRune r <+: escapeRune s → r = s := by
  decide

/-- The first rune can be read off an escaped text. -/
theorem escapeRune_append_inj {r s : Nat} (scalarR : Utf8.isScalar r = true)
    (scalarS : Utf8.isScalar s = true) {restR restS : Str}
    (same : escapeRune r ++ restR = escapeRune s ++ restS) : r = s := by
  by_cases specialR : r ∈ specialRunes
  · by_cases specialS : s ∈ specialRunes
    · rcases prefix_or_prefix_of_prefix (prefix_append (escapeRune r) restR)
        (same ▸ prefix_append (escapeRune s) restS) with shorter | longer
      · exact special_codes_differ r specialR s specialS shorter
      · exact (special_codes_differ s specialS r specialR longer).symm
    · obtain ⟨next, more, written, -⟩ := escapeRune_special specialR
      rw [written] at same
      exact absurd same.symm (head_escapeRune_plain specialS _ _)
  · by_cases specialS : s ∈ specialRunes
    · obtain ⟨next, more, written, -⟩ := escapeRune_special specialS
      rw [written] at same
      exact absurd same (head_escapeRune_plain specialR _ _)
    · rw [escapeRune_plain specialR, escapeRune_plain specialS] at same
      obtain ⟨firstR, moreR, encodedR⟩ := Utf8.encoded_of_isScalar scalarR
      obtain ⟨firstS, moreS, encodedS⟩ := Utf8.encoded_of_isScalar scalarS
      rw [encodedR.bytes, encodedS.bytes, cons_append, cons_append, cons.injEq] at same
      have decoded := encodedR.decodes restR
      rw [same.1, same.2, encodedS.decodes restS] at decoded
      exact (congrArg Prod.fst decoded).symm

theorem flatMap_escapeRune_inj {chs others : List Nat} (scalars : ∀ r ∈ chs, Utf8.isScalar r = true)
    (scalarsToo : ∀ r ∈ others, Utf8.isScalar r = true)
    (same : chs.flatMap escapeRune = others.flatMap escapeRune) : chs = others := by
  have written : ∀ r, escapeRune r ≠ [] := by
    intro r
    by_cases special : r ∈ specialRunes
    · obtain ⟨next, more, shape, -⟩ := escapeRune_special special
      simp [shape]
    · rw [escapeRune_plain special, Utf8.encodeRune]
      split_ifs <;> simp
  induction chs generalizing others with
  | nil =>
    cases others with
    | nil => rfl
    | cons s others => simp [written s] at same
  | cons r chs ih =>
    cases others with
    | nil => simp [written r] at same
    | cons s others =>
      rw [forall_mem_cons] at scalars scalarsToo
      rw [flatMap_cons, flatMap_cons] at same
      obtain rfl := escapeRune_append_inj scalars.1 scalarsToo.1 same
      rw [ih scalars.2 scalarsToo.2 (append_cancel_left same)]

/-- A quoted and escaped string ends where it was meant to end, whatever follows, and no two valid
strings are escaped to the same text. -/
theorem escape_keeps_strings_apart :
    (∀ q : UInt8, q = quote ∨ q = doubleQuote → ∀ input following : Str,
      scanQuoted q (escape input ++ q :: following) =
        .ok (escape input ++ [q], some following)) ∧
    ∀ input other : Str, Utf8.Valid input → Utf8.Valid other → escape input = escape other →
      input = other := by
  constructor
  · intro q isQuote input following
    exact scanQuoted_escape isQuote input following
  · intro input other valid validToo same
    have sameRunes := flatMap_escapeRune_inj valid.isScalar validToo.isScalar same
    rw [← valid.encode_runes, sameRunes, validToo.encode_runes]

theorem escape_keeps_quotes_apart :
    scanQuoted quote (escape (bytes "a'\\") ++ quote :: bytes " or 1=1") =
      .ok (bytes "a\\'\\\\'", some (bytes " or 1=1")) ∧
    (escape (bytes "\\n") = escape (bytes "\n") →
      bytes "\\n" = bytes "\n") := by
  constructor
  · exact escape_keeps_strings_apart.1 quote (Or.inl rfl) (bytes "a'\\") (bytes " or 1=1")
  · exact escape_keeps_strings_apart.2 _ _ ⟨[0x5C, 0x6E], by decide, by decide⟩
      ⟨[0x0A], by decide, by decide⟩

end FastGoZero.Sqlx
