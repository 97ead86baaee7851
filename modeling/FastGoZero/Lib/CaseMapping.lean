import FastGoZero.Lib.Utf8Text
import Mathlib.Data.List.Forall2

/-!
# Lower case

`strings.ToLower` maps a string rune by rune. A letter beyond ASCII may have a lower-case form of
another length, and a byte that belongs to no rune is replaced by three bytes, so that places in the
lower-case copy are in general not the places of the string. They are if every rune keeps its
length; then the bytes of ASCII stand in the copy where they stand in the string.
-/

namespace FastGoZero.Lib

open List

/-- Upper-case letters of ASCII become lower-case ones. -/
def asciiLower (b : UInt8) : UInt8 := if 65 ≤ b ∧ b ≤ 90 then b + 32 else b

/-- What is known of `unicode.ToLower`: how it maps ASCII, and that the only letters of ASCII that
others are mapped to are `i` and `k`. -/
structure CaseMapping where
  lower : Nat → Nat
  ascii : ∀ r < 0x80, lower r = if 65 ≤ r ∧ r ≤ 90 then r + 32 else r
  beyond : ∀ r, 0x80 ≤ r → lower r < 0x80 → lower r = 105 ∨ lower r = 107

variable (mapping : CaseMapping) (text : Str)

/-- `strings.ToLower`. -/
def CaseMapping.toLower : Str :=
  (Utf8.runes text).flatMap fun r => Utf8.encodeRune (mapping.lower r)

def CaseMapping.asciiOnly : CaseMapping where
  lower r := if 65 ≤ r ∧ r ≤ 90 then r + 32 else r
  ascii _ _ := rfl
  beyond r high low := by
    rw [if_neg (by omega)] at low
    omega

/-- Every rune has a lower-case form of as many bytes. -/
def CaseMapping.Keeps : Prop :=
  ∀ chunk ∈ Utf8.chunks text, (Utf8.encodeRune (mapping.lower chunk.1)).length = chunk.2.length

namespace Utf8

theorem map_chunksFrom (fuel : Nat) (text : Str) :
    (chunksFrom fuel text).map Prod.fst = runesFrom fuel text := by
  fun_induction chunksFrom fuel text with
  | case1 => rfl
  | case2 fuel more => rw [runesFrom.eq_2 fuel more]; rfl
  | case3 fuel first rest ih =>
    rw [map_cons, ih, runesFrom]

theorem flatMap_chunksFrom (fuel : Nat) (text : Str) (enough : text.length ≤ fuel) :
    (chunksFrom fuel text).flatMap Prod.snd = text := by
  fun_induction chunksFrom fuel text with
  | case1 text =>
    obtain rfl := eq_nil_of_length_eq_zero (Nat.le_zero.mp enough)
    rfl
  | case2 => rfl
  | case3 fuel first rest ih =>
    have shorter := (drop_suffix (decodeRune first rest).2 rest).length_le
    rw [length_cons] at enough
    rw [flatMap_cons, ih (by omega), cons_append, take_append_drop]

theorem map_chunks : (chunks text).map Prod.fst = runes text :=
  map_chunksFrom text.length text

theorem flatMap_chunks : (chunks text).flatMap Prod.snd = text :=
  flatMap_chunksFrom text.length text (Nat.le_refl _)

variable {b first : UInt8} {chunk : Nat × Str}

theorem le_of_isContinuation (continues : isContinuation b = true) : 0x80 ≤ b.toNat := by
  rw [isContinuation, Bool.and_eq_true, decide_eq_true_eq, UInt8.le_iff_toNat_le] at continues
  exact continues.1

/-- The second byte of a rune, where the first one raises its lower bound or lowers its upper one. -/
theorem bounds_of_second {lead other low high : UInt8} (within : 0x80 ≤ low ∧ high ≤ 0xBF)
    (follows : (decide ((if first = lead then low else 0x80) ≤ b) &&
      decide (b ≤ if first = other then high else 0xBF)) = true) :
    0x80 ≤ b.toNat ∧ b.toNat ≤ 0xBF ∧ (first.toNat = lead.toNat → low.toNat ≤ b.toNat) := by
  simp only [Bool.and_eq_true, decide_eq_true_eq, UInt8.le_iff_toNat_le] at follows within
  obtain ⟨above, below⟩ := follows
  refine ⟨?_, ?_, fun same => ?_⟩
  · refine Nat.le_trans ?_ above
    split
    · exact within.1
    · exact Nat.le_refl _
  · refine Nat.le_trans below ?_
    split
    · exact within.2
    · exact Nat.le_refl _
  · rwa [if_pos (UInt8.toNat_inj.mp same)] at above

theorem decodeRune_ascii (ascii : first.toNat < 0x80) (rest : Str) :
    decodeRune first rest = (first.toNat, 0) := by
  rw [decodeRune.eq_def, if_pos (UInt8.lt_iff_toNat_lt.mpr ascii)]

/-- A rune that does not begin in ASCII is beyond it, with all its bytes. -/
theorem decodeRune_beyond (beyond : 0x80 ≤ first.toNat) (rest : Str) :
    0x80 ≤ (decodeRune first rest).1 ∧
      ∀ b ∈ rest.take (decodeRune first rest).2, 0x80 ≤ b.toNat := by
  fun_cases decodeRune first rest with
  | case1 _ ascii => exact absurd (UInt8.lt_iff_toNat_lt.mp ascii) (Nat.not_lt.mpr beyond)
  | case2 _ two b tail continues =>
    simp only [Bool.and_eq_true, decide_eq_true_eq, UInt8.le_iff_toNat_le] at two
    have range : 0xC2 ≤ first.toNat ∧ first.toNat ≤ 0xDF := two
    refine ⟨by simp only; omega, ?_⟩
    simpa using le_of_isContinuation continues
  | case5 _ _ three b c tail follows =>
    simp only [Bool.and_eq_true, decide_eq_true_eq, UInt8.le_iff_toNat_le] at three
    have range : 0xE0 ≤ first.toNat ∧ first.toNat ≤ 0xEF := three
    rw [Bool.and_eq_true] at follows
    obtain ⟨low, high, notOverlong⟩ := bounds_of_second (by decide) follows.1
    have isLead : first.toNat = 0xE0 → 0xA0 ≤ b.toNat := notOverlong
    refine ⟨by simp only; omega, ?_⟩
    simpa using ⟨low, le_of_isContinuation follows.2⟩
  | case8 _ _ _ four b c d tail follows =>
    simp only [Bool.and_eq_true, decide_eq_true_eq, UInt8.le_iff_toNat_le] at four
    have range : 0xF0 ≤ first.toNat ∧ first.toNat ≤ 0xF4 := four
    rw [Bool.and_eq_true, Bool.and_eq_true] at follows
    obtain ⟨low, high, notOverlong⟩ := bounds_of_second (by decide) follows.1.1
    have isLead : first.toNat = 0xF0 → 0x90 ≤ b.toNat := notOverlong
    refine ⟨by simp only; omega, ?_⟩
    simpa using ⟨low, le_of_isContinuation follows.1.2, le_of_isContinuation follows.2⟩
  | _ => simp [runeError]

/-- A rune of ASCII is its one byte, another one has no byte of ASCII. -/
theorem chunk_cases {text : Str} (member : chunk ∈ chunks text) :
    (chunk.1 < 0x80 ∧ chunk.2 = [UInt8.ofNat chunk.1]) ∨
      (0x80 ≤ chunk.1 ∧ ∀ b ∈ chunk.2, 0x80 ≤ b.toNat) := by
  rw [chunks] at member
  generalize text.length = fuel at member
  fun_induction chunksFrom fuel text with
  | case1 | case2 => cases member
  | case3 fuel first rest ih =>
    rcases mem_cons.mp member with rfl | later
    · by_cases ascii : first.toNat < 0x80
      · refine Or.inl ?_
        simp [decodeRune_ascii ascii, ascii]
      · obtain ⟨large, others⟩ := decodeRune_beyond (Nat.not_lt.mp ascii) rest
        exact Or.inr ⟨large, forall_mem_cons.mpr ⟨Nat.not_lt.mp ascii, others⟩⟩
    · exact ih later

theorem eq_of_mem_chunk {text : Str} (member : chunk ∈ chunks text) (ascii : b.toNat < 0x80)
    (inside : b ∈ chunk.2) : chunk.1 = b.toNat := by
  rcases chunk_cases member with ⟨small, bytes⟩ | ⟨-, bytes⟩
  · rw [bytes, mem_singleton] at inside
    rw [inside, UInt8.toNat_ofNat', Nat.mod_eq_of_lt (by omega)]
  · exact absurd (bytes b inside) (Nat.not_le.mpr ascii)

section

variable {drop : Nat → Bool} {b : UInt8}

/-- What is dropped has none of the bytes of ASCII that are kept. -/
theorem count_kept (ascii : b.toNat < 0x80) (stays : drop b.toNat = false) {text : Str}
    {kept dropped : List (Nat × Str)} (parts : (chunks text).Perm (kept ++ dropped))
    (spaces : ∀ chunk ∈ dropped, drop chunk.1 = true) :
    (kept.flatMap Prod.snd).count b = text.count b := by
  have none : (dropped.flatMap Prod.snd).count b = 0 := by
    rw [count_eq_zero]
    intro member
    obtain ⟨chunk, isDropped, holds⟩ := mem_flatMap.mp member
    have inside := parts.mem_iff.mpr (mem_append_right kept isDropped)
    have isSpace := spaces chunk isDropped
    rw [eq_of_mem_chunk inside ascii holds, stays] at isSpace
    cases isSpace
  calc (kept.flatMap Prod.snd).count b
      = ((kept ++ dropped).flatMap Prod.snd).count b := by
        rw [flatMap_append, count_append, none, Nat.add_zero]
    _ = text.count b := by rw [← (parts.flatMap_right Prod.snd).count_eq, flatMap_chunks]

theorem count_trimLeft (ascii : b.toNat < 0x80) (stays : drop b.toNat = false) (text : Str) :
    (trimLeft drop text).count b = text.count b := by
  refine count_kept ascii stays (Perm.symm ?_) fun _ => mem_takeWhile_imp (l := chunks text)
  exact perm_append_comm.trans (.of_eq takeWhile_append_dropWhile)

theorem count_trimRight (ascii : b.toNat < 0x80) (stays : drop b.toNat = false) (text : Str) :
    (trimRight drop text).count b = text.count b := by
  exact count_kept ascii stays (.of_eq rdropWhile_append_rtakeWhile.symm)
    fun _ => mem_rtakeWhile_imp

end

/-- Trimming keeps every byte of ASCII that is not a space. -/
theorem count_trimSpace {b : UInt8} (ascii : b.toNat < 0x80) (kept : isSpace b.toNat = false)
    (text : Str) : (trimSpace text).count b = text.count b := by
  rw [trimSpace, count_trimRight ascii kept, count_trimLeft ascii kept]

end Utf8

/-- What stands in the lower-case copy in the place of a byte. -/
def SameByte (b lower : UInt8) : Prop :=
  (b.toNat < 0x80 ∧ lower = asciiLower b) ∨
    (0x80 ≤ b.toNat ∧ (0x80 ≤ lower.toNat ∨ lower = 105 ∨ lower = 107))

namespace CaseMapping

theorem encodeRune_lower_ascii {r : Nat} (ascii : r < 0x80) :
    Utf8.encodeRune (mapping.lower r) = [asciiLower (UInt8.ofNat r)] := by
  have table : ∀ r < 0x80, Utf8.encodeRune (if 65 ≤ r ∧ r ≤ 90 then r + 32 else r) =
      [asciiLower (UInt8.ofNat r)] := by
    decide
  rw [mapping.ascii r ascii]
  exact table r ascii

theorem encodeRune_lower_beyond {r : Nat} (beyond : 0x80 ≤ r) :
    ∀ b ∈ Utf8.encodeRune (mapping.lower r), 0x80 ≤ b.toNat ∨ b = 105 ∨ b = 107 := by
  intro b member
  by_cases ascii : mapping.lower r < 0x80
  · rw [Utf8.encodeRune, if_pos ascii, mem_singleton] at member
    rcases mapping.beyond r beyond ascii with letter | letter
    · exact Or.inr (Or.inl (by rw [member, letter]; rfl))
    · exact Or.inr (Or.inr (by rw [member, letter]; rfl))
  · exact Or.inl (Utf8.le_encodeRune (Nat.not_lt.mp ascii) b member)

/-- If every rune keeps its length, so does every place. -/
theorem Keeps.forall₂ {mapping : CaseMapping} {text : Str} (keeps : mapping.Keeps text) :
    List.Forall₂ SameByte text (mapping.toLower text) := by
  have each : ∀ chunk ∈ Utf8.chunks text,
      List.Forall₂ SameByte chunk.2 (Utf8.encodeRune (mapping.lower chunk.1)) := by
    intro chunk member
    rcases Utf8.chunk_cases member with ⟨ascii, bytes⟩ | ⟨beyond, bytes⟩
    · rw [bytes, encodeRune_lower_ascii mapping ascii]
      refine List.Forall₂.cons (Or.inl ⟨?_, rfl⟩) .nil
      rwa [UInt8.toNat_ofNat', Nat.mod_eq_of_lt (by omega)]
    · refine forall₂_iff_zip.mpr ⟨(keeps chunk member).symm, ?_⟩
      intro b lower pair
      obtain ⟨source, copy⟩ := of_mem_zip pair
      exact Or.inr ⟨bytes b source, encodeRune_lower_beyond mapping beyond lower copy⟩
  have all : ∀ cs : List (Nat × Str), (∀ chunk ∈ cs,
      List.Forall₂ SameByte chunk.2 (Utf8.encodeRune (mapping.lower chunk.1))) →
      List.Forall₂ SameByte (cs.flatMap Prod.snd)
        (cs.flatMap fun chunk => Utf8.encodeRune (mapping.lower chunk.1)) := by
    intro cs
    induction cs with
    | nil => exact fun _ => .nil
    | cons chunk cs ih =>
      intro related
      rw [forall_mem_cons] at related
      exact rel_append related.1 (ih related.2)
  have related := all (Utf8.chunks text) each
  rw [Utf8.flatMap_chunks] at related
  rwa [toLower, ← Utf8.map_chunks, flatMap_map]

end CaseMapping

end FastGoZero.Lib
