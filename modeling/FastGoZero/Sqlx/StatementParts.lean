import FastGoZero.Sqlx.InsertStmt
import FastGoZero.Lib.CaseMapping

/-!
# The parts of an insert statement are parts of the statement

An insert statement should be divided into a text that ends with its keyword, a text without
parentheses, a group in parentheses, and a rest. The places of the parts are found in the
lower-case copy, and the division holds exactly if the statement has at these places what the copy
has. So it does if every rune keeps its length, unless a closing parenthesis precedes the group or
the group has another group inside.
-/

namespace FastGoZero.Sqlx

open Lib
open List hiding beq_eq_decide
open Lib.Str (bytes)

variable (text : Str) {lower : Str}

def cut (low high : Nat) : Str := (text.take high).drop low

/-- The keyword, in upper-case and lower-case letters. -/
def spellsValues : Bool := text.map asciiLower == valuesKeyword

def noParens : Bool := text.all fun b => b != 40 && b != 41

/-- The last byte of the text closes the last of so many open parentheses. -/
def closes : Nat → Str → Bool
  | 0, text => text.isEmpty
  | _ + 1, [] => false
  | n + 1, b :: rest =>
    if b = 40 then closes (n + 2) rest
    else if b = 41 then closes n rest
    else closes (n + 1) rest

/-- A parenthesis that is closed at the end, and not before. -/
def isGroup : Str → Bool
  | [] => false
  | b :: rest => b == 40 && closes 1 rest

structure Divided (stmt : Str) (parts : BulkStmt) : Prop where
  keyword : ∃ front keyword, parts.prefixText = front ++ keyword ∧ spellsValues keyword = true
  group : isGroup parts.valueFormat = true
  whole : ∃ middle rest, stmt = parts.prefixText ++ middle ++ parts.valueFormat ++ rest ∧
    noParens middle = true ∧ Utf8.trimSpace rest = parts.suffix

/-- The parser returns, and what it returns without an error is a division. -/
def Sound (toLower : Str → Str) (stmt : Str) : Prop :=
  ∃ outcome, parseInsertStmt toLower stmt = .ok outcome ∧
    ∀ parts, outcome = .ok parts → Divided stmt parts

/-- The first keyword is at `pos`, the first parenthesis after it opens at `left` and is closed
`right` bytes later. -/
structure Places (lower : Str) (pos left right : Nat) : Prop where
  keyword : Str.index lower valuesKeyword = some pos
  positive : 0 < pos
  range : valuesRange lower pos = some (left, right)

/-- There are placeholders, and as many as columns if columns are given. -/
def Accepted (lower : Str) (pos left right : Nat) : Prop :=
  (Utf8.runes (cut lower left (left + right))).count 63 ≠ 0 ∧
    ¬ (0 < countColumns lower pos ∧
      countColumns lower pos ≠ (Utf8.runes (cut lower left (left + right))).count 63)

/-- The statement does not end before the places of its lower-case copy; and if the copy is
accepted, there are the keyword, a text without parentheses, and a group. -/
def Aligned (lower stmt : Str) : Prop :=
  ∀ pos left right, Places lower pos left right →
    left + right + 1 ≤ stmt.length ∧ (Accepted lower pos left right →
      spellsValues (cut stmt pos (pos + 6)) = true ∧ noParens (cut stmt (pos + 6) left) = true ∧
        isGroup (cut stmt left (left + right + 1)) = true)

/-- The group is the first thing in parentheses, and has none inside. -/
def Plain (lower : Str) : Prop :=
  ∀ pos left right, Places lower pos left right →
    noParens (cut lower (pos + 6) left) = true ∧ 40 ∉ cut lower (left + 1) (left + right)

theorem valuesKeyword_length : valuesKeyword.length = 6 := rfl

theorem Places.split {pos left right : Nat} (places : Places lower pos left right) :
    ∃ front middle inner rest,
      lower = front ++ (valuesKeyword ++ (middle ++ 40 :: (inner ++ 41 :: rest))) ∧
        front.length = pos ∧ pos + 6 + middle.length = left ∧ inner.length + 1 = right ∧
          41 ∉ inner := by
  obtain ⟨found, -, range⟩ := places
  obtain ⟨front, after, rfl, rfl⟩ := Str.index_eq_some found
  -- The keyword has no parenthesis.
  have opening : Str.indexByte (valuesKeyword ++ after) 40 =
      (Str.indexByte after 40).map (· + 6) := by
    rw [Str.indexByte, findIdx?_append]
    rfl
  rw [valuesRange, drop_left, opening] at range
  cases opens : Str.indexByte after 40 with
  | none => simp [opens] at range
  | some distance =>
    obtain ⟨middle, behind, rfl, rfl, -⟩ := Str.indexByte_eq_some opens
    rw [opens] at range
    simp only [Option.map_some] at range
    have place : (front ++ (valuesKeyword ++ (middle ++ 40 :: behind))).drop
        (front.length + (middle.length + 5 + 1)) = 40 :: behind := by
      rw [← append_assoc, ← append_assoc, drop_left']
      simp only [length_append, valuesKeyword_length]
      omega
    rw [place] at range
    cases ends : Str.indexByte (40 :: behind) 41 with
    | none => simp [ends] at range
    | some distance =>
      obtain ⟨inside, rest, whole, rfl, noClosing⟩ := Str.indexByte_eq_some ends
      cases inside with
      | nil => simp at whole
      | cons b inner =>
        rw [cons_append, cons.injEq] at whole
        obtain ⟨rfl, rfl⟩ := whole
        rw [ends, length_cons] at range
        simp only [Option.some.injEq, Prod.mk.injEq] at range
        refine ⟨front, middle, inner, rest, rfl, rfl, by omega, range.2, ?_⟩
        exact fun mem => noClosing (mem_cons_of_mem _ mem)

theorem Places.keyword_le {pos left right : Nat} (places : Places lower pos left right) :
    pos + 6 ≤ left := by
  obtain ⟨front, middle, inner, rest, -, -, size, -, -⟩ := places.split
  omega

section

variable {toLower : Str → Str} {stmt : Str} {pos left right : Nat}

theorem take_drop_eq_cut (low high : Nat) : (text.take high).drop low = cut text low high := rfl

theorem cut_append {text : Str} {low middle high : Nat} (first : low ≤ middle)
    (second : middle ≤ high) (inside : high ≤ text.length) :
    cut text low high = cut text low middle ++ cut text middle high := by
  have size : (text.take middle).length = middle := length_take_of_le (by omega)
  have parts : text.take high = text.take middle ++ cut text middle high := by
    rw [cut, ← take_append_drop middle (text.take high), take_take,
      Nat.min_eq_left second, drop_left' size]
  rw [← take_drop_eq_cut text low high, parts, drop_append_of_le_length (by omega)]
  rfl

theorem slice_eq_cut {text : Str} {low high : Nat} (ordered : low ≤ high)
    (inside : high ≤ text.length) : slice text low high = .ok (cut text low high) :=
  if_pos ⟨ordered, inside⟩

theorem parseInsertStmt_outside (places : Places (toLower stmt) pos left right)
    (outside : ¬ left + right + 1 ≤ stmt.length) :
    parseInsertStmt toLower stmt = .error .sliceOutOfRange := by
  obtain ⟨found, positive, range⟩ := places
  obtain ⟨pos, rfl⟩ : ∃ less, pos = less + 1 := ⟨pos - 1, by omega⟩
  have fails : slice stmt left (left + right + 1) = .error .sliceOutOfRange :=
    if_neg fun inside => outside inside.2
  simp only [parseInsertStmt, found, range, fails]
  rfl

theorem parseInsertStmt_inside (places : Places (toLower stmt) pos left right)
    (inside : left + right + 1 ≤ stmt.length) :
    parseInsertStmt toLower stmt = .ok (
      if (Utf8.runes (cut (toLower stmt) left (left + right))).count 63 = 0 then
        .error (.noVariables stmt)
      else if 0 < countColumns (toLower stmt) pos ∧ countColumns (toLower stmt) pos ≠
          (Utf8.runes (cut (toLower stmt) left (left + right))).count 63 then
        .error (.mismatch stmt)
      else .ok ⟨cut stmt 0 (pos + 6), cut stmt left (left + right + 1),
        Utf8.trimSpace (cut stmt (left + right + 1) stmt.length)⟩) := by
  have behind := places.keyword_le
  obtain ⟨found, positive, range⟩ := places
  obtain ⟨pos, rfl⟩ : ∃ less, pos = less + 1 := ⟨pos - 1, by omega⟩
  have groupText := slice_eq_cut (by omega : left ≤ left + right + 1) inside
  have restText := slice_eq_cut inside (Nat.le_refl _)
  have frontText : slice stmt 0 (pos + 1 + valuesKeyword.length) = .ok (cut stmt 0 (pos + 1 + 6)) :=
    slice_eq_cut (Nat.zero_le _) (by omega : pos + 1 + 6 ≤ stmt.length)
  simp only [parseInsertStmt, found, range, groupText, restText, frontText, take_drop_eq_cut]
  split
  · rfl
  split
  · rfl
  · rfl

theorem parseInsertStmt_without
    (nowhere : ∀ pos left right, ¬ Places (toLower stmt) pos left right) :
    ∃ failure, parseInsertStmt toLower stmt = .ok (.error failure) := by
  rw [parseInsertStmt]
  split
  · rename_i pos found
    split
    · exact ⟨_, rfl⟩
    · rename_i left right range
      exact absurd ⟨found, Nat.succ_pos _, range⟩ (nowhere (pos + 1) left right)
  · exact ⟨_, rfl⟩

end

variable {text stmt : Str} {b paren : UInt8} {lower : Str}

theorem noParens_iff : noParens text = true ↔ 40 ∉ text ∧ 41 ∉ text := by
  simp only [noParens, all_eq_true, Bool.and_eq_true, bne_iff_ne]
  constructor
  · exact fun plain => ⟨fun mem => (plain 40 mem).1 rfl, fun mem => (plain 41 mem).2 rfl⟩
  · rintro ⟨noOpening, noClosing⟩ b mem
    exact ⟨fun same => noOpening (same ▸ mem), fun same => noClosing (same ▸ mem)⟩

/-- Two texts with the same group and with rests that only trimming tells apart have as many
parentheses before the group. -/
theorem count_middle {middle other group rest after : Str}
    (same : middle ++ (group ++ rest) = other ++ (group ++ after))
    (trimmed : Utf8.trimSpace rest = Utf8.trimSpace after) (ascii : paren.toNat < 0x80)
    (visible : Utf8.isSpace paren.toNat = false) : middle.count paren = other.count paren := by
  have counts := congrArg (count paren) same
  have rests := congrArg (count paren) trimmed
  rw [Utf8.count_trimSpace ascii visible, Utf8.count_trimSpace ascii visible] at rests
  simp only [count_append] at counts
  omega

theorem divided_iff {pos left right : Nat} (behind : pos + 6 ≤ left)
    (inside : left + right + 1 ≤ stmt.length) :
    Divided stmt ⟨cut stmt 0 (pos + 6), cut stmt left (left + right + 1),
        Utf8.trimSpace (cut stmt (left + right + 1) stmt.length)⟩ ↔
      spellsValues (cut stmt pos (pos + 6)) = true ∧ noParens (cut stmt (pos + 6) left) = true ∧
        isGroup (cut stmt left (left + right + 1)) = true := by
  have front : cut stmt 0 (pos + 6) = cut stmt 0 pos ++ cut stmt pos (pos + 6) :=
    cut_append (by omega) (by omega) (by omega)
  have whole : stmt = cut stmt 0 (pos + 6) ++ (cut stmt (pos + 6) left ++
      (cut stmt left (left + right + 1) ++ cut stmt (left + right + 1) stmt.length)) := by
    rw [← cut_append (by omega) inside (Nat.le_refl _),
      ← cut_append behind (by omega) (Nat.le_refl _),
      ← cut_append (by omega) (by omega) (Nat.le_refl _), cut, take_length, drop_zero]
  constructor
  · rintro ⟨⟨before, keyword, ends, spelled⟩, group, middle, rest, parts, plain, trimmed⟩
    refine ⟨?_, ?_, group⟩
    · have size : keyword.length = 6 := by
        have sizes := congrArg length (beq_iff_eq.mp spelled)
        rwa [length_map] at sizes
      rw [front] at ends
      have both := append_inj' ends (by rw [size, cut, length_drop, length_take]; omega)
      rwa [both.2]
    · have same := whole.symm.trans parts
      rw [append_assoc, append_assoc] at same
      have behind := append_cancel_left same
      obtain ⟨noOpening, noClosing⟩ := noParens_iff.mp plain
      rw [noParens_iff, ← count_eq_zero, ← count_eq_zero,
        count_middle behind trimmed.symm (by decide) (by decide),
        count_middle behind trimmed.symm (by decide) (by decide)]
      exact ⟨count_eq_zero.mpr noOpening, count_eq_zero.mpr noClosing⟩
  · rintro ⟨spelled, plain, group⟩
    refine ⟨⟨_, _, front, spelled⟩, group, _, _, ?_, plain, rfl⟩
    simp only [append_assoc]
    exact whole

theorem sound_iff_aligned (toLower : Str → Str) (stmt : Str) :
    Sound toLower stmt ↔ Aligned (toLower stmt) stmt := by
  constructor
  · rintro ⟨outcome, parsed, sound⟩ pos left right places
    have inside : left + right + 1 ≤ stmt.length := by
      by_contra outside
      rw [parseInsertStmt_outside places outside] at parsed
      cases parsed
    refine ⟨inside, ?_⟩
    rintro ⟨marks, fits⟩
    rw [parseInsertStmt_inside places inside, if_neg marks, if_neg fits, Except.ok.injEq] at parsed
    exact (divided_iff places.keyword_le inside).mp (sound _ parsed.symm)
  · intro aligned
    by_cases somewhere : ∃ pos left right, Places (toLower stmt) pos left right
    · obtain ⟨pos, left, right, places⟩ := somewhere
      obtain ⟨inside, divides⟩ := aligned pos left right places
      refine ⟨_, parseInsertStmt_inside places inside, ?_⟩
      intro parts accepted
      split at accepted
      · cases accepted
      split at accepted
      · cases accepted
      · rename_i marks fits
        cases accepted
        exact (divided_iff places.keyword_le inside).mpr (divides ⟨marks, fits⟩)
    · obtain ⟨failure, parsed⟩ := parseInsertStmt_without
        fun pos left right places => somewhere ⟨pos, left, right, places⟩
      refine ⟨_, parsed, ?_⟩
      rintro parts ⟨⟩

theorem asciiLower_eq_self_of_paren (isParen : paren = 40 ∨ paren = 41)
    (same : asciiLower b = paren) : b = paren := by
  rw [asciiLower] at same
  split_ifs at same with upper
  · simp only [UInt8.le_iff_toNat_le] at upper
    have sizes := congrArg UInt8.toNat same
    rw [UInt8.toNat_add] at sizes
    rcases isParen with rfl | rfl
    · simp at sizes upper
      omega
    · simp at sizes upper
      omega
  · exact same

/-- The copy has the parentheses of the statement. -/
theorem paren_iff {lower : UInt8} (same : SameByte b lower) (isParen : paren = 40 ∨ paren = 41) :
    b = paren ↔ lower = paren := by
  rcases same with ⟨-, copied⟩ | ⟨large, others⟩
  · rw [copied]
    refine ⟨?_, asciiLower_eq_self_of_paren isParen⟩
    rintro rfl
    rcases isParen with rfl | rfl <;> rfl
  · constructor
    · rintro rfl
      rcases isParen with rfl | rfl <;> exact absurd large (by decide)
    · rintro rfl
      rcases isParen with rfl | rfl <;> exact absurd others (by decide)

section

variable (same : List.Forall₂ SameByte text lower)

include same

theorem noParens_eq_of_forall₂ : noParens text = noParens lower := by
  induction same with
  | nil => rfl
  | cons first _ ih =>
    simp only [noParens, all_cons, bne, beq_eq_decide, paren_iff first (Or.inl rfl),
      paren_iff first (Or.inr rfl)] at ih ⊢
    rw [ih]

theorem closes_eq_of_forall₂ (n : Nat) : closes n text = closes n lower := by
  induction same generalizing n with
  | nil => rfl
  | cons first _ ih =>
    cases n with
    | zero => rfl
    | succ n =>
      simp only [closes, paren_iff first (Or.inl rfl), paren_iff first (Or.inr rfl), ih]

theorem isGroup_eq_of_forall₂ : isGroup text = isGroup lower := by
  cases same with
  | nil => rfl
  | cons first others =>
    simp only [isGroup, closes_eq_of_forall₂ others, beq_eq_decide, paren_iff first (Or.inl rfl)]

/-- A text of the copy in which no letter can come from beyond ASCII. -/
theorem map_asciiLower_of_forall₂ (letters : ∀ b ∈ lower, b.toNat < 0x80 ∧ b ≠ 105 ∧ b ≠ 107) :
    text.map asciiLower = lower := by
  induction same with
  | nil => rfl
  | cons first _ ih =>
    rw [forall_mem_cons] at letters
    obtain ⟨⟨ascii, notI, notK⟩, others⟩ := letters
    rw [map_cons, ih others]
    rcases first with ⟨-, copied⟩ | ⟨-, large | letter | letter⟩
    · rw [copied]
    · exact absurd large (Nat.not_le.mpr ascii)
    · exact absurd letter notI
    · exact absurd letter notK

end

theorem isGroup_of_noParens {inner : Str} (plain : noParens inner = true) :
    isGroup (40 :: (inner ++ [41])) = true := by
  rw [isGroup, Bool.and_eq_true]
  refine ⟨by decide, ?_⟩
  induction inner with
  | nil => rfl
  | cons b inner ih =>
    rw [noParens, all_cons, Bool.and_eq_true, Bool.and_eq_true, bne_iff_ne, bne_iff_ne] at plain
    rw [cons_append, closes, if_neg plain.1.1, if_neg plain.1.2]
    exact ih plain.2

theorem cut_eq_part {low high : Nat} (front part rest : Str)
    (whole : text = front ++ (part ++ rest)) (begins : front.length = low)
    (ends : low + part.length = high) : cut text low high = part := by
  subst whole begins ends
  rw [cut, ← append_assoc, ← length_append, take_left, drop_left]

theorem cut_forall₂ (same : Forall₂ SameByte stmt lower) (low high : Nat) :
    Forall₂ SameByte (cut stmt low high) (cut lower low high) :=
  forall₂_drop low (forall₂_take high same)

theorem aligned_of_keeps (same : Forall₂ SameByte stmt lower) (plain : Plain lower) :
    Aligned lower stmt := by
  intro pos left right places
  obtain ⟨noneBefore, noneInside⟩ := plain pos left right places
  obtain ⟨front, middle, inner, rest, whole, size, gap, width, noClosing⟩ := places.split
  have keyword : cut lower pos (pos + 6) = valuesKeyword :=
    cut_eq_part front valuesKeyword _ whole size rfl
  have group : cut lower left (left + right + 1) = 40 :: (inner ++ [41]) := by
    refine cut_eq_part (front ++ (valuesKeyword ++ middle)) _ rest (by simp [whole]) ?_ ?_
    · simp only [length_append, valuesKeyword_length]
      omega
    · simp only [length_cons, length_append, length_nil]
      omega
  have inside : cut lower (left + 1) (left + right) = inner := by
    refine cut_eq_part (front ++ (valuesKeyword ++ (middle ++ [40]))) _ (41 :: rest)
      (by simp [whole]) ?_ (by omega)
    simp only [length_append, length_cons, length_nil, valuesKeyword_length]
    omega
  rw [inside] at noneInside
  refine ⟨?_, fun _ => ⟨?_, ?_, ?_⟩⟩
  · rw [same.length_eq, whole]
    simp only [length_append, length_cons, valuesKeyword_length]
    omega
  · rw [spellsValues, map_asciiLower_of_forall₂ (cut_forall₂ same pos (pos + 6)), keyword,
      beq_self_eq_true]
    rw [keyword]
    decide +kernel
  · rwa [noParens_eq_of_forall₂ (cut_forall₂ same (pos + 6) left)]
  · rw [isGroup_eq_of_forall₂ (cut_forall₂ same left (left + right + 1)), group]
    exact isGroup_of_noParens (noParens_iff.mpr ⟨noneInside, noClosing⟩)

/-- The parser divides a statement exactly if the statement has, at the places of its lower-case
copy, what the copy has. It has if every rune keeps its length in lower case and the first
parentheses after the keyword enclose no others. -/
theorem parse_divides_iff (mapping : CaseMapping) (stmt : Str) :
    (Sound mapping.toLower stmt ↔ Aligned (mapping.toLower stmt) stmt) ∧
      (mapping.Keeps stmt → Plain (mapping.toLower stmt) →
        Aligned (mapping.toLower stmt) stmt) := by
  refine ⟨sound_iff_aligned mapping.toLower stmt, ?_⟩
  intro keeps plain
  exact aligned_of_keeps keeps.forall₂ plain

/-- A part of the Unicode table: ASCII, the dotted capital I, A with a stroke, and the sign of
Kelvin. -/
def someLower (r : Nat) : Nat :=
  if 65 ≤ r ∧ r ≤ 90 then r + 32
  else if r = 0x130 then 0x69
  else if r = 0x23A then 0x2C65
  else if r = 0x212A then 0x6B
  else r

theorem someLower_ascii : ∀ r < 0x80, someLower r = if 65 ≤ r ∧ r ≤ 90 then r + 32 else r := by
  intro r ascii
  unfold someLower
  split_ifs
  all_goals omega

theorem someLower_beyond (r : Nat) (beyond : 0x80 ≤ r) :
    someLower r < 0x80 → someLower r = 105 ∨ someLower r = 107 := by
  unfold someLower
  split_ifs
  all_goals omega

def someLetters : CaseMapping := ⟨someLower, someLower_ascii, someLower_beyond⟩

/-- `insert into t (é) values (?) `, with an accent. -/
theorem parse_divides_iff_accent :
    Sound someLetters.toLower
      (bytes "insert into t (" ++ [0xC3, 0xA9] ++ bytes ") VALUES (?) ") := by
  refine (parse_divides_iff someLetters _).1.mpr ((parse_divides_iff someLetters _).2 ?_ ?_)
  · rw [CaseMapping.Keeps]
    decide +kernel
  · intro pos left right places
    have found : Str.index (someLetters.toLower (bytes "insert into t (" ++
        [0xC3, 0xA9] ++ bytes ") VALUES (?) ")) valuesKeyword = some 19 := by
      decide +kernel
    cases places.keyword.symm.trans found
    have range : valuesRange (someLetters.toLower (bytes "insert into t (" ++
        [0xC3, 0xA9] ++ bytes ") VALUES (?) ")) 19 = some (26, 2) := by decide +kernel
    cases places.range.symm.trans range
    decide +kernel

theorem not_sound {toLower : Str → Str} (parts : BulkStmt)
    (parsed : parseInsertStmt toLower stmt = .ok (.ok parts))
    (unclosed : isGroup parts.valueFormat = false) : ¬ Sound toLower stmt := by
  rintro ⟨outcome, same, sound⟩
  cases parsed.symm.trans same
  rw [(sound parts rfl).group] at unclosed
  contradiction

/-- A letter that is longer in lower case moves the group beyond the end of the statement; one that
is shorter moves all cuts; and a group inside the group ends it. -/
theorem parse_cuts_astray :
    parseInsertStmt someLetters.toLower
        (bytes "insert into " ++ [0xC8, 0xBA] ++ bytes " values (?)") =
      .error .sliceOutOfRange ∧
    ¬ Sound someLetters.toLower
      (bytes "insert into " ++ [0xC8, 0xBA] ++ bytes " values (?)") ∧
    parseInsertStmt someLetters.toLower
        (bytes "insert into " ++ [0xC4, 0xB0] ++ bytes " values (?)") =
      .ok (.ok ⟨bytes "insert into " ++ [0xC4, 0xB0] ++ bytes " value",
        bytes " (?", bytes ")"⟩) ∧
    ¬ Sound someLetters.toLower
      (bytes "insert into " ++ [0xC4, 0xB0] ++ bytes " values (?)") ∧
    ¬ Sound someLetters.toLower (bytes "insert into t values (?, now())") := by
  refine ⟨by decide +kernel, ?_, by decide +kernel, ?_, ?_⟩
  · rintro ⟨outcome, parsed, -⟩
    cases parsed.symm.trans (by decide +kernel : _ = .error .sliceOutOfRange)
  · apply not_sound ⟨bytes "insert into " ++ [0xC4, 0xB0] ++ bytes " value", bytes " (?", bytes ")"⟩
    all_goals decide +kernel
  · apply not_sound ⟨bytes "insert into t values", bytes "(?, now()", bytes ")"⟩
    all_goals decide +kernel

end FastGoZero.Sqlx
