import FastGoZero.Lib.Utf8

/-!
# Valid UTF-8

A valid text is the encoding of a sequence of scalar values. Decoding gives the sequence back, a
part of the text that is valid itself starts at a whole rune, and a prefix in bytes is a prefix in
runes.
-/

namespace FastGoZero.Lib.Utf8

open List

/-- The code points that UTF-8 encodes: all but the surrogates. -/
def isScalar (r : Nat) : Bool := r < 0xD800 || (0xDFFF < r && r ≤ 0x10FFFF)

/-- `string(chars)`. -/
def encode (chars : List Nat) : Str := chars.flatMap encodeRune

def Valid (text : Str) : Prop :=
  ∃ chars, (∀ r ∈ chars, isScalar r = true) ∧ text = encode chars

@[simp] theorem encode_cons (r : Nat) (chars : List Nat) :
    encode (r :: chars) = encodeRune r ++ encode chars := rfl

@[simp] theorem encode_append (front chars : List Nat) :
    encode (front ++ chars) = encode front ++ encode chars := flatMap_append

theorem isScalar_iff (r : Nat) : isScalar r = true ↔ r < 0xD800 ∨ (0xDFFF < r ∧ r ≤ 0x10FFFF) := by
  simp [isScalar]

theorem toNat_ofNat_of_lt {n : Nat} (small : n < 256) : (UInt8.ofNat n).toNat = n := by
  rw [UInt8.toNat_ofNat', Nat.mod_eq_of_lt small]

theorem isContinuation_ofNat {n : Nat} (small : n < 256) :
    isContinuation (UInt8.ofNat n) = true ↔ 0x80 ≤ n ∧ n ≤ 0xBF := by
  simp [isContinuation, UInt8.le_iff_toNat_le, Nat.mod_eq_of_lt small]

variable {a b c : Nat} {text : Str} {chars : List Nat}

theorem secondOfThree_ofNat (first : a < 256) (range : 0x80 ≤ b ∧ b ≤ 0xBF)
    (notOverlong : a = 0xE0 → 0xA0 ≤ b) (notSurrogate : a = 0xED → b ≤ 0x9F) :
    secondOfThree (UInt8.ofNat a) (UInt8.ofNat b) = true := by
  have small : b < 256 := by omega
  simp only [secondOfThree, Bool.and_eq_true, decide_eq_true_eq, ← UInt8.toNat_inj,
    UInt8.le_iff_toNat_le, toNat_ofNat_of_lt first, toNat_ofNat_of_lt small]
  split <;> split <;> simp_all

theorem secondOfFour_ofNat (first : a < 256) (range : 0x80 ≤ b ∧ b ≤ 0xBF)
    (notOverlong : a = 0xF0 → 0x90 ≤ b) (notTooLarge : a = 0xF4 → b ≤ 0x8F) :
    secondOfFour (UInt8.ofNat a) (UInt8.ofNat b) = true := by
  have small : b < 256 := by omega
  simp only [secondOfFour, Bool.and_eq_true, decide_eq_true_eq, ← UInt8.toNat_inj,
    UInt8.le_iff_toNat_le, toNat_ofNat_of_lt first, toNat_ofNat_of_lt small]
  split <;> split <;> simp_all

/-! The four widths. -/

theorem decodeRune_one (lead : a < 0x80) (tail : Str) :
    decodeRune (UInt8.ofNat a) tail = (a, 0) := by
  simp [decodeRune.eq_def, UInt8.lt_iff_toNat_lt, Nat.mod_eq_of_lt (by omega : a < 256), lead]

theorem decodeRune_two (lead : 0xC2 ≤ a ∧ a ≤ 0xDF) (second : 0x80 ≤ b ∧ b ≤ 0xBF) (tail : Str) :
    decodeRune (UInt8.ofNat a) (UInt8.ofNat b :: tail) = (a % 32 * 64 + b % 64, 1) := by
  have smallA : a < 256 := by omega
  have smallB : b < 256 := by omega
  have notAscii : ¬ a < 0x80 := by omega
  have follows := (isContinuation_ofNat smallB).mpr second
  simp [decodeRune, UInt8.lt_iff_toNat_lt, UInt8.le_iff_toNat_le, Nat.mod_eq_of_lt smallA,
    Nat.mod_eq_of_lt smallB, notAscii, lead, follows]

theorem decodeRune_three (lead : 0xE0 ≤ a ∧ a ≤ 0xEF) (second : 0x80 ≤ b ∧ b ≤ 0xBF)
    (notOverlong : a = 0xE0 → 0xA0 ≤ b) (notSurrogate : a = 0xED → b ≤ 0x9F)
    (third : 0x80 ≤ c ∧ c ≤ 0xBF) (tail : Str) :
    decodeRune (UInt8.ofNat a) (UInt8.ofNat b :: UInt8.ofNat c :: tail) =
      ((a % 16 * 64 + b % 64) * 64 + c % 64, 2) := by
  have smallA : a < 256 := by omega
  have smallB : b < 256 := by omega
  have smallC : c < 256 := by omega
  have notTwo : ¬ a < 0x80 ∧ ¬ a ≤ 0xDF := by omega
  have follows := secondOfThree_ofNat smallA second notOverlong notSurrogate
  have ends := (isContinuation_ofNat smallC).mpr third
  simp [decodeRune, UInt8.lt_iff_toNat_lt, UInt8.le_iff_toNat_le, Nat.mod_eq_of_lt smallA,
    Nat.mod_eq_of_lt smallB, Nat.mod_eq_of_lt smallC, notTwo, lead, follows, ends]

theorem decodeRune_four {d : Nat} (lead : 0xF0 ≤ a ∧ a ≤ 0xF4) (second : 0x80 ≤ b ∧ b ≤ 0xBF)
    (notOverlong : a = 0xF0 → 0x90 ≤ b) (notTooLarge : a = 0xF4 → b ≤ 0x8F)
    (third : 0x80 ≤ c ∧ c ≤ 0xBF) (fourth : 0x80 ≤ d ∧ d ≤ 0xBF) (tail : Str) :
    decodeRune (UInt8.ofNat a) (UInt8.ofNat b :: UInt8.ofNat c :: UInt8.ofNat d :: tail) =
      (((a % 8 * 64 + b % 64) * 64 + c % 64) * 64 + d % 64, 3) := by
  have smallA : a < 256 := by omega
  have smallB : b < 256 := by omega
  have smallC : c < 256 := by omega
  have smallD : d < 256 := by omega
  have notThree : ¬ a < 0x80 ∧ ¬ a ≤ 0xDF ∧ ¬ a ≤ 0xEF := by omega
  have follows := secondOfFour_ofNat smallA second notOverlong notTooLarge
  have goesOn := (isContinuation_ofNat smallC).mpr third
  have ends := (isContinuation_ofNat smallD).mpr fourth
  simp [decodeRune, UInt8.lt_iff_toNat_lt, UInt8.le_iff_toNat_le, Nat.mod_eq_of_lt smallA,
    Nat.mod_eq_of_lt smallB, Nat.mod_eq_of_lt smallC, Nat.mod_eq_of_lt smallD, notThree, lead,
    follows, goesOn, ends]

/-- What the encoding of a scalar value looks like: one byte that does not continue a rune, then
bytes that do, from which the decoder takes the value back. -/
structure Encoded (r : Nat) (first : UInt8) (rest : Str) : Prop where
  bytes : encodeRune r = first :: rest
  starts : isContinuation first = false
  continues : ∀ b ∈ rest, isContinuation b = true
  decodes : ∀ tail, decodeRune first (rest ++ tail) = (r, rest.length)

theorem encoded_of_isScalar {r : Nat} (scalar : isScalar r = true) :
    ∃ first rest, Encoded r first rest := by
  have notCut : ∀ {n : Nat}, n < 256 → (n < 0x80 ∨ 0xBF < n) →
      isContinuation (UInt8.ofNat n) = false := by
    intro n small outside
    rw [Bool.eq_false_iff, Ne, isContinuation_ofNat small]
    omega
  have low : ∀ n : Nat, isContinuation (UInt8.ofNat (0x80 + n % 64)) = true := by
    intro n
    rw [isContinuation_ofNat (by omega)]
    omega
  rw [isScalar_iff] at scalar
  have notReplaced : ¬ ((0xD800 ≤ r ∧ r ≤ 0xDFFF) ∨ 0x10FFFF < r) := by omega
  by_cases one : r < 0x80
  · refine ⟨_, [], by rw [encodeRune, if_pos one], notCut (by omega) (Or.inl one), by simp, ?_⟩
    intro tail
    simp [decodeRune_one one]
  by_cases two : r < 0x800
  · refine ⟨_, _, by rw [encodeRune, if_neg one, if_pos two], notCut (by omega) (by omega),
      by simp only [forall_mem_cons, low, true_and]; simp, ?_⟩
    intro tail
    rw [cons_append, decodeRune_two (by omega) (by omega), length_singleton]
    congr 1
    omega
  by_cases three : r < 0x10000
  · refine ⟨_, _, by rw [encodeRune, if_neg one, if_neg two, if_neg notReplaced, if_pos three],
      notCut (by omega) (by omega), by simp only [forall_mem_cons, low, true_and]; simp, ?_⟩
    intro tail
    rw [cons_append, cons_append,
      decodeRune_three (by omega) (by omega) (by omega) (by omega) (by omega)]
    refine Prod.ext ?_ rfl
    omega
  · refine ⟨_, _, by rw [encodeRune, if_neg one, if_neg two, if_neg notReplaced, if_neg three],
      notCut (by omega) (by omega), by simp only [forall_mem_cons, low, true_and]; simp, ?_⟩
    intro tail
    rw [cons_append, cons_append, cons_append,
      decodeRune_four (by omega) (by omega) (by omega) (by omega) (by omega) (by omega)]
    refine Prod.ext ?_ rfl
    simp only
    omega

theorem runesFrom_eq_runesFrom : ∀ (fuel other : Nat) (text : Str), text.length ≤ fuel →
    text.length ≤ other → runesFrom fuel text = runesFrom other text := by
  intro fuel
  induction fuel with
  | zero =>
    intro other text few _
    obtain rfl := eq_nil_of_length_eq_zero (Nat.le_zero.mp few)
    cases other <;> rfl
  | succ fuel ih =>
    intro other text few enough
    cases text with
    | nil => cases other <;> rfl
    | cons first rest =>
      cases other with
      | zero => simp at enough
      | succ other =>
        rw [length_cons] at few enough
        have shorter := (drop_suffix (decodeRune first rest).2 rest).length_le
        rw [runesFrom, runesFrom, ih other _ (by omega) (by omega)]

theorem runesFrom_eq {fuel : Nat} (enough : text.length ≤ fuel) :
    runesFrom fuel text = runes text :=
  runesFrom_eq_runesFrom fuel text.length text enough (Nat.le_refl _)

theorem runes_encode_append (scalars : ∀ r ∈ chars, isScalar r = true)
    (tail : Str) : runes (encode chars ++ tail) = chars ++ runes tail := by
  induction chars with
  | nil => rfl
  | cons r chars ih =>
    obtain ⟨first, rest, encoded⟩ := encoded_of_isScalar (scalars r mem_cons_self)
    have further := ih fun other mem => scalars other (mem_cons_of_mem _ mem)
    rw [encode_cons, encoded.bytes, append_assoc, cons_append, runes, length_cons,
      runesFrom, encoded.decodes, drop_left, runesFrom_eq (by simp), further]
    rfl

theorem runes_encode (scalars : ∀ r ∈ chars, isScalar r = true) : runes (encode chars) = chars := by
  simpa [runes, runesFrom] using runes_encode_append scalars []

theorem Valid.isScalar (valid : Valid text) : ∀ r ∈ runes text, isScalar r = true := by
  obtain ⟨chars, scalars, rfl⟩ := valid
  rwa [runes_encode scalars]

theorem Valid.encode_runes (valid : Valid text) : encode (runes text) = text := by
  obtain ⟨chars, scalars, rfl⟩ := valid
  rw [runes_encode scalars]

/-- Whole runes: a valid part at the front of a valid text. -/
theorem Valid.runes_prefix_iff {key : Str} (valid : Valid key)
    (scalars : ∀ r ∈ chars, Utf8.isScalar r = true) :
    key <+: encode chars ↔ runes key <+: chars := by
  constructor
  · rintro ⟨tail, whole⟩
    have decoded := runes_encode_append valid.isScalar tail
    rw [valid.encode_runes, whole, runes_encode scalars] at decoded
    exact ⟨_, decoded.symm⟩
  · rintro ⟨tail, rfl⟩
    rw [encode_append, valid.encode_runes]
    exact prefix_append _ _

/-- A valid text starts with a rune, not inside one. -/
theorem Valid.starts {first : UInt8} {rest : Str} (valid : Valid (first :: rest)) :
    isContinuation first = false := by
  obtain ⟨chars, scalars, bytes⟩ := valid
  cases chars with
  | nil => cases bytes
  | cons r chars =>
    obtain ⟨head, after, encoded⟩ := encoded_of_isScalar (scalars r mem_cons_self)
    rw [encode_cons, encoded.bytes, cons_append, cons.injEq] at bytes
    exact bytes.1 ▸ encoded.starts

end FastGoZero.Lib.Utf8
