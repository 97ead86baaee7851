import FastGoZero.Api.Scanner
import FastGoZero.Lib.Fallible
import Mathlib.Logic.Relation

/-!
# Progress of the scanner

A call of `NextToken` that gives a token has read a rune, but for one: an '@' with nothing behind
it is given and not read, so that the scanner gives it again and again.
-/

namespace FastGoZero.Api.Scanner

/-- The scanner has gone on in the same input. -/
structure Past (t s : Scanner) : Prop where
  data : s.data = t.data
  position : t.position < s.position

variable {t s : Scanner}

theorem Past.readRune (past : Past t s) : Past t s.readRune :=
  ⟨past.data, Nat.lt_succ_of_lt past.position⟩

theorem past_readRune (t : Scanner) : Past t t.readRune := ⟨rfl, Nat.lt_succ_self _⟩

theorem lt_length_of_ch (started : s.ch ≠ 0) : s.position < s.data.length := by
  by_contra outside
  rw [ch, List.getElem?_eq_none (Nat.not_lt.mp outside)] at started
  exact started rfl

section

variable {p : Nat → Bool}

theorem Past.readWhileFrom {fuel : Nat} (past : Past t s) :
    Past t (readWhileFrom p fuel s) := by
  fun_induction Scanner.readWhileFrom p fuel s with
  | case2 fuel s holds ih => exact ih past.readRune
  | _ => exact past

theorem Past.readWhile (past : Past t s) : Past t (s.readWhile p) := past.readWhileFrom

theorem past_readWhile (holds : p t.ch = true) (zero : p 0 = false) : Past t (t.readWhile p) := by
  have inside : t.position < t.data.length := by
    apply lt_length_of_ch
    intro ended
    rw [ended, zero] at holds
    contradiction
  obtain ⟨fuel, left⟩ := Nat.exists_eq_add_of_lt inside
  have turns : t.remaining = fuel + 1 := by
    rw [remaining]
    omega
  rw [readWhile, turns, readWhileFrom, if_pos holds]
  exact (past_readRune t).readWhileFrom

end

/-- A token without an error has been read. -/
def Onward (t : Scanner) (result : Except Panic Scan) : Prop :=
  ∀ scan, result = .ok scan → scan.err = none → Past t scan.scanner

variable {start : Nat} {tp : TokenType}

theorem Onward.finish (past : Past t s) : Onward t (s.finish tp start) := by
  intro scan finished _
  obtain ⟨text, -, rfl⟩ := Lib.map_eq_ok.mp finished
  exact past

theorem Onward.fail {text : Lib.Str} : Onward t (s.fail text) := by
  rintro _ ⟨⟩ ⟨⟩

theorem Onward.error {panic : Panic} : Onward t (.error panic) := by
  rintro _ ⟨⟩

theorem Onward.token {token : Token} (past : Past t s) : Onward t (.ok ⟨token, none, s⟩) := by
  rintro _ ⟨⟩ _
  exact past

theorem Onward.newToken (past : Past t s) : Onward t (.ok (s.newToken tp)) :=
  .token past.readRune

section

variable (past : Past t s)

include past

theorem Onward.scanNanosecond : Onward t (s.scanNanosecond start) := by
  fun_cases Scanner.scanNanosecond s start
  exacts [.newToken past.readRune, .finish past.readRune.readRune]

theorem Onward.scanMicrosecond : Onward t (s.scanMicrosecond start) := by
  have unit := past.readRune.readRune
  fun_cases Scanner.scanMicrosecond s start
  exacts [.newToken past.readRune, .finish unit, .newToken unit.readWhile,
    .scanNanosecond unit.readWhile]

theorem Onward.scanMillisecond : Onward t (s.scanMillisecond start) := by
  have unit := past.readRune
  fun_cases Scanner.scanMillisecond s start
  exacts [.finish unit, .scanNanosecond unit.readWhile,
    .scanMicrosecond unit.readWhile, .newToken unit.readWhile]

theorem Onward.scanMilli : Onward t (s.scanMilli start) := by
  fun_cases Scanner.scanMilli s start
  exacts [.newToken past.readRune, .scanMillisecond past.readRune]

theorem Onward.scanSecond : Onward t (s.scanSecond start) := by
  have unit := past.readRune
  fun_cases Scanner.scanSecond s start
  exacts [.finish unit, .scanNanosecond unit.readWhile,
    .scanMicrosecond unit.readWhile, .scanMilli unit.readWhile,
    .newToken unit.readWhile]

theorem Onward.scanMinute : Onward t (s.scanMinute start) := by
  fun_cases Scanner.scanMinute s start
  exacts [.finish past, .scanNanosecond past.readWhile,
    .scanMicrosecond past.readWhile, .scanMilli past.readWhile,
    .scanSecond past.readWhile, .newToken past.readWhile]

theorem Onward.scanMillisecondOrMinute : Onward t (s.scanMillisecondOrMinute start) := by
  have unit := past.readRune
  fun_cases Scanner.scanMillisecondOrMinute s start
  exacts [.finish unit, .scanMinute unit, .scanMillisecond unit]

theorem Onward.scanHour : Onward t (s.scanHour start) := by
  have unit := past.readRune
  fun_cases Scanner.scanHour s start
  exacts [.finish unit, .scanNanosecond unit.readWhile,
    .scanMicrosecond unit.readWhile, .scanMillisecondOrMinute unit.readWhile,
    .scanSecond unit.readWhile, .newToken unit.readWhile]

end

theorem Onward.scanIntOrDuration (digit : isDigit t.ch = true) : Onward t t.scanIntOrDuration := by
  have digits : Past t (t.readWhile isDigit) := past_readWhile digit rfl
  fun_cases Scanner.scanIntOrDuration t
  exacts [.scanNanosecond digits, .scanMicrosecond digits,
    .scanMillisecondOrMinute digits, .scanSecond digits, .scanHour digits,
    .finish digits]

theorem Onward.scanIdent (letter : isIdentifierLetter t.ch = true) : Onward t t.scanIdent := by
  have letters : Past t (t.readWhile fun r => isIdentifierLetter r || isDigit r) :=
    past_readWhile (by simp [letter]) rfl
  fun_cases Scanner.scanIdent t
  exacts [.error, .finish letters.readRune, .finish letters.readRune.readRune,
    .token letters]

section

variable {fuel : Nat} (data : s.data = t.data) (behind : t.position ≤ s.position)

include data behind

theorem Onward.scanDocumentLoop {mode : DocumentMode} :
    Onward t (scanDocumentLoop start fuel mode s) := by
  fun_induction Scanner.scanDocumentLoop start fuel mode s with
  | case1 => exact .error
  | case6 | case7 | case9 => exact .fail
  | case11 => exact .finish ⟨data, Nat.lt_succ_of_le behind⟩
  | _ =>
    rename_i ih
    exact ih data (Nat.le_succ_of_le behind)

theorem Onward.scanStringLoop {delim : Nat} {mode : StringMode} (unclosed : mode ≠ .closed) :
    Onward t (scanStringLoop delim tp start fuel mode s) := by
  fun_induction Scanner.scanStringLoop delim tp start fuel mode s with
  | case1 => exact .error
  | case3 => exact .finish ⟨data, Nat.lt_succ_of_le behind⟩
  | case5 | case6 => exact .fail
  | case4 | case7 => contradiction
  | case2 _ _ _ ih => exact ih data (Nat.le_succ_of_le behind) (by simp)
  | case8 _ _ _ _ _ ih => exact ih data (Nat.le_succ_of_le behind) unclosed

end

/-- An '@' with nothing behind it, or the rune 0. -/
def Stuck (t : Scanner) : Prop := t.ch = '@'.toNat ∧ t.peekRune = 0

theorem Onward.scanAt (moves : ¬ t.peekRune = 0) : Onward t t.scanAt := by
  have letters {p : Nat → Bool} : Past t (t.readRune.readWhile p) := (past_readRune t).readWhile
  fun_cases Scanner.scanAt t
  · contradiction
  exacts [.fail, .error, .token letters, .token letters,
    .token letters, .fail]

theorem Onward.scanToken (started : t.ch ≠ 0) (moves : ¬ t.Stuck) : Onward t t.scanToken := by
  have next := past_readRune t
  fun_cases Scanner.scanToken t with
  | case1 => exact .token next
  | case2 _ slash => exact .finish (past_readWhile (by simp [slash]) rfl)
  | case3 => exact .scanDocumentLoop rfl (Nat.le_refl _)
  | case4 => exact .token next
  | case5 =>
    fun_cases Scanner.scanDots t
    exacts [.token next, .token next.readRune, .token next.readRune.readRune]
  | case6 _ _ _ at' => exact .scanAt fun ended => moves ⟨at', ended⟩
  | case7 | case8 => exact .scanStringLoop rfl (Nat.le_refl _) (by simp)
  | case9 => contradiction
  | case10 _ _ _ _ _ _ _ letter => exact .scanIdent letter
  | case11 _ _ _ _ _ _ _ _ digit => exact .scanIntOrDuration digit
  | case12 => exact .token next

theorem scanToken_eof (ended : t.ch = 0) : t.scanToken = .ok ⟨.eof, none, t⟩ := by
  simp [scanToken, ended, operator, operators, backquote]

theorem scanToken_stuck (stuck : t.Stuck) :
    t.scanToken = .ok ⟨⟨.illegal, encode [t.ch], t.positionAt⟩, none, t⟩ := by
  simp [scanToken, scanAt, stuck.1, stuck.2, operator, operators, isLetter]

theorem skipWhiteSpace_spec (s : Scanner) :
    s.skipWhiteSpace.data = s.data ∧ s.position ≤ s.skipWhiteSpace.position := by
  rw [skipWhiteSpace]
  generalize s.remaining = fuel
  fun_induction skipWhiteSpaceFrom fuel s with
  | case1 | case3 => exact ⟨rfl, Nat.le_refl _⟩
  | case2 fuel s blank ih =>
    have next : s.skipBlank.data = s.data ∧ s.skipBlank.position = s.position + 1 := by
      rw [skipBlank]
      split <;> exact ⟨rfl, rfl⟩
    rw [next.1, next.2] at ih
    exact ⟨ih.1, Nat.le_of_succ_le ih.2⟩

theorem Stuck.skipWhiteSpace (stuck : t.Stuck) : t.skipWhiteSpace = t := by
  rw [Scanner.skipWhiteSpace]
  cases t.remaining with
  | zero => rfl
  | succ fuel => rw [skipWhiteSpaceFrom, stuck.1, if_neg (by decide)]

/-- The scanner after a call that gives a token, which is not the end and comes without an error. -/
def gives (s : Scanner) : Option Scanner :=
  match s.nextToken with
  | .ok scan => if scan.err = none ∧ scan.token.type ≠ .eof then some scan.scanner else none
  | .error _ => none

/-- How many of the first calls give a token before one does not. -/
def returned : Nat → Scanner → Nat
  | 0, _ => 0
  | calls + 1, s =>
    match s.gives with
    | none => 0
    | some s' => returned calls s' + 1

def Reaches : Scanner → Scanner → Prop := Relation.ReflTransGen fun s s' => s.gives = some s'

theorem gives_stuck (stuck : s.skipWhiteSpace.Stuck) : s.gives = some s.skipWhiteSpace := by
  rw [gives, nextToken, scanToken_stuck stuck]
  rfl

/-- A scanner that is stuck gives its token at every call. -/
theorem returned_stuck (calls : Nat) (stuck : s.skipWhiteSpace.Stuck) :
    returned calls s = calls := by
  induction calls generalizing s with
  | zero => rfl
  | succ calls ih =>
    have again : s.skipWhiteSpace.skipWhiteSpace.Stuck := by rwa [stuck.skipWhiteSpace]
    rw [returned, gives_stuck stuck]
    exact congrArg (· + 1) (ih again)

theorem remaining_lt (given : s.gives = some t) (moves : ¬ s.skipWhiteSpace.Stuck) :
    t.remaining < s.remaining := by
  have skipped := s.skipWhiteSpace_spec
  rw [gives, nextToken] at given
  by_cases ended : s.skipWhiteSpace.ch = 0
  · rw [scanToken_eof ended] at given
    cases given
  · have onward := Onward.scanToken ended moves
    split at given
    · rename_i scan scanned
      split at given
      · rename_i token
        cases given
        have past := onward scan scanned token.1
        have inside := lt_length_of_ch ended
        have position := past.position
        rw [skipped.1] at inside
        rw [remaining, remaining, past.data, skipped.1]
        omega
      · cases given
    · cases given

theorem exists_le_returned (reached : Reaches s t) (stuck : t.skipWhiteSpace.Stuck) (count : Nat) :
    ∃ calls, count ≤ returned calls s := by
  induction reached using Relation.ReflTransGen.head_induction_on with
  | refl => exact ⟨count, Nat.le_of_eq (returned_stuck count stuck).symm⟩
  | head given _ ih =>
    obtain ⟨calls, enough⟩ := ih
    refine ⟨calls + 1, ?_⟩
    rw [returned, given]
    exact Nat.le_succ_of_le enough

theorem returned_le_remaining (calls : Nat)
    (moves : ∀ t, Reaches s t → ¬ t.skipWhiteSpace.Stuck) : returned calls s ≤ s.remaining := by
  induction calls generalizing s with
  | zero => exact Nat.zero_le _
  | succ calls ih =>
    rw [returned]
    split
    · exact Nat.zero_le _
    · rename_i t given
      have less := remaining_lt given (moves s .refl)
      have rest := ih fun u reached => moves u (.head given reached)
      omega

/-- At most as many calls give a token as there are runes exactly if no call begins, behind the
blanks, at an '@' with nothing behind it. -/
theorem returned_le_iff (filename : Lib.Str) (data : List Nat) :
    (∀ calls, returned calls { filename, data } ≤ data.length) ↔
      ∀ s, Reaches { filename, data } s → ¬ s.skipWhiteSpace.Stuck := by
  constructor
  · intro bounded s reached stuck
    obtain ⟨calls, enough⟩ := exists_le_returned reached stuck (data.length + 1)
    exact Nat.not_succ_le_self _ (enough.trans (bounded calls))
  · exact fun moves calls => returned_le_remaining calls moves

/-- A lone '@' is given twice. -/
theorem returned_at : returned 2 { filename := [], data := ['@'.toNat] } = 2 := by
  decide

end FastGoZero.Api.Scanner
