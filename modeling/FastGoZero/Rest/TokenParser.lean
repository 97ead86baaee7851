import FastGoZero.Lib.GoMap
import FastGoZero.Lib.GoString
import Mathlib.Algebra.Group.Nat.Defs
import Mathlib.Data.List.Chain

/-!
# The parser of JSON web tokens

The parser counts which secrets have verified tokens, tries the more used one of two first, and
forgets the counts once its reset duration is over. The time it measures from is written only when
the parser is made: from then on every call that counts clears the history first.
-/

namespace FastGoZero.Rest

open Lib

/-- Times and durations are 64-bit numbers of nanoseconds. -/
structure TokenParser where
  resetTime : Int
  resetDuration : Int
  history : GoMap Str UInt64

/-- A call with the header `Authorization` of its request and the time that it reads. -/
structure Call where
  now : Int
  authorization : Str
  secret : Str
  prevSecret : Str

variable {Token Err : Type} (parseWithClaims : Str → Str → Except Err Token)

/-- `strings.ToUpper`, as far as a comparison with ASCII text sees it. -/
def toUpper (text : Str) : Str := text.map fun c => if 97 ≤ c ∧ c ≤ 122 then c - 32 else c

def doParseToken (authorization secret : Str) : Except Err Token :=
  if 6 < authorization.length ∧ toUpper (authorization.take 7) = Str.bytes "BEARER " then
    parseWithClaims (authorization.drop 7) secret
  else parseWithClaims authorization secret

/-- The call has a previous secret, and one of the two verifies its token. -/
def Call.counts (call : Call) : Bool :=
  call.prevSecret ≠ [] && ((doParseToken parseWithClaims call.authorization call.secret).isOk ||
    (doParseToken parseWithClaims call.authorization call.prevSecret).isOk)

namespace TokenParser

variable (tp : TokenParser)

def loadCount (secret : Str) : UInt64 := (tp.history.lookup secret).getD 0

def expired (now : Int) : Bool := (tp.resetTime + tp.resetDuration).bmod (2 ^ 64) < now

/-- The parser with its new count, and whether the history was cleared before. -/
def incrementCount (now : Int) (secret : Str) : TokenParser × Bool :=
  let history := if tp.expired now then ∅ else tp.history
  let count := match history.lookup secret with
    | some count => count + 1
    | none => 1
  ({ tp with history := history.insert secret count }, tp.expired now)

def parseToken (call : Call) : Except Err Token × TokenParser × Bool :=
  if call.prevSecret ≠ [] then
    let (first, second) :=
      if tp.loadCount call.secret > tp.loadCount call.prevSecret then
        (call.secret, call.prevSecret)
      else (call.prevSecret, call.secret)
    match doParseToken parseWithClaims call.authorization first with
    | .ok token => (.ok token, tp.incrementCount call.now first)
    | .error _ =>
      match doParseToken parseWithClaims call.authorization second with
      | .ok token => (.ok token, tp.incrementCount call.now second)
      | .error err => (.error err, tp, false)
  else (doParseToken parseWithClaims call.authorization call.secret, tp, false)

/-- The times of the calls that clear the history. -/
def clearings : TokenParser → List Call → List Int
  | _, [] => []
  | tp, call :: calls =>
    let (_, after, cleared) := tp.parseToken parseWithClaims call
    if cleared then call.now :: clearings after calls else clearings after calls

theorem parseToken_spec (call : Call) :
    (tp.parseToken parseWithClaims call).2.2 =
        (call.counts parseWithClaims && tp.expired call.now) ∧
      (tp.parseToken parseWithClaims call).2.1.expired = tp.expired := by
  fun_cases parseToken with
  | case1 named first second order token verified
  | case2 named first second order _ _ token verified =>
    refine ⟨?_, rfl⟩
    have counted : call.counts parseWithClaims = true := by
      split_ifs at order <;> cases order <;>
        simp [Call.counts, named, verified, Except.isOk, Except.toBool]
    rw [counted, Bool.true_and]
    rfl
  | case3 named first second order _ failed err failed' =>
    have uncounted : call.counts parseWithClaims = false := by
      split_ifs at order <;> cases order <;>
        simp [Call.counts, failed, failed', Except.isOk, Except.toBool]
    rw [uncounted]
    exact ⟨rfl, rfl⟩
  | case4 alone => simp_all [Call.counts]

theorem clearings_eq (calls : List Call) :
    tp.clearings parseWithClaims calls =
      (calls.filter fun call => call.counts parseWithClaims && tp.expired call.now).map
        Call.now := by
  induction calls generalizing tp with
  | nil => rfl
  | cons call calls ih =>
    obtain ⟨cleared, kept⟩ := tp.parseToken_spec parseWithClaims call
    simp only [clearings, List.filter_cons, ← cleared, ih, kept]
    split <;> rfl

/-- The clearings of a run are apart by the duration exactly if the calls are that count after the
first one is due. -/
theorem clearings_apart_iff (calls : List Call) :
    (tp.clearings parseWithClaims calls).IsChain (fun a b => a + tp.resetDuration ≤ b) ↔
      (calls.filter fun call => call.counts parseWithClaims && tp.expired call.now).IsChain
        (fun a b => a.now + tp.resetDuration ≤ b.now) := by
  rw [clearings_eq, List.isChain_map]

/-- A day after the parser was made, two calls in succession both clear the history. -/
theorem clearings_adjacent :
    clearings (fun _ secret => if secret = Str.bytes "new" then .ok () else .error ())
      ⟨0, 86400000000000, ∅⟩
      [⟨86400000000001, Str.bytes "Bearer t", Str.bytes "new", Str.bytes "old"⟩,
        ⟨86400000000002, Str.bytes "Bearer t", Str.bytes "new", Str.bytes "old"⟩] =
      [86400000000001, 86400000000002] ∧
    ¬ [86400000000001, 86400000000002].IsChain (fun a b : Int => a + 86400000000000 ≤ b) := by
  decide

end TokenParser

end FastGoZero.Rest
