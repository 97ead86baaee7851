import FastGoZero.Lib.Runs
import Mathlib.Tactic.Linarith
import Mathlib.Algebra.Order.BigOperators.Group.List

/-!
# The distributed token bucket

The bucket lives in redis as two keys, and a Lua script refills and debits it in one atomic
step. Each call carries the clock of its client. The script refills for the time since the
last call and takes the timestamp of this call as the new one, be it later or earlier.
-/

namespace FastGoZero.Limit

open Lib List

/-- The double nearest to an integer, ties to even: a Lua number has 53 bits. -/
def double (x : Int) : Int :=
  if x.natAbs ≤ 2 ^ 53 then x
  else
    let shift := x.natAbs.log2 - 52
    let kept := x.natAbs / 2 ^ shift
    let cut := x.natAbs % 2 ^ shift
    let rounded :=
      if 2 ^ (shift - 1) < cut ∨ 2 ^ (shift - 1) = cut ∧ kept % 2 = 1 then kept + 1 else kept
    x.sign * (rounded * 2 ^ shift : Nat)

/-- The keys of a bucket: the tokens left, and when they were counted. -/
structure Bucket where
  tokens : Option Int := none
  timestamp : Option Int := none
deriving DecidableEq

/-- What a run of the script writes, with the time to live in seconds, and what it returns. -/
structure ScriptRun where
  bucket : Bucket
  ttl : Int
  allowed : Bool
deriving DecidableEq

inductive ScriptError where
  | invalidExpire
deriving DecidableEq

/-- The script `tokenscript.lua`. Redis rejects `setex` without a positive time to live. -/
def tokenScript (bucket : Bucket) (rate capacity now requested : Int) :
    Except ScriptError ScriptRun :=
  let rate := double rate
  let capacity := double capacity
  let now := double now
  let requested := double requested
  let ttl := (2 * capacity).fdiv rate
  let lastTokens := bucket.tokens.getD capacity
  let lastRefreshed := bucket.timestamp.getD 0
  let delta := max 0 (double (now - lastRefreshed))
  let filledTokens := min capacity (double (lastTokens + double (delta * rate)))
  let allowed := decide (requested ≤ filledTokens)
  let newTokens := if allowed then double (filledTokens - requested) else filledTokens
  if ttl < 1 then .error .invalidExpire
  else .ok ⟨⟨some newTokens, some now⟩, ttl, allowed⟩

/-- What `ScriptRunCtx` gives back. A Lua `true` comes as the integer 1, a `false` as nil. -/
inductive Reply where
  | integer (code : Int)
  | nil
  | contextDone
  | failed
  | unknown
deriving DecidableEq

def replyOf : Except ScriptError ScriptRun → Reply
  | .error _ => .failed
  | .ok run => if run.allowed then .integer 1 else .nil

/-- The decision of `reserveN`, given that of the in-process limiter it may turn to. -/
def reserveN (rescue : Bool) : Reply → Bool
  | .nil => false
  | .contextDone => false
  | .failed => rescue
  | .unknown => rescue
  | .integer code => code == 1

/-- A call of `AllowN`: the clock of the client, the tokens it asks for, and what its
in-process limiter would decide. -/
structure Call where
  now : Int
  n : Int
  rescue : Bool := false
deriving DecidableEq

/-- A call of `AllowN`, with the tokens it grants. -/
def allowN (rate burst : Int) (bucket : Bucket) (call : Call) : Bucket × List Int :=
  let ran := tokenScript bucket rate burst call.now call.n
  ((ran.toOption.map ScriptRun.bucket).getD bucket,
    if reserveN call.rescue (replyOf ran) then [call.n] else [])

/-- The tokens that a sequence of calls is granted. -/
def granted (rate burst : Int) (bucket : Bucket) (calls : List Call) : Int :=
  (Runs.run (allowN rate burst) bucket calls).2.sum

theorem double_exact {x : Int} (low : -2 ^ 53 ≤ x) (high : x ≤ 2 ^ 53) : double x = x := by
  rw [double, if_pos (by omega)]

/-- The numbers of a bucket and of a call are so small that Lua calculates exactly. -/
@[mk_iff] structure Exact (rate burst : Int) (call : Call) : Prop where
  rate_le : rate ≤ 2 ^ 51
  burst_le : burst ≤ 2 ^ 51
  now_le : |call.now| * rate ≤ 2 ^ 51
  n_le : |call.n| ≤ 2 ^ 51

instance (rate burst : Int) (call : Call) : Decidable (Exact rate burst call) :=
  decidable_of_iff _ (exact_iff rate burst call).symm

/-- What the script reads from a bucket. -/
structure Reads (rate burst : Int) (bucket : Bucket) (tokens last : Int) : Prop where
  tokens_eq : bucket.tokens.getD burst = tokens
  last_eq : bucket.timestamp.getD 0 = last
  nonneg : 0 ≤ tokens
  tokens_le : tokens ≤ 2 ^ 52
  last_le : |last| * rate ≤ 2 ^ 51

/-- The tokens in the bucket after the refill. -/
def refilled (rate burst tokens last now : Int) : Int :=
  min burst (tokens + max 0 (now - last) * rate)

theorem abs_le_of_mul_le {x rate : Int} (rate_pos : 1 ≤ rate) (bounded : |x| * rate ≤ 2 ^ 51) :
    -2 ^ 51 ≤ x ∧ x ≤ 2 ^ 51 := by
  have small : |x| ≤ 2 ^ 51 := by nlinarith
  exact abs_le.mp small

variable {last : Int} {times : List Int}

theorem refill_le {now rate : Int} (rate_pos : 1 ≤ rate) (now_le : |now| * rate ≤ 2 ^ 51)
    (last_le : |last| * rate ≤ 2 ^ 51) : max 0 (now - last) * rate ≤ 2 ^ 52 := by
  have apart : max 0 (now - last) ≤ |now| + |last| := by
    have before := neg_abs_le last
    have after := le_abs_self now
    have nonneg := abs_nonneg now
    have positive := abs_nonneg last
    omega
  nlinarith

section

variable {rate burst : Int} (rate_pos : 1 ≤ rate) (burst_pos : 1 ≤ burst)

include rate_pos burst_pos

variable {bucket : Bucket} {tokens last : Int} {call : Call}

theorem refilled_within (nonneg : 0 ≤ tokens) (last now : Int) :
    0 ≤ refilled rate burst tokens last now ∧ refilled rate burst tokens last now ≤ burst := by
  have refill : 0 ≤ max 0 (now - last) * rate := mul_nonneg (le_max_left _ _) (by omega)
  rw [refilled]
  omega

/-- A run of the script on small numbers: refill, then debit if there is enough. -/
theorem tokenScript_eq (lives : rate ≤ 2 * burst) (reads : Reads rate burst bucket tokens last)
    (exact : Exact rate burst call) :
    tokenScript bucket rate burst call.now call.n =
      .ok ⟨⟨some (if call.n ≤ refilled rate burst tokens last call.now then
          refilled rate burst tokens last call.now - call.n
        else refilled rate burst tokens last call.now), some call.now⟩,
        (2 * burst).fdiv rate, decide (call.n ≤ refilled rate burst tokens last call.now)⟩ := by
  have now_le := abs_le_of_mul_le rate_pos exact.now_le
  have last_le := abs_le_of_mul_le rate_pos reads.last_le
  have n_le := abs_le.mp exact.n_le
  have refill := refill_le rate_pos exact.now_le reads.last_le
  have tokens_nonneg := reads.nonneg
  have tokens_le := reads.tokens_le
  have burst_le := exact.burst_le
  have within := refilled_within rate_pos burst_pos tokens_nonneg last call.now
  have ttl : ¬ (2 * burst).fdiv rate < 1 := by
    rw [Int.fdiv_eq_ediv_of_nonneg _ (by omega), Int.not_lt]
    exact (Int.le_ediv_iff_mul_le (by omega)).mpr (by omega)
  simp only [refilled] at within ⊢
  simp (disch := omega) only [tokenScript, double_exact, reads.tokens_eq, reads.last_eq, ttl,
    ↓reduceIte, decide_eq_true_eq]
  rfl

/-- A call grants what it asks for if that is in the refilled bucket. -/
theorem allowN_eq (lives : rate ≤ 2 * burst)
    (reads : Reads rate burst bucket tokens last) (exact : Exact rate burst call) :
    allowN rate burst bucket call = if call.n ≤ refilled rate burst tokens last call.now then
        (⟨some (refilled rate burst tokens last call.now - call.n), some call.now⟩, [call.n])
      else (⟨some (refilled rate burst tokens last call.now), some call.now⟩, []) := by
  have ran := tokenScript_eq rate_pos burst_pos lives reads exact
  simp only [allowN, ran, replyOf, Except.toOption, Option.map_some, Option.getD_some]
  by_cases enough : call.n ≤ refilled rate burst tokens last call.now <;> simp [enough, reserveN]

/-- A call adds the refill to the bucket, cut off at the burst, and takes what it grants. -/
theorem allowN_accounts (lives : rate ≤ 2 * burst) (reads : Reads rate burst bucket tokens last)
    (exact : Exact rate burst call) :
    ∃ left, Reads rate burst (allowN rate burst bucket call).1 left call.now ∧
      (allowN rate burst bucket call).2.sum + left = refilled rate burst tokens last call.now := by
  have n_le := abs_le.mp exact.n_le
  have burst_le := exact.burst_le
  have within := refilled_within rate_pos burst_pos reads.nonneg last call.now
  rw [allowN_eq rate_pos burst_pos lives reads exact]
  by_cases enough : call.n ≤ refilled rate burst tokens last call.now
  · rw [if_pos enough]
    exact ⟨refilled rate burst tokens last call.now - call.n,
      ⟨rfl, rfl, by omega, by omega, exact.now_le⟩, by simp⟩
  · rw [if_neg enough]
    exact ⟨refilled rate burst tokens last call.now,
      ⟨rfl, rfl, by omega, by omega, exact.now_le⟩, by simp⟩

omit rate_pos in
theorem reads_new (burst_le : burst ≤ 2 ^ 51) : Reads rate burst {} burst 0 :=
  ⟨rfl, rfl, by omega, by omega, by simp⟩

end

/-- How far a sequence of timestamps moves forward, steps back not counted. -/
def advance : List Int → Int
  | first :: second :: rest => max 0 (second - first) + advance (second :: rest)
  | _ => 0

/-- The largest timestamp less the smallest. -/
def spread (times : List Int) : Int := times.max?.getD 0 - times.min?.getD 0

theorem granted_cons (rate burst : Int) (bucket : Bucket) (call : Call) (calls : List Call) :
    granted rate burst bucket (call :: calls) =
      (allowN rate burst bucket call).2.sum +
        granted rate burst (allowN rate burst bucket call).1 calls := by
  rw [granted, Runs.run_cons, sum_append, granted]

section

variable {rate burst : Int} (rate_pos : 1 ≤ rate) (burst_pos : 1 ≤ burst)
  (lives : rate ≤ 2 * burst)

include rate_pos burst_pos lives

/-- No more is granted than was in the bucket and came in while the timestamps advanced. -/
theorem granted_le {bucket : Bucket} {tokens : Int} (calls : List Call)
    (reads : Reads rate burst bucket tokens last) (exact : ∀ call ∈ calls, Exact rate burst call) :
    granted rate burst bucket calls ≤ tokens + rate * advance (last :: calls.map Call.now) := by
  induction calls generalizing bucket tokens last with
  | nil => simpa [granted, advance] using reads.nonneg
  | cons call calls ih =>
    obtain ⟨left, next, accounts⟩ := allowN_accounts rate_pos burst_pos lives reads
      (exact call mem_cons_self)
    have later := ih next fun other mem => exact other (mem_cons_of_mem _ mem)
    have refill : refilled rate burst tokens last call.now ≤
        tokens + max 0 (call.now - last) * rate := min_le_right _ _
    rw [granted_cons, map_cons, advance]
    linarith

/-- The first call finds a full bucket, whatever its timestamp. -/
theorem granted_new_le (calls : List Call) (exact : ∀ call ∈ calls, Exact rate burst call) :
    granted rate burst {} calls ≤ burst + rate * advance (calls.map Call.now) := by
  cases calls with
  | nil => simpa [granted, advance] using Int.le_trans (by decide) burst_pos
  | cons call calls =>
    have fits := exact call mem_cons_self
    obtain ⟨left, next, accounts⟩ := allowN_accounts rate_pos burst_pos lives
      (reads_new burst_pos fits.burst_le) fits
    have later := granted_le rate_pos burst_pos lives calls next fun other mem =>
      exact other (mem_cons_of_mem _ mem)
    have full : refilled rate burst burst 0 call.now ≤ burst := min_le_left _ _
    rw [granted_cons, map_cons]
    linarith

end

/-- Calls that each ask for one token a second since the timestamp before. -/
def greedy : Int → List Int → List Call
  | _, [] => []
  | last, now :: times => ⟨now, max 0 (now - last), false⟩ :: greedy now times

theorem now_greedy (last : Int) (times : List Int) : (greedy last times).map Call.now = times := by
  induction times generalizing last with
  | nil => rfl
  | cons now times ih => rw [greedy, map_cons, ih]

section

variable {low burst : Int} (burst_pos : 1 ≤ burst) (burst_le : burst ≤ 2 ^ 51) {times : List Int}

include burst_le

theorem greedy_exact (between : ∀ t ∈ last :: times, low ≤ t ∧ t ≤ low + burst)
    (near : ∀ t ∈ times, |t| ≤ 2 ^ 51) : ∀ call ∈ greedy last times, Exact 1 burst call := by
  induction times generalizing last with
  | nil => simp [greedy]
  | cons now times ih =>
    rw [forall_mem_cons, forall_mem_cons] at between
    rw [forall_mem_cons] at near
    obtain ⟨before, after, others⟩ := between
    rw [greedy, forall_mem_cons]
    refine ⟨⟨by decide, burst_le, by simpa using near.1, ?_⟩, ?_⟩
    · rw [abs_of_nonneg (le_max_left _ _)]
      change max 0 (now - last) ≤ 2 ^ 51
      omega
    · exact ih (forall_mem_cons.mpr ⟨after, others⟩) near.2

include burst_pos

/-- On timestamps that lie within the burst, each call is granted all it asks for. -/
theorem granted_greedy {bucket : Bucket} (reads : Reads 1 burst bucket 0 last)
    (between : ∀ t ∈ last :: times, low ≤ t ∧ t ≤ low + burst) (near : ∀ t ∈ times, |t| ≤ 2 ^ 51) :
    granted 1 burst bucket (greedy last times) = advance (last :: times) := by
  have exact := greedy_exact burst_le between near
  induction times generalizing bucket last with
  | nil => simp [granted, greedy, advance]
  | cons now times ih =>
    rw [greedy, forall_mem_cons] at exact
    have apart := between
    rw [forall_mem_cons, forall_mem_cons] at apart
    have filled : refilled 1 burst 0 last now = max 0 (now - last) := by
      rw [refilled]
      omega
    have called := allowN_eq (by decide) burst_pos (by omega) reads exact.1
    simp only [filled, Int.le_refl, ↓reduceIte, Int.sub_self] at called
    rw [forall_mem_cons] at near
    have next : Reads 1 burst ⟨some 0, some now⟩ 0 now :=
      ⟨rfl, rfl, by decide, by decide, by simpa using near.1⟩
    rw [greedy, granted_cons, called, ih next (forall_mem_cons.mpr apart.2) near.2 exact.2, advance]
    simp

/-- The first call empties the bucket, and the others take what comes in. -/
theorem granted_emptying {first : Int} (between : ∀ t ∈ first :: times, low ≤ t ∧ t ≤ low + burst)
    (near : ∀ t ∈ first :: times, |t| ≤ 2 ^ 51) :
    (∀ call ∈ ⟨first, burst, false⟩ :: greedy first times, Exact 1 burst call) ∧
      granted 1 burst {} (⟨first, burst, false⟩ :: greedy first times) =
        burst + advance (first :: times) := by
  rw [forall_mem_cons] at near
  have exact : Exact 1 burst ⟨first, burst, false⟩ := by
    refine ⟨by decide, burst_le, by simpa using near.1, ?_⟩
    rwa [abs_of_nonneg (by omega : 0 ≤ burst)]
  have filled : refilled 1 burst burst 0 first = burst := by
    rw [refilled]
    omega
  have called := allowN_eq (by decide) burst_pos (by omega) (reads_new burst_pos burst_le) exact
  simp only [filled, Int.le_refl, ↓reduceIte, Int.sub_self] at called
  have next : Reads 1 burst ⟨some 0, some first⟩ 0 first :=
    ⟨rfl, rfl, by decide, by decide, by simpa using near.1⟩
  constructor
  · rw [forall_mem_cons]
    exact ⟨exact, greedy_exact burst_le between near.2⟩
  · rw [granted_cons, called, granted_greedy burst_pos burst_le next between near.2]
    simp

end

/-- The extremes that are taken of timestamps are among them, and the others between. -/
theorem extremes_mem {t : Int} (mem : t ∈ times) :
    times.min?.getD 0 ∈ times ∧ times.max?.getD 0 ∈ times ∧
      times.min?.getD 0 ≤ t ∧ t ≤ times.max?.getD 0 := by
  obtain ⟨low, smallest⟩ := Option.isSome_iff_exists.mp (isSome_min?_of_mem mem)
  obtain ⟨high, largest⟩ := Option.isSome_iff_exists.mp (isSome_max?_of_mem mem)
  rw [smallest, largest]
  obtain ⟨inLow, below⟩ := min?_eq_some_iff.mp smallest
  obtain ⟨inHigh, above⟩ := max?_eq_some_iff.mp largest
  exact ⟨inLow, inHigh, below t mem, above t mem⟩

theorem spread_le (mem : last ∈ times) (near : ∀ t ∈ times, |t| ≤ 2 ^ 50) :
    spread times ≤ 2 ^ 51 := by
  obtain ⟨inLow, inHigh, _⟩ := extremes_mem mem
  have above := abs_le.mp (near _ inHigh)
  have below := abs_le.mp (near _ inLow)
  rw [spread]
  omega

/-- The bound by the spread of the timestamps holds for every rate, burst and requests exactly
if the timestamps do not move forward by more than their spread. -/
theorem granted_le_spread_iff (times : List Int) (near : ∀ t ∈ times, |t| ≤ 2 ^ 50) :
    (∀ rate burst calls, 1 ≤ rate → 1 ≤ burst → rate ≤ 2 * burst → calls.map Call.now = times →
      (∀ call ∈ calls, Exact rate burst call) →
        granted rate burst {} calls ≤ burst + rate * spread times) ↔
      advance times ≤ spread times := by
  constructor
  · intro bounded
    cases times with
    | nil => decide
    | cons first rest =>
      -- With a burst of the whole spread every refill fits into the bucket.
      have apart := spread_le mem_cons_self near
      have between : ∀ t ∈ first :: rest, (first :: rest).min?.getD 0 ≤ t ∧
          t ≤ (first :: rest).min?.getD 0 + max 1 (spread (first :: rest)) := by
        intro t mem
        have within := extremes_mem mem
        rw [spread]
        omega
      have close : ∀ t ∈ first :: rest, |t| ≤ 2 ^ 51 := by
        intro t mem
        exact (near t mem).trans (by decide)
      obtain ⟨exact, all⟩ := granted_emptying (by omega) (by omega) between close
      have most := bounded 1 _ _ (by decide) (by omega) (by omega)
        (by rw [map_cons, now_greedy]) exact
      rw [all] at most
      omega
  · rintro forward rate burst calls rate_pos burst_pos lives rfl exact
    have most := granted_new_le rate_pos burst_pos lives calls exact
    nlinarith

/-- Two clients whose clocks are a second apart. -/
theorem granted_le_spread_ordered :
    granted 1 1 {} [⟨9, 1, false⟩, ⟨10, 1, false⟩, ⟨10, 1, false⟩] ≤ 1 + 1 * spread [9, 10, 10] :=
  (granted_le_spread_iff [9, 10, 10] (by decide)).mpr (by decide) 1 1 _ (by decide) (by decide)
    (by decide) rfl (by decide)

/-- One clock is behind: each of its calls turns the timestamp back, and the next call with
the other clock is granted a second time for the same second. -/
theorem granted_exceeds_spread :
    1 + 1 * spread [10, 9, 10, 9, 10] <
      granted 1 1 {} [⟨10, 1, false⟩, ⟨9, 1, false⟩, ⟨10, 1, false⟩, ⟨9, 1, false⟩,
        ⟨10, 1, false⟩] := by
  decide

/-- A call on keys that redis expires at a time of its own clock, with the decision of the script
if there is one. -/
def expiringCall (rate burst : Int) (s : Bucket × Int) (call : Call) :
    (Bucket × Int) × List (Option Bool) :=
  match tokenScript (if s.2 ≤ call.now then {} else s.1) rate burst call.now call.n with
  | .ok ran => ((ran.bucket, call.now + ran.ttl), [some ran.allowed])
  | .error _ => (s, [none])

/-- A call on a bucket that never expires, with its tokens and when they were counted. -/
def lastingCall (rate burst : Int) (s : Int × Int) (call : Call) :
    (Int × Int) × List (Option Bool) :=
  let filled := refilled rate burst s.1 s.2 call.now
  ((if call.n ≤ filled then filled - call.n else filled, call.now), [some (call.n ≤ filled)])

section

variable {rate burst : Int} (rate_pos : 1 ≤ rate) (burst_pos : 1 ≤ burst)

include rate_pos

/-- The time to live is long enough to fill the bucket. -/
theorem burst_le_ttl (lives : rate ≤ 2 * burst) : burst ≤ (2 * burst).fdiv rate * rate := by
  rw [Int.fdiv_eq_ediv_of_nonneg _ (by omega)]
  have split := Int.mul_ediv_add_emod (2 * burst) rate
  have rest := Int.emod_lt_of_pos (2 * burst) (by omega : 0 < rate)
  have once : 1 ≤ 2 * burst / rate := (Int.le_ediv_iff_mul_le (by omega)).mpr (by omega)
  nlinarith

include burst_pos

/-- What the script reads fills up as the bucket that never expires, also from expired keys. -/
theorem reads_expiring (lives : rate ≤ 2 * burst) {bucket : Bucket} {expires tokens last : Int}
    {call : Call} (exact : Exact rate burst call) (reads : Reads rate burst bucket tokens last)
    (kept : bucket = {} ∨ expires = last + (2 * burst).fdiv rate) :
    ∃ tokens' last', Reads rate burst (if expires ≤ call.now then {} else bucket) tokens' last' ∧
      refilled rate burst tokens' last' call.now = refilled rate burst tokens last call.now := by
  rcases kept with rfl | rfl
  · exact ⟨tokens, last, by rwa [ite_self], rfl⟩
  · split_ifs with expired
    · refine ⟨burst, 0, reads_new burst_pos exact.burst_le, ?_⟩
      have long := burst_le_ttl rate_pos lives
      have nonneg := reads.nonneg
      have refill : burst ≤ max 0 (call.now - last) * rate := by
        have apart : (2 * burst).fdiv rate ≤ max 0 (call.now - last) := by omega
        nlinarith
      have more : 0 ≤ max 0 (call.now - 0) * rate := mul_nonneg (le_max_left _ _) (by omega)
      rw [refilled, refilled]
      omega
    · exact ⟨tokens, last, reads, rfl⟩

theorem decisions_same (lives : rate ≤ 2 * burst) {bucket : Bucket} {expires tokens last : Int}
    {calls : List Call} (exact : ∀ call ∈ calls, Exact rate burst call)
    (reads : Reads rate burst bucket tokens last)
    (kept : bucket = {} ∨ expires = last + (2 * burst).fdiv rate) :
    (Runs.run (expiringCall rate burst) (bucket, expires) calls).2 =
      (Runs.run (lastingCall rate burst) (tokens, last) calls).2 := by
  induction calls generalizing bucket expires tokens last with
  | nil => rfl
  | cons call calls ih =>
    rw [forall_mem_cons] at exact
    obtain ⟨tokens', last', reads', same⟩ :=
      reads_expiring rate_pos burst_pos lives exact.1 reads kept
    have ran := tokenScript_eq rate_pos burst_pos lives reads' exact.1
    rw [same] at ran
    have within := refilled_within rate_pos burst_pos reads.nonneg last call.now
    have n_le := abs_le.mp exact.1.n_le
    have burst_le := exact.1.burst_le
    rw [Runs.run_cons, Runs.run_cons, expiringCall, ran]
    refine congrArg (_ :: ·) (ih exact.2 ⟨rfl, rfl, ?_, ?_, exact.1.now_le⟩ (Or.inr rfl))
    · dsimp only
      split <;> omega
    · dsimp only
      split <;> omega

end

/-- The keys expire without an effect on the decisions exactly if their time to live is one. -/
theorem expiry_harmless_iff (rate burst : Int) (rate_pos : 1 ≤ rate) (burst_pos : 1 ≤ burst)
    (calls : List Call) (exact : ∀ call ∈ calls, Exact rate burst call) :
    (Runs.run (expiringCall rate burst) ({}, 0) calls).2 =
        (Runs.run (lastingCall rate burst) (burst, 0) calls).2 ↔
      calls = [] ∨ rate ≤ 2 * burst := by
  constructor
  · intro same
    cases calls with
    | nil => exact Or.inl rfl
    | cons call calls =>
      right
      by_contra short
      have rate_le := (exact call mem_cons_self).rate_le
      have ttl : (2 * burst).fdiv rate < 1 := by
        rw [Int.fdiv_eq_ediv_of_nonneg _ (by omega)]
        exact Int.ediv_lt_of_lt_mul (by omega) (by omega)
      have refused (bucket : Bucket) :
          tokenScript bucket rate burst call.now call.n = .error .invalidExpire := by
        simp (disch := omega) only [tokenScript, double_exact, ttl, ↓reduceIte]
      rw [Runs.run_cons, Runs.run_cons, expiringCall, refused] at same
      cases (cons.inj same).1
  · rintro (rfl | lives)
    · rfl
    · cases calls with
      | nil => rfl
      | cons call calls =>
        exact decisions_same rate_pos burst_pos lives exact
          (reads_new burst_pos (exact call mem_cons_self).burst_le) (Or.inl rfl)

/-- The bucket is emptied and its keys expire. -/
theorem expiry_harmless_two :
    (Runs.run (expiringCall 1 1) ({}, 0) [⟨5, 1, false⟩, ⟨8, 1, false⟩]).2 =
      (Runs.run (lastingCall 1 1) (1, 0) [⟨5, 1, false⟩, ⟨8, 1, false⟩]).2 :=
  (expiry_harmless_iff 1 1 (by decide) (by decide) _ (by decide)).mpr
    (by decide)

/-- Three tokens a second and a burst of one: the time to live is no second, and redis refuses to
write the keys. -/
theorem expiry_rejected :
    (Runs.run (expiringCall 3 1) ({}, 0) [⟨5, 1, false⟩]).2 ≠
      (Runs.run (lastingCall 3 1) (1, 0) [⟨5, 1, false⟩]).2 := by
  decide

end FastGoZero.Limit
