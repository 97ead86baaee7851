import Mathlib.Algebra.Order.Field.Rat
import Mathlib.Tactic.GCongr
import Mathlib.Tactic.Linarith
import Mathlib.Tactic.Positivity

/-!
# The drop probability of the breaker

`accept` computes from the buckets of its window how likely a request is dropped. The window has
forty buckets, from the oldest on, and a bucket counts what was recorded in it. The numbers are
rational here; the source calculates with floats.
-/

namespace FastGoZero.Breaker

/-- What is recorded of a request. -/
inductive Mark where
  | success
  | fail
  | drop

structure Bucket where
  sum : Nat := 0
  success : Nat := 0
  failure : Nat := 0
  drop : Nat := 0

def Bucket.add (b : Bucket) : Mark → Bucket
  | .fail => { b with sum := b.sum + 1, failure := b.failure + 1 }
  | .drop => { b with sum := b.sum + 1, drop := b.drop + 1 }
  | .success => { b with sum := b.sum + 1, success := b.success + 1 }

structure WindowResult where
  accepts : Nat := 0
  total : Nat := 0
  failingBuckets : Nat := 0
  workingBuckets : Nat := 0

/-- What `history` does with a bucket. -/
def WindowResult.visit (r : WindowResult) (b : Bucket) : WindowResult where
  accepts := r.accepts + b.success
  total := r.total + b.sum
  failingBuckets :=
    if 0 < b.success then 0 else if 0 < b.failure then r.failingBuckets + 1 else r.failingBuckets
  workingBuckets :=
    if 0 < b.failure then 0 else if 0 < b.success then r.workingBuckets + 1 else r.workingBuckets

/-- The history of a window, of which each bucket has got some marks. -/
def history (window : List (List Mark)) : WindowResult :=
  (window.map (·.foldl Bucket.add {})).foldl WindowResult.visit {}

/-- The weight of an accepted request. -/
def weight (h : WindowResult) : ℚ :=
  max (3 / 2 - (3 / 2 - 11 / 10) * h.failingBuckets / 40) (11 / 10)

def dropRatio (h : WindowResult) : ℚ := (h.total - 5 - weight h * h.accepts) / (h.total + 1)

/-- The probability with which `accept` drops a request, unless it lets one pass after a while. -/
def dropProbability (h : WindowResult) : ℚ :=
  if dropRatio h ≤ 0 then 0 else dropRatio h * ((40 - h.workingBuckets) / 40)

/-- The second history has more successes, and otherwise as many requests. -/
structure Better (h h' : WindowResult) : Prop where
  total : h'.total = h.total
  accepts : h.accepts ≤ h'.accepts
  failing : h'.failingBuckets ≤ h.failingBuckets
  working : h.workingBuckets ≤ h'.workingBuckets

variable {h h' : WindowResult}

theorem Better.visit (better : Better h h') (b : Bucket) : Better (h.visit b) (h'.visit b) := by
  obtain ⟨total, accepts, failing, working⟩ := better
  constructor <;> simp only [WindowResult.visit] <;> (try split_ifs) <;> omega

theorem Better.foldl (better : Better h h') (buckets : List Bucket) :
    Better (buckets.foldl WindowResult.visit h) (buckets.foldl WindowResult.visit h') := by
  induction buckets generalizing h h' with
  | nil => exact better
  | cons b buckets ih => exact ih (better.visit b)

theorem weight_pos (h : WindowResult) : 11 / 10 ≤ weight h := le_max_right _ _

theorem Better.dropRatio_le (better : Better h h') : dropRatio h' ≤ dropRatio h := by
  have weights : weight h ≤ weight h' := by
    have failing := better.failing
    unfold weight
    gcongr
  have accepts : weight h * h.accepts ≤ weight h' * h'.accepts := by
    have more := better.accepts
    have positive := (weight_pos h).trans weights
    gcongr
  unfold dropRatio
  rw [better.total]
  gcongr

theorem Better.dropProbability_le (better : Better h h') (most : h'.workingBuckets ≤ 40) :
    dropProbability h' ≤ dropProbability h := by
  have ratio := better.dropRatio_le
  have working : (h.workingBuckets : ℚ) ≤ h'.workingBuckets := by exact_mod_cast better.working
  have room : (h'.workingBuckets : ℚ) ≤ 40 := by exact_mod_cast most
  unfold dropProbability
  split_ifs
  · exact le_rfl
  · exact mul_nonneg (by linarith) (by linarith)
  · linarith
  · gcongr
    linarith

theorem dropProbability_range (most : h.workingBuckets ≤ 40) :
    0 ≤ dropProbability h ∧ dropProbability h < 1 := by
  have room : (h.workingBuckets : ℚ) ≤ 40 := by exact_mod_cast most
  have below : dropRatio h < 1 := by
    have accepts : 0 ≤ weight h * h.accepts := by
      have positive := weight_pos h
      positivity
    rw [dropRatio, div_lt_one (by positivity)]
    linarith
  unfold dropProbability
  split_ifs
  · exact ⟨le_rfl, one_pos⟩
  · refine ⟨mul_nonneg (by linarith) (by linarith), ?_⟩
    nlinarith

/-- The second bucket has a success where the first one has a failure. -/
structure Repaired (b b' : Bucket) : Prop where
  sum : b'.sum = b.sum
  success : b'.success = b.success + 1
  failure : b.failure = b'.failure + 1

theorem Repaired.foldl {b b' : Bucket} (repaired : Repaired b b') (marks : List Mark) :
    Repaired (marks.foldl Bucket.add b) (marks.foldl Bucket.add b') := by
  induction marks generalizing b b' with
  | nil => exact repaired
  | cons mark marks ih =>
    obtain ⟨sum, success, failure⟩ := repaired
    apply ih
    cases mark <;> constructor <;> simp only [Bucket.add] <;> omega

theorem Repaired.visit {b b' : Bucket} (repaired : Repaired b b') (h : WindowResult) :
    Better (h.visit b) (h.visit b') := by
  obtain ⟨sum, success, failure⟩ := repaired
  constructor <;> simp only [WindowResult.visit] <;> (try split_ifs) <;> omega

theorem workingBuckets_le (h : WindowResult) (buckets : List Bucket) :
    (buckets.foldl WindowResult.visit h).workingBuckets ≤ h.workingBuckets + buckets.length := by
  induction buckets generalizing h with
  | nil => exact le_rfl
  | cons b buckets ih =>
    refine (ih (h.visit b)).trans ?_
    simp only [WindowResult.visit, List.length_cons]
    split_ifs <;> omega

theorem successes_only {window : List (List Mark)}
    (only : ∀ marks ∈ window, ∀ mark ∈ marks, mark = .success) :
    (history window).total = (history window).accepts := by
  have full : ∀ marks ∈ window, (marks.foldl Bucket.add {}).sum =
      (marks.foldl Bucket.add {}).success := by
    intro marks mem
    refine List.foldlRecOn (motive := fun b : Bucket => b.sum = b.success) marks _ rfl ?_
    intro b same mark among
    rw [only marks mem mark among]
    exact congrArg (· + 1) same
  refine List.foldlRecOn (motive := fun h : WindowResult => h.total = h.accepts) _ _ rfl ?_
  intro h same b mem
  obtain ⟨marks, within, rfl⟩ := List.mem_map.mp mem
  exact congrArg₂ (· + ·) same (full marks within)

/-- For every window, the drop probability is at least 0 and below 1; it is 0 for at most five
requests, and for successes only; and a success in the place of a failure does not increase it. -/
theorem dropProbability_monotone (window : List (List Mark)) (size : window.length ≤ 40) :
    (0 ≤ dropProbability (history window) ∧ dropProbability (history window) < 1) ∧
      ((history window).total ≤ 5 ∨ (∀ marks ∈ window, ∀ mark ∈ marks, mark = .success) →
        dropProbability (history window) = 0) ∧
      ∀ front before after back, window = front ++ (before ++ .fail :: after) :: back →
        dropProbability (history (front ++ (before ++ .success :: after) :: back)) ≤
          dropProbability (history window) := by
  have most (window : List (List Mark)) (size : window.length ≤ 40) :
      (history window).workingBuckets ≤ 40 := by
    refine (workingBuckets_le {} _).trans ?_
    rwa [List.length_map, Nat.zero_add]
  refine ⟨dropProbability_range (most window size), fun few => if_pos ?_, ?_⟩
  · apply div_nonpos_of_nonpos_of_nonneg _ (by positivity)
    have positive := weight_pos (history window)
    rcases few with few | only
    · have few : ((history window).total : ℚ) ≤ 5 := by exact_mod_cast few
      nlinarith
    · rw [successes_only only]
      nlinarith
  · rintro front before after back rfl
    have better : Better (history (front ++ (before ++ .fail :: after) :: back))
        (history (front ++ (before ++ .success :: after) :: back)) := by
      simp only [history, List.map_append, List.map_cons, List.foldl_append, List.foldl_cons]
      apply Better.foldl
      apply Repaired.visit
      apply Repaired.foldl
      exact ⟨rfl, rfl, rfl⟩
    exact better.dropProbability_le (most _ (by simpa using size))

/-- Ten failures in one bucket, of which one is replaced. -/
theorem dropProbability_monotone_ten :
    dropProbability (history [.success :: List.replicate 9 .fail]) ≤
      dropProbability (history [List.replicate 10 .fail]) :=
  (dropProbability_monotone [List.replicate 10 .fail] (by decide)).2.2 [] [] _ [] rfl

end FastGoZero.Breaker
