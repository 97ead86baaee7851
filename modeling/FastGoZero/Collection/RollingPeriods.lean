import FastGoZero.Collection.RollingWindow

/-!
# Accuracy of the rolling window

Time is divided into periods from the creation of the window on. The list of the buckets follows
it: the bucket at each place holds exactly the values that were added in the period of that
place, however long the window was left alone in between. So a `Reduce` passes exactly the values
of the last periods.
-/

namespace FastGoZero.Collection

open Lib List

universe u v

def period (start interval t : Int) : Int := (t - start) / interval

/-- So many periods from one on. -/
def periodsFrom : Int → Nat → List Int
  | _, 0 => []
  | p, count + 1 => p :: periodsFrom (p + 1) count

theorem periodsFrom_add (p : Int) (first second : Nat) :
    periodsFrom p (first + second) = periodsFrom p first ++ periodsFrom (p + first) second := by
  induction first generalizing p with
  | zero => simp [periodsFrom]
  | succ first ih =>
    have regroup : p + 1 + (first : Int) = p + ((first + 1 : Nat) : Int) := by omega
    rw [Nat.add_right_comm, periodsFrom, ih, periodsFrom, cons_append, regroup]

@[simp] theorem length_periodsFrom (p : Int) (count : Nat) :
    (periodsFrom p count).length = count := by
  induction count generalizing p with
  | zero => rfl
  | succ count ih => rw [periodsFrom, length_cons, ih]

theorem mem_periodsFrom {p probe : Int} {count : Nat} :
    probe ∈ periodsFrom p count ↔ p ≤ probe ∧ probe < p + count := by
  induction count generalizing p with
  | zero =>
    simp only [periodsFrom, not_mem_nil, false_iff]
    omega
  | succ count ih =>
    rw [periodsFrom, mem_cons, ih]
    omega

theorem nodup_periodsFrom (p : Int) (count : Nat) : (periodsFrom p count).Nodup := by
  induction count generalizing p with
  | zero => exact nodup_nil
  | succ count ih =>
    refine nodup_cons.mpr ⟨?_, ih (p + 1)⟩
    rw [mem_periodsFrom]
    omega

theorem take_periodsFrom (p : Int) (count dropped : Nat) :
    (periodsFrom p (count + dropped)).take count = periodsFrom p count := by
  rw [periodsFrom_add, take_left' (length_periodsFrom p count)]

theorem drop_periodsFrom (p : Int) (dropped count : Nat) :
    (periodsFrom p (dropped + count)).drop dropped = periodsFrom (p + dropped) count := by
  rw [periodsFrom_add, drop_left' (length_periodsFrom p dropped)]

/-- Whether a period is one of the last ones, the current one left out if it is ignored. -/
def inWindow (size : Nat) (ignoreCurrent : Bool) (current p : Int) : Bool :=
  decide (current - size < p) && if ignoreCurrent then decide (p < current)
    else decide (p ≤ current)

variable {ignoreCurrent : Bool} {size : Nat}

theorem inWindow_iff {current p : Int} : inWindow size ignoreCurrent current p = true ↔
      current - size < p ∧ p ≤ current ∧ (ignoreCurrent = true → p < current) := by
  rw [inWindow, Bool.and_eq_true, decide_eq_true_eq]
  cases ignoreCurrent with
  | true =>
    simp only [if_true, decide_eq_true_eq, true_implies]
    omega
  | false => simp

variable {T : Type u} {B : Type v} [BucketInterface T B]

/-- A bucket with the values that were added in a period. -/
def held (newBucket : B) (start interval : Int) (history : List (Int × T)) (p : Int) : B :=
  ((history.filter fun entry => period start interval entry.1 == p).map Prod.snd).foldl
    BucketInterface.add newBucket

section

variable {newBucket : B} {start interval t : Int} {history : List (Int × T)} {p : Int}

theorem held_eq_new (none : ∀ entry ∈ history, period start interval entry.1 ≠ p) :
    held newBucket start interval history p = newBucket := by
  have empty : history.filter (fun entry => period start interval entry.1 == p) = [] := by
    rw [filter_eq_nil_iff]
    intro entry mem
    simpa using none entry mem
  rw [held, empty]
  rfl

theorem held_append_same (v : T) (same : period start interval t = p) :
    held newBucket start interval (history ++ [(t, v)]) p =
      BucketInterface.add (held newBucket start interval history p) v := by
  rw [held, held, filter_append, map_append, foldl_append]
  have one : [(t, v)].filter (fun entry => period start interval entry.1 == p) = [(t, v)] := by
    rw [filter_cons_of_pos, filter_nil]
    exact beq_iff_eq.mpr same
  rw [one]
  rfl

theorem held_append_other (v : T) (other : period start interval t ≠ p) :
    held newBucket start interval (history ++ [(t, v)]) p =
      held newBucket start interval history p := by
  have none : [(t, v)].filter (fun entry => period start interval entry.1 == p) = [] := by
    rw [filter_cons_of_neg, filter_nil]
    simpa using other
  rw [held, held, filter_append, none, append_nil]

end

/-- The window has followed the clock: its buckets hold what was added in their periods. -/
structure Tracks (newBucket : B) (start : Int) (history : List (Int × T)) (clock : Int)
    (w : RollingWindow B) : Prop where
  positive : 0 < w.interval
  aligned : w.lastTime = start + period start w.interval w.lastTime * w.interval
  reached : w.lastTime ≤ clock
  past : ∀ entry ∈ history,
    period start w.interval entry.1 ≤ period start w.interval w.lastTime
  view_eq : w.view =
    (periodsFrom (period start w.interval w.lastTime - w.size + 1) w.size).map
      (held newBucket start w.interval history)

namespace Tracks

variable {newBucket : B} {start clock now : Int} {history : List (Int × T)} {w : RollingWindow B}

theorem later (tracks : Tracks newBucket start history clock w) (ordered : clock ≤ now) :
    Tracks newBucket start history now w :=
  { tracks with reached := tracks.reached.trans ordered }

section

variable (tracks : Tracks newBucket start history now w)

include tracks

theorem elapsed : (now - w.lastTime) / w.interval =
    period start w.interval now - period start w.interval w.lastTime := by
  have split : now - start =
      now - w.lastTime + period start w.interval w.lastTime * w.interval := by
    have aligned := tracks.aligned
    omega
  have positive := tracks.positive
  have shifted : period start w.interval now =
      (now - w.lastTime) / w.interval + period start w.interval w.lastTime := by
    rw [period, split, Int.add_mul_ediv_right _ _ (by omega)]
  omega

theorem elapsed_nonneg : 0 ≤ period start w.interval now - period start w.interval w.lastTime := by
  rw [← tracks.elapsed]
  have reached := tracks.reached
  exact Int.ediv_nonneg (by omega) (Int.le_of_lt tracks.positive)

theorem span_eq : (w.span now : Int) =
    min (period start w.interval now - period start w.interval w.lastTime) w.size := by
  have reached := tracks.reached
  have nonneg := tracks.elapsed_nonneg
  rw [RollingWindow.span, Int.tdiv_eq_ediv_of_nonneg (by omega), tracks.elapsed]
  split <;> omega

end

/-- The last bucket's period begins at a multiple of the interval. -/
theorem realigned (tracks : Tracks newBucket start history now w) :
    now - (now - w.lastTime).tmod w.interval =
      start + period start w.interval now * w.interval := by
  have aligned := tracks.aligned
  have reached := tracks.reached
  have whole := Int.mul_ediv_add_emod (now - w.lastTime) w.interval
  rw [tracks.elapsed, Int.mul_comm, Int.sub_mul] at whole
  rw [Int.tmod_eq_emod_of_nonneg (by omega)]
  omega

omit [BucketInterface T B] in
theorem period_aligned {interval : Int} (positive : 0 < interval) (p : Int) :
    period start interval (start + p * interval) = p := by
  rw [period, Int.add_comm, Int.add_sub_cancel, Int.mul_ediv_cancel _ (by omega)]

section

variable (tracks : Tracks newBucket start history now w)

include tracks

/-- New buckets stand for the periods in which nothing was added. -/
theorem view_shift : w.view.drop (w.span now) ++ replicate (w.span now) newBucket =
      (periodsFrom (period start w.interval now - w.size + 1) w.size).map
        (held newBucket start w.interval history) := by
  have span := tracks.span_eq
  have past := tracks.past
  have view := tracks.view_eq
  obtain ⟨kept, size⟩ : ∃ kept, w.size = w.span now + kept := ⟨w.size - w.span now, by omega⟩
  generalize period start w.interval w.lastTime = last at span past view
  generalize period start w.interval now = current at span ⊢
  have blank (p : Int) (count : Nat) (after : last < p) :
      (periodsFrom p count).map (held newBucket start w.interval history) =
        replicate count newBucket := by
    rw [eq_replicate_iff]
    refine ⟨by rw [length_map, length_periodsFrom], ?_⟩
    intro bucket mem
    obtain ⟨q, inside, rfl⟩ := mem_map.mp mem
    apply held_eq_new
    intro entry stored same
    have old := past entry stored
    have range := mem_periodsFrom.mp inside
    omega
  rcases Int.lt_or_le (current - last) w.size with recent | outdated
  · have first : last - w.size + 1 + w.span now = current - w.size + 1 := by omega
    have kept_eq : w.view.drop (w.span now) = (periodsFrom (current - w.size + 1) kept).map
        (held newBucket start w.interval history) := by
      rw [view, ← map_drop, ← first]
      nth_rewrite 2 [size]
      rw [drop_periodsFrom]
    rw [kept_eq, ← blank (current - w.size + 1 + kept) _ (by omega), ← map_append,
      ← periodsFrom_add, Nat.add_comm, ← size]
  · have all : w.span now = w.size := by omega
    rw [all, drop_eq_nil_of_le (Nat.le_of_eq w.length_view), nil_append]
    exact (blank _ _ (by omega)).symm

/-- After `updateOffset` the last bucket is that of the current period. -/
theorem updateOffset (fresh : ∀ b : B, BucketInterface.reset T b = newBucket) :
    Tracks newBucket start history now (w.updateOffset T now) ∧
      period start w.interval (w.updateOffset T now).lastTime = period start w.interval now := by
  have shifted := (RollingWindow.view_updateOffset fresh w now).trans tracks.view_shift
  have size_pos := w.size_pos
  have span := tracks.span_eq
  rw [RollingWindow.updateOffset] at shifted ⊢
  split_ifs with moved
  · exact ⟨tracks, by omega⟩
  · rw [if_neg moved] at shifted
    have same : period start w.interval (now - (now - w.lastTime).tmod w.interval) =
        period start w.interval now := by
      rw [tracks.realigned, period_aligned tracks.positive]
    refine ⟨⟨tracks.positive, ?_, ?_, ?_, ?_⟩, same⟩
    · exact tracks.realigned.trans (by rw [same])
    · have rest := Int.tmod_nonneg w.interval (a := now - w.lastTime)
        (by have reached := tracks.reached; omega)
      exact Int.sub_le_self _ rest
    · intro entry mem
      have old := tracks.past entry mem
      change period start w.interval entry.1 ≤ _
      rw [same]
      omega
    · refine shifted.trans ?_
      rw [same]

theorem addLast (current : period start w.interval w.lastTime = period start w.interval now) (v : T)
    : Tracks newBucket start (history ++ [(now, v)]) now
      { w with win := w.win.add w.offset v } := by
  refine { tracks with past := ?_, view_eq := ?_ }
  · intro entry mem
    rcases mem_append.mp mem with old | new
    · exact tracks.past entry old
    · rw [mem_singleton.mp new]
      exact Int.le_of_eq current.symm
  · have size_pos := w.size_pos
    have lastPeriod : period start w.interval w.lastTime - w.size + 1 + (w.size - 1 : Nat) =
        period start w.interval now := by omega
    rw [RollingWindow.view_addLast, tracks.view_eq]
    generalize period start w.interval w.lastTime - w.size + 1 = first at lastPeriod ⊢
    have others : ∀ p ∈ periodsFrom first (w.size - 1),
        held newBucket start w.interval (history ++ [(now, v)]) p =
          held newBucket start w.interval history p := by
      intro p mem
      have range := mem_periodsFrom.mp mem
      exact held_append_other v (by omega)
    have ending (f : Int → B) : (periodsFrom first w.size).map f =
        (periodsFrom first (w.size - 1)).map f ++ [f (period start w.interval now)] := by
      nth_rewrite 1 [← Nat.sub_add_cancel size_pos]
      rw [periodsFrom_add, map_append, lastPeriod]
      rfl
    rw [ending, ending, Ring.modify_append_last _ _ (by rw [length_map, length_periodsFrom]),
      held_append_same v rfl, map_congr_left others]

/-- An addition goes to the bucket of the current period. -/
theorem add (fresh : ∀ b : B, BucketInterface.reset T b = newBucket) (v : T) :
    Tracks newBucket start (history ++ [(now, v)]) now (w.add now v) := by
  obtain ⟨updated, current⟩ := tracks.updateOffset fresh
  rw [← (w.settings_updateOffset (T := T) now).2.1] at current
  exact updated.addLast current v

end

/-- A window that follows the clock does so through every sequence of calls. -/
theorem after {calls : List (WindowCall T)} (tracks : Tracks newBucket start history clock w)
    (fresh : ∀ b : B, BucketInterface.reset T b = newBucket)
    (ordered : (clock :: calls.map WindowCall.now ++ [now]).Pairwise (· ≤ ·)) :
    Tracks newBucket start (history ++ WindowCall.added calls) now (w.after calls) := by
  induction calls generalizing history clock w with
  | nil =>
    rw [WindowCall.added, append_nil]
    exact tracks.later ((pairwise_cons.mp ordered).1 now (mem_singleton_self now))
  | cons call calls ih =>
    obtain ⟨first, rest⟩ := pairwise_cons.mp ordered
    have next := tracks.later (first call.now mem_cons_self)
    cases call with
    | add t v =>
      have grown := ih (next.add fresh v) rest
      rwa [append_assoc] at grown
    | reduce t => exact ih next rest

/-- `Reduce` passes the buckets of periods of the window, and the other periods of the window
are empty. -/
theorem reduce_eq (tracks : Tracks newBucket start history now w) :
    ∃ first count, w.reduce now =
        (periodsFrom first count).map (held newBucket start w.interval history) ∧
      (∀ p ∈ periodsFrom first count, inWindow w.size w.ignoreCurrent
        (period start w.interval now) p) ∧
      ∀ entry ∈ history, inWindow w.size w.ignoreCurrent
        (period start w.interval now) (period start w.interval entry.1) →
          period start w.interval entry.1 ∈ periodsFrom first count := by
  have span := tracks.span_eq
  have size_pos := w.size_pos
  simp only [inWindow_iff, mem_periodsFrom]
  rw [RollingWindow.reduce_eq, tracks.view_eq]
  split
  · rename_i ignored
    obtain ⟨current, ignoring⟩ := ignored
    refine ⟨period start w.interval w.lastTime - w.size + 1, w.size - 1, ?_, ?_, ?_⟩
    · have size : w.size = w.size - 1 + 1 := (Nat.sub_add_cancel size_pos).symm
      rw [← map_take]
      nth_rewrite 3 [size]
      rw [take_periodsFrom]
    · intro p range
      omega
    · intro entry mem range
      have strict := range.2.2 ignoring
      omega
  · rename_i counted
    have moved (ignoring : w.ignoreCurrent = true) : w.span now ≠ 0 :=
      fun current => counted ⟨current, ignoring⟩
    refine ⟨period start w.interval w.lastTime - w.size + 1 + w.span now, w.size - w.span now,
      ?_, ?_, ?_⟩
    · have size : w.size = w.span now + (w.size - w.span now) := by omega
      rw [← map_drop]
      nth_rewrite 2 [size]
      rw [drop_periodsFrom]
    · intro p range
      refine ⟨by omega, by omega, ?_⟩
      intro ignoring
      have later := moved ignoring
      omega
    · intro entry mem range
      have old := tracks.past entry mem
      omega

end Tracks

section

variable [AddCommMonoid T] {α : Type v}

theorem sum_filter_or (value : α → T) (left right : α → Bool) (items : List α)
    (apart : ∀ item, left item = true → right item = false) :
    ((items.filter fun item => left item || right item).map value).sum =
      ((items.filter left).map value).sum + ((items.filter right).map value).sum := by
  induction items with
  | nil => exact (add_zero 0).symm
  | cons item items ih =>
    rw [filter_cons, filter_cons, filter_cons]
    cases isLeft : left item with
    | true =>
      rw [apart item isLeft, Bool.or_false, if_pos rfl, if_pos rfl, if_neg Bool.false_ne_true,
        map_cons, sum_cons, ih, map_cons, sum_cons, add_assoc]
    | false =>
      cases right item with
      | true =>
        rw [Bool.or_true, if_pos rfl, if_neg Bool.false_ne_true, if_pos rfl, map_cons,
          sum_cons, ih, map_cons, sum_cons, add_left_comm]
      | false => exact ih

/-- The totals of distinct keys are the total of the items with one of the keys. -/
theorem sum_by_key (key : α → Int) (value : α → T) {keys : List Int} (distinct : keys.Nodup)
    (items : List α) :
    (keys.map fun k => ((items.filter fun item => key item == k).map value).sum).sum =
      ((items.filter fun item => keys.contains (key item)).map value).sum := by
  induction keys with
  | nil =>
    have none : items.filter (fun item => ([] : List Int).contains (key item)) = [] :=
      filter_eq_nil_iff.mpr (by simp)
    rw [none]
    rfl
  | cons k keys ih =>
    obtain ⟨new, rest⟩ := nodup_cons.mp distinct
    simp only [map_cons, sum_cons, contains_cons]
    rw [ih rest, sum_filter_or]
    intro item same
    rwa [beq_iff_eq.mp same, ← Bool.not_eq_true, contains_iff_mem]

theorem sum_foldl_add (b : Bucket T) (values : List T) :
    (values.foldl BucketInterface.add b).sum = b.sum + values.sum := by
  induction values generalizing b with
  | nil => exact (add_zero b.sum).symm
  | cons v values ih =>
    rw [foldl_cons, ih, sum_cons, ← add_assoc]
    rfl

theorem sum_held (start interval : Int) (history : List (Int × T)) (p : Int) :
    (held (⟨0, 0⟩ : Bucket T) start interval history p).sum =
      ((history.filter fun entry => period start interval entry.1 == p).map Prod.snd).sum := by
  rw [held, sum_foldl_add, zero_add]

end

theorem Tracks.of_new {newBucket : B} {interval start : Int} {w : RollingWindow B}
    (positive : 0 < interval)
    (created : RollingWindow.newRollingWindow newBucket size interval ignoreCurrent start = some w)
    : Tracks newBucket start ([] : List (Int × T)) start w ∧
      w.size = size ∧ w.interval = interval ∧ w.ignoreCurrent = ignoreCurrent := by
  rw [RollingWindow.newRollingWindow] at created
  split at created
  · cases created
    refine ⟨⟨positive, ?_, Int.le_refl start, by simp, ?_⟩, rfl, rfl, rfl⟩
    · simp [period]
    · change (replicate size newBucket).rotate 1 = _
      have blank : (held newBucket start interval ([] : List (Int × T))) = fun _ => newBucket :=
        funext fun p => held_eq_new (by simp)
      rw [rotate_replicate, blank, map_const', length_periodsFrom]
  · exact absurd created (by simp)

/-- The totals of the buckets that `Reduce` passes are the total of the values that were added in
the last periods, and each of the buckets holds the values of one of these periods only. -/
theorem RollingWindow.reduce_totals [AddCommMonoid T] {size : Nat} {interval start now : Int}
    {ignoreCurrent : Bool} {calls : List (WindowCall T)} {w : RollingWindow (Bucket T)}
    (created : newRollingWindow ⟨0, 0⟩ size interval ignoreCurrent start = some w)
    (positive : 0 < interval)
    (ordered : (start :: calls.map WindowCall.now ++ [now]).Pairwise (· ≤ ·)) :
    (((w.after calls).reduce now).map Bucket.sum).sum =
        (((WindowCall.added calls).filter fun entry =>
          inWindow size ignoreCurrent (period start interval now)
            (period start interval entry.1)).map Prod.snd).sum ∧
      ∀ bucket ∈ (w.after calls).reduce now, ∃ p,
        inWindow size ignoreCurrent (period start interval now) p ∧
          bucket = held ⟨0, 0⟩ start interval (WindowCall.added calls) p := by
  obtain ⟨initial, rfl, rfl, rfl⟩ := Tracks.of_new (T := T) positive created
  have tracks := initial.after (fun _ => rfl) ordered
  obtain ⟨first, count, passed, inside, covered⟩ := tracks.reduce_eq
  obtain ⟨size_eq, interval_eq, ignoreCurrent_eq⟩ := w.settings_after calls
  rw [interval_eq, nil_append] at passed covered
  rw [size_eq, interval_eq, ignoreCurrent_eq] at inside
  rw [size_eq, ignoreCurrent_eq] at covered
  rw [passed]
  constructor
  · have sums : Bucket.sum ∘ held ⟨0, 0⟩ start w.interval (WindowCall.added calls) = fun p =>
        (((WindowCall.added calls).filter fun entry =>
          period start w.interval entry.1 == p).map Prod.snd).sum :=
      funext (sum_held start w.interval (WindowCall.added calls))
    have same : (WindowCall.added calls).filter (fun entry =>
          (periodsFrom first count).contains (period start w.interval entry.1)) =
        (WindowCall.added calls).filter (fun entry =>
          inWindow w.size w.ignoreCurrent (period start w.interval now)
            (period start w.interval entry.1)) := by
      apply filter_congr
      intro entry mem
      rw [Bool.eq_iff_iff, contains_iff_mem]
      exact ⟨inside _, covered entry mem⟩
    rw [map_map, sums, sum_by_key _ Prod.snd (nodup_periodsFrom first count), same]
  · intro bucket mem
    obtain ⟨p, range, rfl⟩ := mem_map.mp mem
    exact ⟨p, inside p range, rfl⟩

/-- Two buckets of ten units: the value of the period before the last is gone. -/
theorem RollingWindow.reduce_totals_two_buckets :
    ∃ w : RollingWindow (Bucket Int), newRollingWindow ⟨0, 0⟩ 2 10 false 5 = some w ∧
      (((@after Int (Bucket Int) (@instBucketInterfaceBucketOfAddOfZero Int _ ⟨0⟩) w
        [.add 5 1, .add 17 2, .reduce 20, .add 23 4]).reduce 30).map
          Bucket.sum).foldr (· + ·) 0 = 6 := by
  refine ⟨_, rfl, ?_⟩
  exact (@reduce_totals Int _ 2 10 5 30 false [.add 5 1, .add 17 2, .reduce 20, .add 23 4] _
    rfl (by decide) (by decide)).1

end FastGoZero.Collection
