import FastGoZero.Lib.Ring
import Mathlib.Algebra.BigOperators.Group.List.Basic

/-!
# RollingWindow

The values of the last periods are kept in a ring of buckets, one for each period of the
interval. Nothing happens when a period ends: the next `Add` resets the buckets of the periods
that have gone by, and a `Reduce` leaves out those that it finds outdated.

Every operation reads the clock once.
-/

namespace FastGoZero.Collection

open Lib List

universe u v

/-- What a bucket can do. -/
class BucketInterface (T : Type u) (B : Type v) where
  add : B → T → B
  reset : B → B

/-- A bucket that holds the sum and the number of the additions. -/
structure Bucket (T : Type u) where
  sum : T
  count : Nat
deriving DecidableEq

instance {T : Type u} [Add T] [Zero T] : BucketInterface T (Bucket T) where
  add b v := { sum := b.sum + v, count := b.count + 1 }
  reset _ := { sum := 0, count := 0 }

/-- The ring of buckets. -/
structure Window (B : Type v) where
  buckets : List B
  size : Nat
  length_eq : buckets.length = size

structure RollingWindow (B : Type v) where
  size : Nat
  win : Window B
  interval : Int
  offset : Nat
  ignoreCurrent : Bool
  /-- The start of the period of the last bucket. -/
  lastTime : Int
  size_pos : 0 < size
  same_size : win.size = size

variable {T : Type u} {B : Type v} [BucketInterface T B]

namespace Window

def newWindow (newBucket : B) (size : Nat) : Window B where
  buckets := List.replicate size newBucket
  size
  length_eq := length_replicate

def add (w : Window B) (offset : Nat) (v : T) : Window B where
  buckets := w.buckets.modify (offset % w.size) fun b => BucketInterface.add b v
  size := w.size
  length_eq := by rw [length_modify, w.length_eq]

/-- The buckets that the function of `Reduce` is passed. -/
def reduce (w : Window B) (start count : Nat) : List B :=
  (List.range count).filterMap fun i => w.buckets[(start + i) % w.size]?

variable (T) in
def resetBucket (w : Window B) (offset : Nat) : Window B where
  buckets := w.buckets.modify (offset % w.size) (BucketInterface.reset T)
  size := w.size
  length_eq := by rw [length_modify, w.length_eq]

variable (T) in
/-- The loop of `updateOffset`. -/
def resetBuckets (w : Window B) (offset size : Nat) : Nat → Window B
  | 0 => w
  | span + 1 => (w.resetBuckets offset size span).resetBucket T ((offset + span + 1) % size)

theorem buckets_add (w : Window B) (offset : Nat) (v : T) :
    (w.add offset v).buckets =
      w.buckets.modify (offset % w.size) fun b => BucketInterface.add b v := rfl

theorem buckets_resetBucket (w : Window B) (offset : Nat) :
    (w.resetBucket T offset).buckets =
      w.buckets.modify (offset % w.size) (BucketInterface.reset T) := rfl

@[simp] theorem size_resetBuckets (w : Window B) (offset size span : Nat) :
    (w.resetBuckets T offset size span).size = w.size := by
  induction span with
  | zero => rfl
  | succ span ih => exact ih

end Window

namespace RollingWindow

/-- It panics for a size below 1. -/
def newRollingWindow (newBucket : B) (size : Nat) (interval : Int) (ignoreCurrent : Bool)
    (now : Int) : Option (RollingWindow B) :=
  if valid : 0 < size then
    some
      { size
        win := Window.newWindow newBucket size
        interval
        offset := 0
        ignoreCurrent
        lastTime := now
        size_pos := valid
        same_size := rfl }
  else none

variable (w : RollingWindow B)

/-- The number of periods since the last bucket, at most the size. -/
def span (now : Int) : Nat :=
  let offset := (now - w.lastTime).tdiv w.interval
  if 0 ≤ offset ∧ offset < w.size then offset.toNat else w.size

theorem span_le_size (now : Int) : w.span now ≤ w.size := by
  rw [span]
  split
  · omega
  · exact Nat.le_refl _

variable (T) in
def updateOffset (now : Int) : RollingWindow B :=
  if w.span now = 0 then w
  else
    { w with
      win := w.win.resetBuckets T w.offset w.size (w.span now)
      offset := (w.offset + w.span now) % w.size
      lastTime := now - (now - w.lastTime).tmod w.interval
      same_size := (Window.size_resetBuckets ..).trans w.same_size }

theorem settings_updateOffset (now : Int) :
    (w.updateOffset T now).size = w.size ∧ (w.updateOffset T now).interval = w.interval ∧
      (w.updateOffset T now).ignoreCurrent = w.ignoreCurrent := by
  rw [updateOffset]
  split
  · exact ⟨rfl, rfl, rfl⟩
  · exact ⟨rfl, rfl, rfl⟩

def add (now : Int) (v : T) : RollingWindow B :=
  let w := w.updateOffset T now
  { w with win := w.win.add w.offset v }

/-- The buckets that `Reduce` passes to its function. -/
def reduce (now : Int) : List B :=
  let span := w.span now
  let diff := if span = 0 ∧ w.ignoreCurrent then w.size - 1 else w.size - span
  if 0 < diff then w.win.reduce ((w.offset + span + 1) % w.size) diff else []

end RollingWindow

/-- A call with the reading of the clock. -/
inductive WindowCall (T : Type u) where
  | add (now : Int) (v : T)
  | reduce (now : Int)

namespace WindowCall

def now : WindowCall T → Int
  | add now _ => now
  | reduce now => now

/-- The values that are added, with their times. -/
def added : List (WindowCall T) → List (Int × T)
  | [] => []
  | add now v :: rest => (now, v) :: added rest
  | reduce _ :: rest => added rest

end WindowCall

namespace RollingWindow

/-- The window after a sequence of calls; a `Reduce` leaves it as it is. -/
def after (w : RollingWindow B) : List (WindowCall T) → RollingWindow B
  | [] => w
  | .add now v :: rest => (w.add now v).after rest
  | .reduce _ :: rest => w.after rest

theorem settings_after (w : RollingWindow B) (calls : List (WindowCall T)) :
    (w.after calls).size = w.size ∧ (w.after calls).interval = w.interval ∧
      (w.after calls).ignoreCurrent = w.ignoreCurrent := by
  induction calls generalizing w with
  | nil => exact ⟨rfl, rfl, rfl⟩
  | cons call calls ih =>
    cases call with
    | add now v =>
      obtain ⟨size, interval, ignoreCurrent⟩ := ih (w.add now v)
      obtain ⟨size', interval', ignoreCurrent'⟩ := w.settings_updateOffset (T := T) now
      exact ⟨size.trans size', interval.trans interval', ignoreCurrent.trans ignoreCurrent'⟩
    | reduce now => exact ih w

/-- The buckets from the oldest to that of the last period. -/
def view (w : RollingWindow B) : List B := w.win.buckets.rotate (w.offset + 1)

theorem length_buckets (w : RollingWindow B) : w.win.buckets.length = w.size :=
  w.win.length_eq.trans w.same_size

theorem length_view (w : RollingWindow B) : w.view.length = w.size := by
  rw [view, length_rotate, length_buckets]

/-- `Reduce` passes the buckets that are not outdated, from the oldest on. -/
theorem reduce_eq (w : RollingWindow B) (now : Int) :
    w.reduce now =
      if w.span now = 0 ∧ w.ignoreCurrent then w.view.take (w.size - 1)
      else w.view.drop (w.span now) := by
  have reads (count : Nat) (enough : count ≤ w.size) :
      w.win.reduce ((w.offset + w.span now + 1) % w.size) count =
        (w.view.rotate (w.span now)).take count := by
    have position : w.win.buckets.rotate ((w.offset + w.span now + 1) % w.size) =
        w.view.rotate (w.span now) := by
      rw [← w.length_buckets, rotate_mod, view, rotate_rotate, Nat.add_right_comm]
    rw [← position, ← Ring.read_eq_take (by rwa [w.length_buckets]), Ring.read,
      Window.reduce, w.win.length_eq]
  have bound := w.span_le_size now
  rw [reduce]
  by_cases ignored : w.span now = 0 ∧ w.ignoreCurrent = true
  · rw [if_pos ignored, if_pos ignored, reads _ (Nat.sub_le _ _), ignored.1, rotate_zero]
    split_ifs with single
    · rfl
    · rw [Nat.eq_zero_of_not_pos single, take_zero]
  · rw [if_neg ignored, if_neg ignored, reads _ (Nat.sub_le _ _),
      rotate_eq_drop_append_take (by rwa [length_view]), take_append_of_le_length,
      take_of_length_le]
    · split_ifs with outdated
      · rfl
      · rw [drop_eq_nil_of_le]
        rw [length_view]
        omega
    · rw [length_drop, length_view]
    · rw [length_drop, length_view]

theorem view_addLast (w : RollingWindow B) (v : T) :
    ({ w with win := w.win.add w.offset v } : RollingWindow B).view =
      w.view.modify (w.size - 1) fun b => BucketInterface.add b v := by
  have inside : w.size - 1 < w.win.buckets.length := by
    rw [length_buckets]
    exact Nat.sub_lt w.size_pos Nat.one_pos
  have position : w.offset % w.win.size =
      (w.offset + 1 + (w.size - 1)) % w.win.buckets.length := by
    have around : w.offset + 1 + (w.size - 1) = w.offset + w.size := by
      have positive := w.size_pos
      omega
    rw [around, length_buckets, w.same_size, Nat.add_mod_right]
  rw [view, view, Window.buckets_add, position]
  exact Ring.rotate_modify _ inside

section

variable {newBucket : B} (fresh : ∀ b : B, BucketInterface.reset T b = newBucket)

include fresh

/-- The loop of `updateOffset` writes new buckets around the ring. -/
theorem buckets_resetBuckets (w : Window B) (offset span : Nat) :
    (w.resetBuckets T offset w.size span).buckets =
      Ring.overwrite w.buckets (offset + 1) newBucket span := by
  have constant : (BucketInterface.reset T : B → B) = fun _ => newBucket := funext fresh
  induction span with
  | zero => rfl
  | succ span ih =>
    have position : (offset + span + 1) % w.size % w.size = (offset + 1 + span) % w.size := by
      rw [Nat.mod_mod, Nat.add_right_comm]
    rw [Window.resetBuckets, Window.buckets_resetBucket, Window.size_resetBuckets, position,
      constant, ← set_eq_modify, Ring.overwrite, ih, w.length_eq]

theorem view_updateOffset (w : RollingWindow B) (now : Int) :
    (w.updateOffset T now).view =
      w.view.drop (w.span now) ++ replicate (w.span now) newBucket := by
  rw [updateOffset]
  split_ifs with current
  · rw [current, drop_zero, replicate_zero, append_nil]
  · have turned (buckets : List B) (length : buckets.length = w.size) :
        buckets.rotate ((w.offset + w.span now) % w.size + 1) =
          buckets.rotate (w.offset + 1 + w.span now) := by
      rw [← rotate_rotate, ← length, rotate_mod, rotate_rotate, Nat.add_right_comm]
    have same : w.win.resetBuckets T w.offset w.size (w.span now) =
        w.win.resetBuckets T w.offset w.win.size (w.span now) := by rw [w.same_size]
    rw [view, view, turned]
    · dsimp only
      rw [same, buckets_resetBuckets fresh, Ring.rotate_overwrite]
      rw [w.length_buckets]
      exact w.span_le_size now
    · dsimp only
      rw [same, buckets_resetBuckets fresh, Ring.length_overwrite, w.length_buckets]

end

end RollingWindow

end FastGoZero.Collection
