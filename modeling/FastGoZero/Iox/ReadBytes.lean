import FastGoZero.Lib.GoString

/-!
# Reading exactly

`ReadBytes` asks a reader for what is missing of a buffer until the buffer is full or the reader
returns an error. A reader may return fewer bytes than asked, none without an error, or bytes
together with an error; those of the last kind are in the buffer, but the error is returned.
-/

namespace FastGoZero.Iox

open Lib

/-- An `io.Reader`: what it returns for a buffer of some length, at most that many bytes. -/
structure Reader (State Error : Type) where
  read : State → Nat → State × Str × Option Error
  few : ∀ s size, (read s size).2.1.length ≤ size

/-- The loop: the state of the reader, the front of the buffer, and the error of the last call. -/
structure Reading (State Error : Type) where
  reader : State
  got : Str := []
  err : Option Error := none

variable {State Error : Type} (r : Reader State Error) (size : Nat)

namespace Reading

def returns (l : Reading State Error) : Prop := l.err ≠ none ∨ size ≤ l.got.length

instance (l : Reading State Error) : Decidable (l.returns size) :=
  decidable_of_iff (l.err.isSome ∨ size ≤ l.got.length) (by simp [returns, Option.isSome_iff_ne_none])

/-- One pass of the loop, which goes on only if the last one did not return. -/
def step (l : Reading State Error) : Reading State Error :=
  if l.returns size then l
  else
    let (reader, bytes, err) := r.read l.reader (size - l.got.length)
    { reader, got := l.got ++ bytes, err }

variable {size} {l : Reading State Error}

theorem step_of_returns (done : l.returns size) (more : Nat) : (step r size)^[more] l = l :=
  Function.iterate_fixed (show step r size l = l from if_pos done) more

theorem iterate_unique {m n : Nat} (first : ((step r size)^[m] l).returns size)
    (second : ((step r size)^[n] l).returns size) :
    (step r size)^[m] l = (step r size)^[n] l := by
  rcases Nat.le_total m n with early | early
  · rw [← Nat.sub_add_cancel early, Function.iterate_add_apply, step_of_returns r first]
  · rw [← Nat.sub_add_cancel early, Function.iterate_add_apply, step_of_returns r second]

end Reading

variable (s : State)

/-- The loop after some passes. -/
def passes (n : Nat) : Reading State Error := (Reading.step r size)^[n] { reader := s }

/-- The error that is returned and what is in the buffer, if the loop ends in so many passes. -/
def readBytes (fuel : Nat) : Option (Option Error × Str) :=
  let l := passes r size s fuel
  if l.returns size then some (l.err, l.got) else none

theorem length_got (n : Nat) : (passes r size s n).got.length ≤ size := by
  induction n with
  | zero => exact Nat.zero_le _
  | succ n ih =>
    rw [passes, Function.iterate_succ_apply', Reading.step, ← passes]
    have few := r.few (passes r size s n).reader (size - (passes r size s n).got.length)
    split_ifs
    · exact ih
    · exact List.length_append.trans_le (Nat.add_le_of_le_sub' ih few)

end FastGoZero.Iox
