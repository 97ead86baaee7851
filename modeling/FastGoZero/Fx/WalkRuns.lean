import FastGoZero.Fx.Walk

/-!
# Every item is walked once

The wait group counts the goroutines between their start and the end of their function, the pool
those between their admission and their leave. Each item has at most one goroutine, and what the
output stream has got of an item and what its goroutine has left to write are together its
outputs.
-/

namespace FastGoZero.Fx

open Lib.Concurrent List Multiset

universe u
variable {β : Type u}

namespace Walker

def dispatches : Walker β → Nat
  | takes | admits _ | adds _ | launches _ | waits | closes | closed => 1
  | _ => 0

/-- The item that was taken and not given to a goroutine yet. -/
def held : Walker β → List (List β)
  | admits outputs | adds outputs | launches outputs => [outputs]
  | _ => []

def grouped : Walker β → Nat
  | launches _ | begins _ _ | writes _ _ | completes _ => 1
  | _ => 0

def placed : Walker β → Nat
  | adds _ | launches _ | begins _ _ | writes _ _ | completes _ | leaves _ => 1
  | _ => 0

def running : Walker β → Bool
  | writes _ _ => true
  | _ => false

def shuts : Walker β → Nat
  | closed => 1
  | _ => 0

def listens : Walker β → Nat
  | consumes => 1
  | consumed => 1
  | _ => 0

def awaits (k : Nat) : Walker β → Nat
  | begins item _ => if item = k then 1 else 0
  | _ => 0

/-- Has not returned from the function for the item. -/
def works (k : Nat) : Walker β → Nat
  | begins item _ | writes item _ => if item = k then 1 else 0
  | _ => 0

/-- The item that the goroutine works on, with what it has left to write. -/
def task : Walker β → Option (Nat × List β)
  | begins item outputs => some (item, outputs)
  | writes item remaining => some (item, remaining)
  | _ => none

def past : Walker β → Bool
  | waits | closes | closed => true
  | _ => false

def final : Walker β → Bool
  | closes => true
  | closed => true
  | _ => false

end Walker

open Walker

/-- How many goroutines there are of each kind. -/
structure Counted (options : Options) (p : Pipes β) (crowd : Multiset (Walker β)) : Prop where
  one : total Walker.dispatches crowd = 1
  listening : total listens crowd = 1
  wg : total grouped crowd = p.wg
  pool : options.unlimitedWorkers = false → total placed crowd = p.pool
  room : p.pool ≤ options.workers
  shut : total Walker.shuts crowd = p.closed.toNat
  called : ∀ k, total (awaits k) crowd + p.called.count k = if k < p.launched then 1 else 0
  returned : ∀ k, total (Walker.works k) crowd + p.returned.count k =
    if k < p.launched then 1 else 0

variable {options : Options} {p p' : Pipes β} {w w' : Walker β} {started : List (Walker β)}
  {rest : Multiset (Walker β)}

/-- One goroutine moves on and may start others: what all have together changes by as much as
what the shared variables count. -/
theorem total_step {M : Type*} [AddCommMonoid M] (f : Walker β → M) :
    total f (w' ::ₘ ((started : Multiset (Walker β)) + rest)) =
      f w' + total f started + total f rest := by
  rw [total_cons, total_add, add_assoc]

theorem total_balance {f : Walker β → Nat} {a b c d : Nat} (before : total f (w ::ₘ rest) + a = b)
    (balance : f w' + total f started + c + b = f w + a + d) :
    total f (w' ::ₘ (started + rest)) + c = d := by
  rw [total_cons] at before
  rw [total_step]
  omega

section

variable (step : WalkStep options p w p' w' started)
include step

theorem dispatches_step :
    w'.dispatches + total dispatches (started : Multiset (Walker β)) = w.dispatches := by
  cases step
  case taken | completed => split <;> simp [dispatches]
  all_goals simp [dispatches]

theorem listens_step : w'.listens + total listens (started : Multiset (Walker β)) = w.listens := by
  cases step
  case taken | completed => split <;> simp [listens]
  all_goals simp [listens]

theorem grouped_step (counted : w.grouped ≤ p.wg) :
    w'.grouped + total grouped (started : Multiset (Walker β)) + p.wg =
      w.grouped + p'.wg := by
  cases step
  case taken => split <;> simp [grouped]
  case completed =>
    simp only [grouped] at counted
    split <;> simp [grouped] <;> omega
  all_goals simp [grouped] <;> omega

theorem placed_step (limited : options.unlimitedWorkers = false) (counted : w.placed ≤ p.pool) :
    w'.placed + total placed (started : Multiset (Walker β)) + p.pool =
      w.placed + p'.pool := by
  cases step
  case left =>
    simp only [placed] at counted
    simp [placed]
    omega
  all_goals simp [placed, limited] <;> omega

theorem room_step (room : p.pool ≤ options.workers) : p'.pool ≤ options.workers := by
  cases step
  case admitted => assumption
  case left =>
    simp only
    omega
  all_goals exact room

theorem awaits_step (k : Nat) :
    w'.awaits k + total (awaits k) (started : Multiset (Walker β)) + p'.called.count k +
        (if k < p.launched then 1 else 0) =
      w.awaits k + p.called.count k + if k < p'.launched then 1 else 0 := by
  cases step
  case taken | completed => split <;> simp [awaits]
  case launched outputs =>
    simp [awaits]
    split <;> split <;> split <;> omega
  case began item outputs =>
    simp [awaits, List.count_cons]
    omega
  all_goals simp [awaits]

theorem works_step (legal : p'.sentOnClosed = false) (k : Nat) :
    w'.works k + total (works k) (started : Multiset (Walker β)) + p'.returned.count k +
        (if k < p.launched then 1 else 0) =
      w.works k + p.returned.count k + if k < p'.launched then 1 else 0 := by
  cases step
  case taken | completed => split <;> simp [works]
  case launched outputs =>
    simp [works]
    split <;> split <;> split <;> omega
  case returned item =>
    simp [works, List.count_cons]
    omega
  case sentOnClosed => simp at legal
  all_goals simp [works]

end

/-- What the goroutines have done with the items. -/
structure Walked (items : List (List β)) (p : Pipes β) (crowd : Multiset (Walker β)) : Prop where
  ahead : ∀ v ∈ crowd, v.dispatches = 1 → items.drop p.launched = v.held ++ p.source
  exhausted : ∀ v ∈ crowd, v.past = true → p.source = []
  quiet : ∀ v ∈ crowd, v.final = true → p.wg = 0
  working : ∀ v ∈ crowd, ∀ k remaining, v.task = some (k, remaining) →
    items[k]? = some (outputsOf k p.content ++ remaining)
  done : ∀ k ∈ p.returned, items[k]? = some (outputsOf k p.content)
  fresh : ∀ k, p.launched ≤ k → outputsOf k p.content = []
  legal : p.sentOnClosed = false
  consumed : .consumed ∈ crowd → p.closed = true ∧ p.pipe = []

/-- The invariant of a walk. -/
structure Walking (options : Options) (items : List (List β)) (p : Pipes β)
    (crowd : Multiset (Walker β)) : Prop where
  counted : Counted options p crowd
  walked : Walked items p crowd
  limited : ∀ outputs, .admits outputs ∈ crowd → options.unlimitedWorkers = false

variable {items : List (List β)}

namespace Counted

theorem dispatches_rest (counted : Counted options p (w ::ₘ rest)) (own : w.dispatches = 1)
    {v : Walker β} (mem : v ∈ rest) : v.dispatches = 0 := by
  have one := counted.one
  rw [total_cons] at one
  exact (total_eq_zero_iff dispatches rest).mp (by omega) v mem

theorem not_closed (counted : Counted options p (.closes ::ₘ rest)) : p.closed = false := by
  have none : total shuts rest = 0 := by
    rw [total_eq_zero_iff]
    intro v mem
    have notDispatcher := counted.dispatches_rest rfl mem
    cases v <;> simp_all [dispatches, shuts]
  have shut := counted.shut
  rw [total_cons, none] at shut
  simpa [shuts] using shut.symm

section

variable (counted : Counted options p (w ::ₘ rest))

include counted

theorem le_wg : w.grouped ≤ p.wg := by
  rw [← counted.wg, total_cons]
  exact Nat.le_add_right _ _

theorem step (step : WalkStep options p w p' w' started) (legal : p'.sentOnClosed = false) :
    Counted options p' (w' ::ₘ (started + rest)) where
  one := total_balance (a := 0) (c := 0) counted.one (by rw [dispatches_step step])
  listening := total_balance (a := 0) (c := 0) counted.listening (by rw [listens_step step])
  wg := total_balance (a := 0) (c := 0) counted.wg (grouped_step step counted.le_wg)
  pool := by
    intro limited
    have before := counted.pool limited
    refine total_balance (a := 0) (c := 0) before (placed_step step limited ?_)
    rw [← before, total_cons]
    exact Nat.le_add_right _ _
  room := room_step step counted.room
  shut := by
    have before := counted.shut
    rw [total_cons] at before
    rw [total_step]
    cases step
    case closed =>
      rw [counted.not_closed] at before
      simp [shuts] at before ⊢
      exact before
    case taken | completed => split <;> simpa [shuts] using before
    all_goals simpa [shuts] using before
  called k := total_balance (counted.called k) (awaits_step step k)
  returned k := total_balance (counted.returned k) (works_step step legal k)

/-- An item has one goroutine, which was started and has not returned. -/
theorem works_unique {k : Nat} {remaining : List β} (task : w.task = some (k, remaining)) :
    k < p.launched ∧ k ∉ p.returned ∧ ∀ v ∈ rest, ∀ others, v.task ≠ some (k, others) := by
  have works : ∀ {v : Walker β} {others : List β}, v.task = some (k, others) → v.works k = 1 := by
    intro v others here
    cases v <;> simp_all [Walker.task, Walker.works]
  have balance := counted.returned k
  rw [total_cons, works task] at balance
  have started : k < p.launched := by
    by_contra late
    rw [if_neg late] at balance
    omega
  rw [if_pos started] at balance
  refine ⟨started, count_eq_zero.mp (by omega), ?_⟩
  intro v mem others here
  have none := (total_eq_zero_iff (Walker.works k) rest).mp (by omega) v mem
  rw [works here] at none
  omega

end

end Counted

theorem outputsOf_concat (k : Nat) (content : List (Nat × β)) (item : Nat) (output : β) :
    outputsOf k (content ++ [(item, output)]) =
      if item = k then outputsOf k content ++ [output] else outputsOf k content := by
  by_cases same : item = k <;> simp [outputsOf, same]

/-- What the stream has got grows by what is written. -/
theorem content_step (step : WalkStep options p w p' w' started) :
    p'.content = p.content ∨ ∃ item output remaining, w = .writes item (output :: remaining) ∧
      w' = .writes item remaining ∧ p'.content = p.content ++ [(item, output)] ∧
      p'.returned = p.returned ∧ p'.launched = p.launched ∧ started = [] := by
  cases step
  case wrote item output remaining _ _ =>
    exact Or.inr ⟨item, output, remaining, rfl, rfl, by simp [Pipes.content], rfl, rfl, rfl⟩
  case received output pipe next => exact Or.inl (by simp [Pipes.content, next])
  all_goals exact Or.inl rfl

/-- Only the dispatching goroutine takes items and starts goroutines. -/
theorem source_step (step : WalkStep options p w p' w' started) (other : w.dispatches = 0) :
    p'.source = p.source ∧ p'.launched = p.launched ∧ started = [] := by
  cases step <;> simp_all [dispatches]

namespace Walking

variable (walking : Walking options items p (w ::ₘ rest))
  (step : WalkStep options p w p' w' started)
include walking step

/-- The output channel is not closed while a call is running. -/
theorem legal : p'.sentOnClosed = false := by
  cases step
  case sentOnClosed item output remaining late =>
    have shut := walking.counted.shut
    obtain ⟨v, mem, shuts⟩ :=
      exists_of_total Walker.shuts (by rw [shut, late]; exact Nat.one_ne_zero)
    have final : v.final = true := by cases v <;> simp_all [Walker.shuts, Walker.final]
    have zero := walking.walked.quiet v mem final
    have counted := walking.counted.le_wg
    rw [zero] at counted
    simp [grouped] at counted
  all_goals exact walking.walked.legal

/-- When the dispatching goroutine is among the others, the source stays as it is. -/
theorem dispatcher_elsewhere {v : Walker β} (later : v ∈ (started : Multiset (Walker β)) + rest)
    (dispatches : v.dispatches = 1) :
    v ∈ w ::ₘ rest ∧ w.dispatches = 0 ∧ p'.source = p.source ∧ p'.launched = p.launched := by
  have notStarted : v ∉ started := by
    intro new
    cases step <;> simp_all [Walker.dispatches]
  have present : v ∈ rest := (mem_add.mp later).resolve_left notStarted
  have other : w.dispatches = 0 := by
    by_contra own
    have one : w.dispatches = 1 := by cases w <;> simp_all [Walker.dispatches]
    have := walking.counted.dispatches_rest one present
    omega
  obtain ⟨source, launched, _⟩ := source_step step other
  exact ⟨mem_cons_of_mem present, other, source, launched⟩

theorem ahead_step : ∀ v ∈ w' ::ₘ ((started : Multiset (Walker β)) + rest), v.dispatches = 1 →
    items.drop p'.launched = v.held ++ p'.source := by
  intro v mem dispatches
  rcases mem_cons.mp mem with rfl | later
  · have before := walking.walked.ahead w (mem_cons_self _ _)
    cases step
    case exhausted none => exact before rfl
    case taken outputs source next =>
      rw [before rfl, next]
      split <;> rfl
    case admitted | added | waited | closed => exact before rfl
    case launched outputs =>
      rw [← drop_drop, before rfl]
      rfl
    case completed => split at dispatches <;> simp [Walker.dispatches] at dispatches
    all_goals simp [Walker.dispatches] at dispatches
  · obtain ⟨present, _, source, launched⟩ := walking.dispatcher_elsewhere step later dispatches
    rw [source, launched]
    exact walking.walked.ahead v present dispatches

theorem exhausted_step : ∀ v ∈ w' ::ₘ ((started : Multiset (Walker β)) + rest), v.past = true →
    p'.source = [] := by
  intro v mem past
  have dispatches : v.dispatches = 1 := by cases v <;> simp_all [Walker.past, Walker.dispatches]
  have before := walking.walked.exhausted
  rcases mem_cons.mp mem with rfl | later
  · cases step
    case exhausted none => exact none
    case waited => exact before .waits (mem_cons_self _ _) rfl
    case closed => exact before .closes (mem_cons_self _ _) rfl
    case taken | completed => split at past <;> simp [Walker.past] at past
    all_goals simp [Walker.past] at past
  · obtain ⟨present, _, source, _⟩ := walking.dispatcher_elsewhere step later dispatches
    rw [source]
    exact before v present past

theorem quiet_step : ∀ v ∈ w' ::ₘ ((started : Multiset (Walker β)) + rest), v.final = true →
    p'.wg = 0 := by
  intro v mem final
  have dispatches : v.dispatches = 1 := by cases v <;> simp_all [Walker.final, Walker.dispatches]
  have before := walking.walked.quiet
  rcases mem_cons.mp mem with rfl | later
  · cases step
    case waited zero => exact zero
    case closed => exact before .closes (mem_cons_self _ _) rfl
    case taken | completed => split at final <;> simp [Walker.final] at final
    all_goals simp [Walker.final] at final
  · obtain ⟨present, other, _, _⟩ := walking.dispatcher_elsewhere step later dispatches
    have zero := before v present final
    cases step <;> simp_all [Walker.dispatches]

theorem working_step : ∀ v ∈ w' ::ₘ ((started : Multiset (Walker β)) + rest), ∀ k remaining,
    v.task = some (k, remaining) → items[k]? = some (outputsOf k p'.content ++ remaining) := by
  intro v mem k remaining task
  have before := walking.walked.working
  rcases content_step step with same | ⟨item, output, left, rfl, rfl, grown, _, _, rfl⟩
  · rw [same]
    rcases mem_cons.mp mem with rfl | later
    · cases step
      case began item outputs =>
        exact before (.begins item outputs) (mem_cons_self _ _) k remaining task
      case wrote => simp [Pipes.content] at same
      case taken | completed => split at task <;> simp [Walker.task] at task
      all_goals simp [Walker.task] at task
    rcases mem_add.mp later with new | old
    · cases step
      case launched outputs =>
        rw [mem_coe, List.mem_singleton] at new
        subst new
        obtain ⟨rfl, rfl⟩ : p.launched = k ∧ outputs = remaining := by
          simpa [Walker.task] using task
        have ahead := walking.walked.ahead (.launches outputs) (mem_cons_self _ _) rfl
        rw [walking.walked.fresh p.launched (Nat.le_refl _), nil_append, ← head?_drop, ahead]
        rfl
      all_goals simp at new
    · exact before v (mem_cons_of_mem old) k remaining task
  · rw [grown, outputsOf_concat]
    have own := before (.writes item (output :: left)) (mem_cons_self _ _) item (output :: left) rfl
    rcases mem_cons.mp mem with rfl | later
    · obtain ⟨rfl, rfl⟩ : item = k ∧ left = remaining := by simpa [Walker.task] using task
      rw [if_pos rfl, own]
      simp
    · have old : v ∈ rest := by simpa using later
      obtain ⟨_, _, alone⟩ := walking.counted.works_unique rfl
      have other : item ≠ k := by
        rintro rfl
        exact alone v old remaining task
      rw [if_neg other]
      exact before v (mem_cons_of_mem old) k remaining task

theorem done_step : ∀ k ∈ p'.returned, items[k]? = some (outputsOf k p'.content) := by
  intro k mem
  have before := walking.walked.done
  rcases content_step step with same | ⟨item, output, left, rfl, rfl, grown, returned, _, _⟩
  · rw [same]
    cases step
    case returned item =>
      rcases mem_append.mp mem with old | new
      · exact before k old
      · obtain rfl := List.mem_singleton.mp new
        have own := walking.walked.working (.writes k []) (mem_cons_self _ _) k [] rfl
        rwa [append_nil] at own
    all_goals exact before k mem
  · rw [returned] at mem
    obtain ⟨_, absent, _⟩ := walking.counted.works_unique rfl
    have other : item ≠ k := by
      rintro rfl
      exact absent mem
    rw [grown, outputsOf_concat, if_neg other]
    exact before k mem

theorem fresh_step : ∀ k, p'.launched ≤ k → outputsOf k p'.content = [] := by
  intro k late
  have before := walking.walked.fresh
  rcases content_step step with same | ⟨item, output, left, rfl, rfl, grown, _, launched, _⟩
  · rw [same]
    apply before
    cases step
    case launched => exact Nat.le_of_succ_le late
    all_goals exact late
  · rw [launched] at late
    obtain ⟨early, _, _⟩ := walking.counted.works_unique rfl
    have other : item ≠ k := by omega
    rw [grown, outputsOf_concat, if_neg other]
    exact before k late

theorem consumed_step : .consumed ∈ w' ::ₘ ((started : Multiset (Walker β)) + rest) →
    p'.closed = true ∧ p'.pipe = [] := by
  intro mem
  have before := walking.walked.consumed
  rcases mem_cons.mp mem with here | later
  · cases step
    case drained empty closed => exact ⟨closed, empty⟩
    case taken | completed => split at here <;> simp at here
    all_goals simp at here
  have old : .consumed ∈ rest := by
    refine (mem_add.mp later).resolve_left ?_
    intro new
    cases step <;> simp at new
  obtain ⟨closed, empty⟩ := before (mem_cons_of_mem old)
  cases step
  case wrote inTime _ => simp [closed] at inTime
  case received next => simp [empty] at next
  case closed => exact ⟨rfl, empty⟩
  all_goals exact ⟨closed, empty⟩

theorem limited_step :
    ∀ outputs, .admits outputs ∈ w' ::ₘ ((started : Multiset (Walker β)) + rest) →
      options.unlimitedWorkers = false := by
  intro outputs mem
  rcases mem_cons.mp mem with here | later
  · cases step
    case taken =>
      split at here
      · simp at here
      · simpa using ‹¬ options.unlimitedWorkers = true›
    case completed => split at here <;> simp at here
    all_goals simp at here
  rcases mem_add.mp later with new | old
  · cases step <;> simp at new
  · exact walking.limited outputs (mem_cons_of_mem old)

theorem step_keeps : Walking options items p' (w' ::ₘ (started + rest)) where
  counted := walking.counted.step step (walking.legal step)
  walked := ⟨walking.ahead_step step, walking.exhausted_step step, walking.quiet_step step,
    walking.working_step step, walking.done_step step, walking.fresh_step step,
    walking.legal step, walking.consumed_step step⟩
  limited := walking.limited_step step

end Walking

theorem Walking.keeps : Keeps (walk options) (fun _ _ => True) (Walking options items) where
  act := by
    intro s i choice w p' w' started rest _ _ _ acted walking
    exact walking.step_keeps (step_of_proceed acted)
  meet := by
    intro s i j a b p' sender receiver rest _ _ _ together
    simp [walk] at together

theorem Walking.start :
    Walking options items (.start items) (walkStart items).crowd where
  counted := by
    constructor <;> simp [State.crowd, walkStart, Pipes.start, ← cons_coe,
      dispatches, listens, grouped, placed, shuts,
      awaits, works]
  walked := by
    constructor <;> simp [State.crowd, walkStart, Pipes.start, held, past,
      final, task, dispatches, outputsOf, Pipes.content]
  limited := by
    intro outputs mem
    simp [State.crowd, walkStart] at mem

theorem Walking.after (moves : List (Move Unit)) :
    Walking options items ((walk options).after (walkStart items) moves).shared
      ((walk options).after (walkStart items) moves).crowd :=
  keeps.run_always moves start

end FastGoZero.Fx
