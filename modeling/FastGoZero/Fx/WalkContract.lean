import FastGoZero.Fx.WalkRuns

/-!
# What a walk delivers

Once the output channel is closed, the function was called with every item and has returned, and
the stream has got every item's outputs, each in its order. Before that, some goroutine can go on,
and no run goes on for ever: every step lowers the work that is left.
-/

namespace FastGoZero.Fx

open Lib Lib.Concurrent List

universe u
variable {β : Type u} {k : Nat}

theorem flatMap_pick (n : Nat) (inside : k < n) (output : β) :
    (range n).flatMap (fun item => if k = item then [output] else []) = [output] := by
  induction n with
  | zero => omega
  | succ n ih =>
    rw [range_succ, flatMap_append, flatMap_singleton]
    by_cases last : k = n
    · have none : (range n).flatMap (fun item => if k = item then [output] else []) = [] := by
        rw [flatMap_eq_nil_iff]
        intro item mem
        have := mem_range.mp mem
        rw [if_neg (by omega)]
      rw [none, if_pos last, nil_append]
    · rw [ih (by omega), if_neg last, append_nil]

theorem content_perm (n : Nat) (content : List (Nat × β))
    (inside : ∀ entry ∈ content, entry.1 < n) :
    (content.map Prod.snd).Perm ((range n).flatMap fun k => outputsOf k content) := by
  induction content with
  | nil => simp [outputsOf]
  | cons entry content ih =>
    have split : ∀ k, outputsOf k (entry :: content) =
        (if entry.1 = k then [entry.2] else []) ++ outputsOf k content := by
      intro k
      by_cases same : entry.1 = k <;> simp [outputsOf, same]
    have rest := ih fun e mem => inside e (mem_cons_of_mem _ mem)
    calc
      ((entry :: content).map Prod.snd).Perm ([entry.2] ++ content.map Prod.snd) := by rfl
      Perm _ ((range n).flatMap (fun k => if entry.1 = k then [entry.2] else []) ++
          (range n).flatMap fun k => outputsOf k content) := by
        rw [flatMap_pick n (inside entry (mem_cons_self ..))]
        exact rest.append_left _
      Perm _ ((range n).flatMap fun k =>
          (if entry.1 = k then [entry.2] else []) ++ outputsOf k content) :=
        flatMap_append_perm ..
      Perm _ ((range n).flatMap fun k => outputsOf k (entry :: content)) := by
        simp only [split]
        rfl

theorem flatten_eq_flatMap (items : List (List β)) :
    items.flatten = (range items.length).flatMap fun k => items[k]?.getD [] := by
  have listed : items = (range items.length).map fun k => items[k]?.getD [] := by
    apply ext_getElem
    · simp
    · intro k inside _
      simp [inside]
  conv_lhs => rw [listed]
  rw [flatMap_def]

variable {options : Options} {items : List (List β)} {p p' : Pipes β} {w w' : Walker β}
  {started : List (Walker β)} {crowd rest : Multiset (Walker β)} {s : State (Pipes β) (Walker β)}

namespace Walking

variable (walking : Walking options items p crowd)
include walking

/-- What the goroutines of an item, if it has been started, and the stream have of it. -/
theorem outputs_of_launched (early : k < p.launched) :
    ∃ remaining, items[k]? = some (outputsOf k p.content ++ remaining) := by
  by_cases returned : k ∈ p.returned
  · exact ⟨[], by rw [append_nil, walking.walked.done k returned]⟩
  have balance := walking.counted.returned k
  rw [if_pos early, count_eq_zero.mpr returned] at balance
  have positive : total (Walker.works k) crowd ≠ 0 := by omega
  obtain ⟨v, mem, works⟩ := exists_of_total (Walker.works k) positive
  obtain ⟨remaining, task⟩ : ∃ remaining, v.task = some (k, remaining) := by
    cases v <;> simp_all [Walker.works, Walker.task]
  exact ⟨remaining, walking.walked.working v mem k remaining task⟩

/-- A goroutine was started for items of the source only. -/
theorem launched_inside (early : k < p.launched) : k < items.length := by
  obtain ⟨_, item⟩ := walking.outputs_of_launched early
  exact (List.getElem?_eq_some_iff.mp item).1

/-- The stream has got the first outputs of each item. -/
theorem outputs_first {outputs : List β} (item : items[k]? = some outputs) :
    outputsOf k p.content <+: outputs := by
  by_cases early : k < p.launched
  · obtain ⟨remaining, whole⟩ := walking.outputs_of_launched early
    cases item.symm.trans whole
    exact ⟨remaining, rfl⟩
  · rw [walking.walked.fresh k (by omega)]
    exact nil_prefix

theorem called_nodup : p.called.Nodup := by
  rw [nodup_iff_count_le_one]
  intro k
  have balance := walking.counted.called k
  split at balance <;> omega

theorem returned_nodup : p.returned.Nodup := by
  rw [nodup_iff_count_le_one]
  intro k
  have balance := walking.counted.returned k
  split at balance <;> omega

theorem called_inside (called : k ∈ p.called) : k < items.length := by
  have balance := walking.counted.called k
  have counted := count_pos_iff.mpr called
  apply walking.launched_inside
  by_contra late
  rw [if_neg late] at balance
  omega

theorem returned_inside (returned : k ∈ p.returned) : k < items.length :=
  (List.getElem?_eq_some_iff.mp (walking.walked.done k returned)).1

section

variable (closed : p.closed = true)
include closed

theorem closer : .closed ∈ crowd := by
  have shut := walking.counted.shut
  rw [closed] at shut
  by_contra absent
  have none : ∀ v ∈ crowd, v.shuts = 0 := by
    intro v mem
    cases v
    case closed => exact absurd mem absent
    all_goals rfl
  rw [total_eq_zero _ none] at shut
  simp at shut

theorem none_grouped : ∀ v ∈ crowd, v.grouped = 0 := by
  have zero := walking.walked.quiet .closed (walking.closer closed) rfl
  rw [← walking.counted.wg] at zero
  exact (total_eq_zero_iff Walker.grouped crowd).mp zero

theorem all_launched : p.launched = items.length := by
  have mem := walking.closer closed
  have ahead := walking.walked.ahead .closed mem rfl
  rw [walking.walked.exhausted .closed mem rfl] at ahead
  have most : items.length ≤ p.launched := drop_eq_nil_iff.mp ahead
  have least : p.launched ≤ items.length := by
    by_contra more
    exact absurd (walking.launched_inside (Nat.lt_of_not_le more)) (Nat.lt_irrefl _)
  omega

theorem called_perm : p.called.Perm (range items.length) := by
  rw [perm_ext_iff_of_nodup walking.called_nodup nodup_range]
  intro k
  rw [mem_range]
  constructor
  · exact walking.called_inside
  · intro inside
    have none : total (Walker.awaits k) crowd = 0 := by
      apply total_eq_zero
      intro v mem
      have idle := walking.none_grouped closed v mem
      cases v <;> simp_all [Walker.grouped, Walker.awaits]
    have balance := walking.counted.called k
    rw [none, walking.all_launched closed, if_pos inside] at balance
    exact count_pos_iff.mp (by omega)

theorem returned_perm : p.returned.Perm (range items.length) := by
  rw [perm_ext_iff_of_nodup walking.returned_nodup nodup_range]
  intro k
  rw [mem_range]
  constructor
  · exact walking.returned_inside
  · intro inside
    have none : total (Walker.works k) crowd = 0 := by
      apply total_eq_zero
      intro v mem
      have idle := walking.none_grouped closed v mem
      cases v <;> simp_all [Walker.grouped, Walker.works]
    have balance := walking.counted.returned k
    rw [none, walking.all_launched closed, if_pos inside] at balance
    exact count_pos_iff.mp (by omega)

theorem outputs_whole {outputs : List β} (item : items[k]? = some outputs) :
    outputsOf k p.content = outputs := by
  have inside := mem_range.mpr (List.getElem?_eq_some_iff.mp item).1
  have whole := walking.walked.done k ((walking.returned_perm closed).mem_iff.mpr inside)
  cases item.symm.trans whole
  rfl

theorem flatten_perm : (p.content.map Prod.snd).Perm items.flatten := by
  have inside : ∀ entry ∈ p.content, entry.1 < items.length := by
    intro entry mem
    by_contra outside
    have none := walking.walked.fresh entry.1 (by rw [walking.all_launched closed]; omega)
    have own : entry.2 ∈ outputsOf entry.1 p.content :=
      mem_map.mpr ⟨entry, mem_filter.mpr ⟨mem, by simp⟩, rfl⟩
    rw [none] at own
    simp at own
  have each : ∀ k ∈ range items.length, outputsOf k p.content = items[k]?.getD [] := by
    intro k mem
    have item := getElem?_eq_getElem (mem_range.mp mem)
    rw [walking.outputs_whole closed item, item]
    rfl
  have listed := content_perm items.length p.content inside
  rwa [flatMap_congr each, ← flatten_eq_flatMap] at listed

end

end Walking

/-- Who has a place can go on while the output channel is open and has room. -/
theorem placed_proceeds (positive : 1 ≤ options.workers) (isOpen : p.closed = false)
    (empty : p.pipe = []) {v : Walker β} (placed : v.placed ≠ 0) : p.proceed options v ≠ none := by
  cases v
  case writes item remaining =>
    cases remaining with
    | nil => simp [Pipes.proceed]
    | cons output remaining =>
      have room : 0 < options.workers := positive
      simp [Pipes.proceed, isOpen, empty, room]
  all_goals simp_all [Pipes.proceed, Walker.placed]

/-- Somebody can go on until the consumer has got everything. -/
theorem Walking.ended (walking : Walking options items p crowd) (positive : 1 ≤ options.workers)
    (stuck : ∀ v ∈ crowd, p.proceed options v = none) : p.closed = true ∧ p.pipe = [] := by
  obtain ⟨consumer, mem, listens⟩ :=
    exists_of_total Walker.listens (by rw [walking.counted.listening]; exact Nat.one_ne_zero)
  cases consumer
  case consumed => exact walking.walked.consumed mem
  case consumes =>
    have halted := stuck _ mem
    have empty : p.pipe = [] := by
      cases next : p.pipe with
      | nil => rfl
      | cons output pipe => simp [Pipes.proceed, next] at halted
    by_contra unfinished
    have isOpen : p.closed = false := by simpa [empty] using unfinished
    have none_placed : total Walker.placed crowd = 0 := by
      by_contra some
      obtain ⟨v, here, placed⟩ := exists_of_total Walker.placed some
      exact placed_proceeds positive isOpen empty placed (stuck v here)
    obtain ⟨dispatcher, there, dispatches⟩ :=
      exists_of_total Walker.dispatches (by rw [walking.counted.one]; exact Nat.one_ne_zero)
    have waiting := stuck dispatcher there
    cases dispatcher
    case takes =>
      cases next : p.source <;> simp [Pipes.proceed, next] at waiting
    case admits outputs =>
      have pool := walking.counted.pool (walking.limited outputs there)
      have room : p.pool < options.workers := by omega
      simp [Pipes.proceed, room] at waiting
    case waits =>
      have zero : p.wg = 0 := by
        rw [← walking.counted.wg, total_eq_zero_iff]
        intro v here
        have none := (total_eq_zero_iff Walker.placed crowd).mp none_placed v here
        cases v <;> simp_all [Walker.placed, Walker.grouped]
      simp [Pipes.proceed, zero] at waiting
    case closed =>
      have shut := walking.counted.shut
      rw [isOpen] at shut
      have := (total_eq_zero_iff Walker.shuts crowd).mp shut _ there
      simp [Walker.shuts] at this
    all_goals simp [Pipes.proceed, Walker.dispatches] at waiting dispatches
  all_goals simp [Walker.listens] at listens

/-- The steps that are left for the items of a source. -/
def sourceWork : List (List β) → Nat
  | [] => 0
  | outputs :: source => 2 * outputs.length + 8 + sourceWork source

/-- The steps that are left for a goroutine and those that it starts, where an output that is
written is received once. -/
def Walker.work : Walker β → Nat
  | takes => 3
  | admits outputs => 2 * outputs.length + 10
  | adds outputs => 2 * outputs.length + 9
  | launches outputs => 2 * outputs.length + 8
  | waits => 2
  | closes => 1
  | closed => 0
  | begins _ outputs => 2 * outputs.length + 4
  | writes _ remaining => 2 * remaining.length + 3
  | completes _ => 2
  | leaves _ => 1
  | left => 0
  | consumes => 1
  | consumed => 0

def work (p : Pipes β) (crowd : Multiset (Walker β)) : Nat :=
  sourceWork p.source + p.pipe.length + total Walker.work crowd

theorem work_step (step : WalkStep options p w p' w' started) :
    work p' (w' ::ₘ (started + rest)) < work p (w ::ₘ rest) := by
  rw [work, work, total_step, total_cons]
  cases step
  case taken outputs source next =>
    rw [next]
    split <;> simp [sourceWork, Walker.work] <;> omega
  case completed => split <;> simp [Walker.work]
  case wrote =>
    simp [Walker.work]
    omega
  case received output pipe next =>
    rw [next]
    simp [Walker.work]
  all_goals simp [Walker.work] <;> omega

/-- No run of moves that are all possible is longer than the work at its beginning. -/
theorem length_le_work {moves : List (Move Unit)}
    (possible : Runs.Meets (walk options).step (fun s move => (walk options).next s move ≠ none)
      s moves) : moves.length ≤ work s.shared s.crowd := by
  induction moves generalizing s with
  | nil => exact Nat.zero_le _
  | cons move moves ih =>
    obtain ⟨first, later⟩ := possible
    obtain ⟨s', moved⟩ := Option.ne_none_iff_exists'.mp first
    have rest := ih later
    have stepped : ((walk options).step s move).1 = s' := by rw [Program.step, moved]; rfl
    rw [stepped] at rest
    rcases next_cases moved with
      ⟨i, choice, l, after, started, others, rfl, found, acted, whole, replaced⟩ |
      ⟨i, j, a, b, sender, receiver, others, rfl, _, _, together, _, _⟩
    · have lowers : work s'.shared (after ::ₘ (started + others)) < work s.shared (l ::ₘ others) :=
        work_step (step_of_proceed acted)
      rw [← whole, ← replaced] at lowers
      simp only [length_cons]
      omega
    · simp [walk] at together

theorem workers_positive (opts : List WalkOption) : 1 ≤ (buildOptions opts).workers := by
  have each : ∀ options : Options, 1 ≤ options.workers →
      1 ≤ (opts.foldl WalkOption.apply options).workers := by
    induction opts with
    | nil => exact fun _ positive => positive
    | cons option opts ih =>
      intro options positive
      apply ih
      cases option with
      | unlimitedWorkers => exact positive
      | withWorkers workers =>
        by_cases small : workers < 1
        · simp [WalkOption.apply, minWorkers, small]
        · have : 1 ≤ workers.toNat := by omega
          simpa [WalkOption.apply, minWorkers, small] using this
  exact each newOptions (by decide)

/-- What is true at any time of a walk. -/
structure WalkContract (options : Options) (items : List (List β))
    (s : State (Pipes β) (Walker β)) : Prop where
  calledOnce : s.shared.called.Nodup ∧ ∀ k ∈ s.shared.called, k < items.length
  inOrder : ∀ k outputs, items[k]? = some outputs → outputsOf k s.shared.content <+: outputs
  legal : s.shared.sentOnClosed = false
  limited : options.unlimitedWorkers = false →
    s.routines.countP Walker.running ≤ options.workers
  allCalled : s.shared.closed = true → s.shared.called.Perm (List.range items.length)
  allReturned : s.shared.closed = true → s.shared.returned.Perm (List.range items.length)
  whole : s.shared.closed = true → (s.shared.content.map Prod.snd).Perm items.flatten ∧
    ∀ k outputs, items[k]? = some outputs → outputsOf k s.shared.content = outputs
  ends : (∀ move, (walk options).next s move = none) →
    s.shared.closed = true ∧ s.shared.pipe = []

theorem Walking.contract (positive : 1 ≤ options.workers)
    (walking : Walking options items s.shared s.crowd) : WalkContract options items s where
  calledOnce := ⟨walking.called_nodup, fun _ called => walking.called_inside called⟩
  inOrder _ _ item := walking.outputs_first item
  legal := walking.walked.legal
  limited := by
    intro limited
    have least : ∀ v : Walker β, v.running = true → 1 ≤ v.placed := by
      intro v running
      cases v <;> simp_all [Walker.running, Walker.placed]
    calc
      s.routines.countP Walker.running ≤ total Walker.placed s.crowd :=
        countP_le_total _ _ least _
      _ = s.shared.pool := walking.counted.pool limited
      _ ≤ options.workers := walking.counted.room
  allCalled := walking.called_perm
  allReturned := walking.returned_perm
  whole closed := ⟨walking.flatten_perm closed, fun _ _ item => walking.outputs_whole closed item⟩
  ends := by
    intro stuck
    apply walking.ended positive
    intro v mem
    obtain ⟨i, found⟩ := mem_iff_getElem?.mp mem
    have halted := stuck (.act i ())
    rw [Program.next, found] at halted
    simpa [walk] using halted

/-- For every source, function, options and interleaving: the function is called once with each
item, the output stream is closed when all have returned, has got the outputs of all items then,
each item's in order, and the walk comes to this end. -/
theorem walk_delivers (opts : List WalkOption) (items : List (List β)) :
    (∃ bound, ∀ moves, Runs.Meets (walk (buildOptions opts)).step
      (fun s move => (walk (buildOptions opts)).next s move ≠ none) (walkStart items) moves →
        moves.length ≤ bound) ∧
    ∀ moves, WalkContract (buildOptions opts) items
      ((walk (buildOptions opts)).after (walkStart items) moves) := by
  constructor
  · exact ⟨work _ (walkStart items).crowd, fun _ possible => length_le_work possible⟩
  · intro moves
    exact (Walking.after moves).contract (workers_positive opts)

end FastGoZero.Fx
