import Mathlib.Tactic.Ring

/-!
# Depth-first search with a bounded stack of alternatives

A machine walks a finite space of positions. At a branch it puts one alternative on a
stack and goes on with the other; at a dead end it resumes the topmost alternative
whose level is not below the level of the dead end, dropping those in between. It may
return with alternatives left on the stack, and a later search may start on such a
stack. The stack has room for a fixed number of alternatives.

`search` unfolds the walk from a position to a finite tree. What a search returns and
leaves behind, and whether the stack has room for it, are functions of that tree.
-/

namespace FastGoZero.Lib.Backtracking

open List

universe u v

/-- What the machine finds at a position. -/
inductive Move (Pos : Type u) (R : Type v) where
  | done (result : R)
  | crash
  | fail (level : Nat) (result : R)
  | enter (next : Pos)
  | fork (level : Nat) (safe : Bool) (first later : Pos)

def Move.next {Pos : Type u} {R : Type v} : Move Pos R → List Pos
  | .enter next => [next]
  | .fork _ _ first later => [first, later]
  | _ => []

/-- A walk that descends: every move lowers the rank. -/
structure Machine (Pos : Type u) (R : Type v) where
  visit : Pos → Move Pos R
  rank : Pos → Nat
  descends : ∀ pos, ∀ next ∈ (visit pos).next, rank next < rank pos

/-- The unfolded walk. An unsafe alternative cannot be resumed. -/
inductive Search (R : Type v) where
  | done (result : R)
  | crash
  | fail (level : Nat) (result : R)
  | enter (next : Search R)
  | fork (level : Nat) (safe : Bool) (first later : Search R)

/-- An alternative on the stack. -/
structure Entry (α : Type u) where
  level : Nat
  safe : Bool
  body : α

def Entry.map {α : Type u} {β : Type v} (f : α → β) (entry : Entry α) : Entry β :=
  ⟨entry.level, entry.safe, f entry.body⟩

inductive Failure where
  | crash
  | overflow
  | outOfFuel
deriving DecidableEq

/-- How a search ends when nothing is below it on the stack. -/
inductive Outcome (R : Type v) where
  | finished (result : R) (left : List (Entry (Search R)))
  | exhausted (level : Nat) (result : R)
  | crashed

variable {Pos : Type u} {R : Type v}

/-- The condition holds of the level at which the search gave up, if it did. -/
def Outcome.IfExhausted (condition : Nat → Prop) : Outcome R → Prop
  | .exhausted level _ => condition level
  | _ => True

instance (condition : Nat → Prop) [DecidablePred condition] :
    (o : Outcome R) → Decidable (o.IfExhausted condition)
  | .exhausted level _ => inferInstanceAs (Decidable (condition level))
  | .finished _ _ | .crashed => isTrue trivial

variable (level : Nat)

namespace Search

def outcome : Search R → Outcome R
  | .done result => .finished result []
  | .crash => .crashed
  | .fail level result => .exhausted level result
  | .enter next => next.outcome
  | .fork level safe first later =>
    match first.outcome with
    | .finished result left => .finished result (left ++ [⟨level, safe, later⟩])
    | .exhausted reached result =>
      if reached ≤ level then later.outcome else .exhausted reached result
    | .crashed => .crashed

/-- A dead end looks for an alternative. -/
def resume (level : Nat) (result : R) :
    List (Entry (Search R)) → Option (R × List (Entry (Search R)))
  | [] => some (result, [])
  | entry :: rest =>
    if level ≤ entry.level then
      match entry.body.outcome with
      | .finished result left => some (result, left ++ rest)
      | .exhausted reached result => resume reached result rest
      | .crashed => none
    else resume level result rest

/-- The result of a search on a stack, and the stack it leaves. -/
def run (s : Search R) (stack : List (Entry (Search R))) : Option (R × List (Entry (Search R))) :=
  match s.outcome with
  | .finished result left => some (result, left ++ stack)
  | .exhausted level result => resume level result stack
  | .crashed => none

/-- The search fits on top of a stack of the given depth: each branch finds room, a
dead end finds a stack at all, and what is resumed is safe. -/
def Fits (room : Nat) : Search R → Nat → Prop
  | .done _, _ => True
  | .crash, _ => False
  | .fail _ _, _ => 0 < room
  | .enter next, depth => next.Fits room depth
  | .fork level safe first later, depth =>
    depth < room ∧ first.Fits room (depth + 1) ∧
      first.outcome.IfExhausted fun reached =>
        reached ≤ level → safe = true ∧ later.Fits room depth

instance decidableFits (room : Nat) : (s : Search R) → (depth : Nat) → Decidable (s.Fits room depth)
  | .done _, _ => isTrue trivial
  | .crash, _ => isFalse id
  | .fail _ _, _ => inferInstanceAs (Decidable (0 < room))
  | .enter next, depth => decidableFits room next depth
  | .fork _ _ first later, depth =>
    have := decidableFits room first (depth + 1)
    have := decidableFits room later depth
    inferInstanceAs (Decidable (_ ∧ _ ∧ Outcome.IfExhausted _ _))

/-- What a dead end resumes fits. -/
def ResumeFits (room : Nat) : Nat → List (Entry (Search R)) → Prop
  | _, [] => True
  | level, entry :: rest =>
    if level ≤ entry.level then
      entry.safe = true ∧ entry.body.Fits room rest.length ∧
        entry.body.outcome.IfExhausted fun reached => ResumeFits room reached rest
    else ResumeFits room level rest

instance decidableResumeFits (room : Nat) :
    (level : Nat) → (stack : List (Entry (Search R))) → Decidable (ResumeFits room level stack)
  | _, [] => isTrue trivial
  | level, entry :: rest =>
    have := fun reached => decidableResumeFits room reached rest
    inferInstanceAs (Decidable (if level ≤ entry.level then _ ∧ _ ∧ _ else _))

/-- The search fits on the given stack, with all it resumes from there. -/
def FitsOn (room : Nat) (s : Search R) (stack : List (Entry (Search R))) : Prop :=
  s.Fits room stack.length ∧ s.outcome.IfExhausted fun level => ResumeFits room level stack

instance (room : Nat) (s : Search R) (stack : List (Entry (Search R))) :
    Decidable (s.FitsOn room stack) :=
  inferInstanceAs (Decidable (_ ∧ Outcome.IfExhausted _ _))

theorem outcome_fork (safe : Bool) (first later : Search R) :
    (fork level safe first later).outcome =
      match first.outcome with
      | .finished result left => .finished result (left ++ [⟨level, safe, later⟩])
      | .exhausted reached result =>
        if reached ≤ level then later.outcome else .exhausted reached result
      | .crashed => .crashed := rfl

/-- A branch is a search with one more alternative on the stack. -/
theorem run_fork (safe : Bool) (first later : Search R) (stack : List (Entry (Search R))) :
    (fork level safe first later).run stack = first.run (⟨level, safe, later⟩ :: stack) := by
  rw [run, outcome_fork, run]
  cases first.outcome with
  | finished result left => simp
  | crashed => rfl
  | exhausted reached result =>
    by_cases resumed : reached ≤ level <;> simp only [resume, resumed, ↓reduceIte]

theorem fitsOn_fork (room level : Nat) (safe : Bool) (first later : Search R)
    (stack : List (Entry (Search R))) :
    (fork level safe first later).FitsOn room stack ↔
      stack.length < room ∧ first.FitsOn room (⟨level, safe, later⟩ :: stack) := by
  rw [FitsOn, outcome_fork, FitsOn, length_cons]
  change (stack.length < room ∧ first.Fits room (stack.length + 1) ∧ first.outcome.IfExhausted _) ∧
    _ ↔ _
  cases first.outcome with
  | finished result left | crashed => simp [Outcome.IfExhausted]
  | exhausted reached result =>
    by_cases resumed : reached ≤ level
    · simp only [Outcome.IfExhausted, ResumeFits, resumed, ↓reduceIte, forall_const]
      tauto
    · simp only [Outcome.IfExhausted, ResumeFits, resumed, ↓reduceIte, false_implies, and_true,
        and_assoc]

/-- A dead end drops the alternatives below its level and runs the next one. -/
theorem resume_eq (result : R) (stack : List (Entry (Search R))) :
    resume level result stack =
      match stack.dropWhile fun entry => decide (entry.level < level) with
      | [] => some (result, [])
      | entry :: rest => entry.body.run rest := by
  induction stack with
  | nil => rfl
  | cons entry rest ih =>
    by_cases below : entry.level < level
    · simp only [resume, Nat.not_le.mpr below, ↓reduceIte, dropWhile_cons, below, decide_true, ih]
    · simp only [resume, Nat.not_lt.mp below, ↓reduceIte, dropWhile_cons, below,
        decide_false, Bool.false_eq_true]
      rfl

theorem resumeFits_iff (room level : Nat) (stack : List (Entry (Search R))) :
    ResumeFits room level stack ↔
      match stack.dropWhile fun entry => decide (entry.level < level) with
      | [] => True
      | entry :: rest => entry.safe = true ∧ entry.body.FitsOn room rest := by
  induction stack with
  | nil => rfl
  | cons entry rest ih =>
    by_cases below : entry.level < level
    · simp only [ResumeFits, Nat.not_le.mpr below, ↓reduceIte, dropWhile_cons, below,
        decide_true, ih]
    · simp only [ResumeFits, Nat.not_lt.mp below, ↓reduceIte, dropWhile_cons, below,
        decide_false, Bool.false_eq_true]
      rfl

/-- The number of positions that the search may visit. -/
def work : Search R → Nat
  | .done _ | .crash | .fail _ _ => 1
  | .enter next => next.work + 1
  | .fork _ _ first later => first.work + later.work + 1

end Search

def stackWork (stack : List (Entry (Search R))) : Nat := (stack.map fun e => e.body.work).sum

theorem stackWork_dropWhile (stack : List (Entry (Search R))) (p : Entry (Search R) → Bool) :
    stackWork (stack.dropWhile p) ≤ stackWork stack := by
  induction stack with
  | nil => exact Nat.le_refl _
  | cons entry rest ih =>
    rw [dropWhile_cons]
    split
    · simp only [stackWork, map_cons, sum_cons] at ih ⊢
      omega
    · exact Nat.le_refl _

namespace Machine

variable (m : Machine Pos R)

/-- The walk from a position, to a given depth. -/
def unroll : Nat → Pos → Search R
  | 0, _ => .crash
  | fuel + 1, pos =>
    match m.visit pos with
    | .done result => .done result
    | .crash => .crash
    | .fail level result => .fail level result
    | .enter next => .enter (unroll fuel next)
    | .fork level safe first later => .fork level safe (unroll fuel first) (unroll fuel later)

/-- The whole walk from a position. -/
def search (pos : Pos) : Search R := m.unroll (m.rank pos + 1) pos

/-- Any depth beyond the rank unfolds the same tree. -/
theorem unroll_eq (fuel other : Nat) (pos : Pos) (enough : m.rank pos < fuel)
    (also : m.rank pos < other) : m.unroll fuel pos = m.unroll other pos := by
  induction fuel generalizing other pos with
  | zero => omega
  | succ fuel ih =>
    cases other with
    | zero => omega
    | succ other =>
      have lower := m.descends pos
      simp only [unroll]
      generalize m.visit pos = move at lower ⊢
      cases move with
      | done result | crash | fail level result => rfl
      | enter next =>
        have below := lower next mem_cons_self
        simp only [ih other next (by omega) (by omega)]
      | fork level safe first later =>
        have belowFirst := lower first mem_cons_self
        have belowLater := lower later (mem_cons_of_mem _ mem_cons_self)
        simp only [ih other first (by omega) (by omega), ih other later (by omega) (by omega)]

theorem search_eq (pos : Pos) :
    m.search pos = match m.visit pos with
      | .done result => .done result
      | .crash => .crash
      | .fail level result => .fail level result
      | .enter next => .enter (m.search next)
      | .fork level safe first later => .fork level safe (m.search first) (m.search later) := by
  have below : ∀ next ∈ (m.visit pos).next, m.unroll (m.rank pos) next = m.search next :=
    fun next mem => m.unroll_eq _ _ next (m.descends pos next mem) (Nat.lt_succ_self _)
  rw [search, unroll]
  generalize m.visit pos = move at below ⊢
  cases move with
  | done result | crash | fail level result => rfl
  | enter next =>
    simp only [below next mem_cons_self]
  | fork level safe first later =>
    simp only [below first mem_cons_self, below later (mem_cons_of_mem _ mem_cons_self)]

def drive (room : Nat) : Nat → Pos → List (Entry Pos) → Except Failure (R × List (Entry Pos))
  | 0, _, _ => .error .outOfFuel
  | fuel + 1, pos, stack =>
    match m.visit pos with
    | .done result => .ok (result, stack)
    | .crash => .error .crash
    | .enter next => drive room fuel next stack
    | .fork level safe first later =>
      if stack.length < room then drive room fuel first (⟨level, safe, later⟩ :: stack)
      else .error .overflow
    | .fail level result =>
      if room = 0 then .error .overflow
      else match stack.dropWhile fun entry => decide (entry.level < level) with
        | [] => .ok (result, [])
        | entry :: rest =>
          if entry.safe then drive room fuel entry.body rest else .error .crash

def searches (stack : List (Entry Pos)) : List (Entry (Search R)) := stack.map (Entry.map m.search)

/-- The machine returns exactly where the search fits, and then what the search
returns; otherwise it stops on the stack or on an unsafe move, never for lack of fuel. -/
structure Drives (room fuel : Nat) (pos : Pos) (stack : List (Entry Pos)) : Prop where
  returns : (m.search pos).FitsOn room (m.searches stack) → ∃ result left,
    m.drive room fuel pos stack = .ok (result, left) ∧
      (m.search pos).run (m.searches stack) = some (result, m.searches left)
  fails : ¬ (m.search pos).FitsOn room (m.searches stack) → ∃ failure,
    m.drive room fuel pos stack = .error failure ∧ failure ≠ .outOfFuel

theorem searches_dropWhile (stack : List (Entry Pos)) :
    (m.searches stack).dropWhile (fun entry => decide (entry.level < level)) =
      m.searches (stack.dropWhile fun entry => decide (entry.level < level)) := by
  unfold searches
  rw [dropWhile_map]
  rfl

/-- Enough fuel for the work of the search and of the stack. -/
theorem drive_spec (room fuel : Nat) (pos : Pos) (stack : List (Entry Pos))
    (enough : (m.search pos).work + stackWork (m.searches stack) ≤ fuel) :
    m.Drives room fuel pos stack := by
  induction fuel generalizing pos stack with
  | zero =>
    have positive : 0 < (m.search pos).work := by
      cases m.search pos <;> simp [Search.work]
    omega
  | succ fuel ih =>
    have unfolded := m.search_eq pos
    generalize seen : m.visit pos = move at unfolded
    cases move with
    | done result =>
      refine ⟨fun _ => ⟨result, stack, ?_, ?_⟩, fun misfit => ?_⟩
      · simp only [drive, seen]
      · rw [unfolded]
        rfl
      · rw [unfolded] at misfit
        exact absurd ⟨trivial, trivial⟩ misfit
    | crash =>
      refine ⟨fun fits => ?_, fun _ => ⟨.crash, ?_, nofun⟩⟩
      · rw [unfolded] at fits
        exact fits.1.elim
      · simp only [drive, seen]
    | enter next =>
      have later := ih next stack (by
        rw [unfolded] at enough
        simp only [Search.work] at enough
        omega)
      constructor
      · intro fits
        rw [unfolded] at fits ⊢
        simp only [drive, seen]
        exact later.returns fits
      · intro misfit
        rw [unfolded] at misfit
        simp only [drive, seen]
        exact later.fails misfit
    | fork level safe first alternative =>
      have later := ih first (⟨level, safe, alternative⟩ :: stack) (by
        rw [unfolded] at enough
        simp only [Search.work, searches, map_cons, stackWork, sum_cons, Entry.map] at enough ⊢
        omega)
      have depth : (m.searches stack).length = stack.length := length_map _
      constructor
      · intro fits
        rw [unfolded] at fits ⊢
        obtain ⟨room, inside⟩ := (Search.fitsOn_fork _ _ _ _ _ _).mp fits
        rw [depth] at room
        simp only [drive, seen, room, ↓reduceIte, Search.run_fork]
        exact later.returns inside
      · intro misfit
        rw [unfolded, Search.fitsOn_fork, depth] at misfit
        simp only [drive, seen]
        split_ifs with room
        · exact later.fails fun inside => misfit ⟨room, inside⟩
        · exact ⟨.overflow, rfl, nofun⟩
    | fail level result =>
      have fitsOn : (m.search pos).FitsOn room (m.searches stack) ↔
          0 < room ∧ Search.ResumeFits room level (m.searches stack) := by
        rw [unfolded]
        rfl
      have ran : (m.search pos).run (m.searches stack) =
          Search.resume level result (m.searches stack) := by
        rw [unfolded]
        rfl
      rw [Search.resumeFits_iff, searches_dropWhile] at fitsOn
      rw [Search.resume_eq, searches_dropWhile] at ran
      by_cases nothing : room = 0
      · refine ⟨fun fits => ?_, fun _ => ⟨.overflow, ?_, nofun⟩⟩
        · have positive := (fitsOn.mp fits).1
          omega
        · simp only [drive, seen, nothing, ↓reduceIte]
      · cases remaining : stack.dropWhile fun entry => decide (entry.level < level) with
        | nil =>
          rw [remaining] at fitsOn ran
          refine ⟨fun _ => ⟨result, [], ?_, ran⟩, fun misfit => ?_⟩
          · simp only [drive, seen, nothing, ↓reduceIte, remaining]
          · exact absurd (fitsOn.mpr ⟨Nat.pos_of_ne_zero nothing, trivial⟩) misfit
        | cons entry rest =>
          rw [remaining] at fitsOn ran
          have later := ih entry.body rest (by
            have dropped := stackWork_dropWhile (m.searches stack)
              fun entry => decide (entry.level < level)
            rw [searches_dropWhile, remaining] at dropped
            simp only [searches, map_cons, stackWork, sum_cons, Entry.map] at dropped ⊢
            rw [unfolded] at enough
            simp only [Search.work, stackWork, searches] at enough
            omega)
          constructor
          · intro fits
            obtain ⟨_, safe, inside⟩ := fitsOn.mp fits
            have allowed : entry.safe = true := safe
            simp only [drive, seen, nothing, ↓reduceIte, remaining, allowed]
            rw [ran]
            exact later.returns inside
          · intro misfit
            simp only [drive, seen, nothing, ↓reduceIte, remaining]
            split_ifs with allowed
            · exact later.fails fun inside =>
                misfit (fitsOn.mpr ⟨Nat.pos_of_ne_zero nothing, allowed, inside⟩)
            · exact ⟨.crash, rfl, nofun⟩

theorem descend {motive : Pos → Prop}
    (step : ∀ pos, (∀ next ∈ (m.visit pos).next, motive next) → motive pos) (pos : Pos) :
    motive pos := by
  induction bound : m.rank pos using Nat.strong_induction_on generalizing pos with
  | h rank ih =>
    apply step
    intro next mem
    have lower := m.descends pos next mem
    exact ih (m.rank next) (by omega) next rfl

theorem work_lt (pos : Pos) : (m.search pos).work < 2 ^ (m.rank pos + 1) := by
  induction pos using m.descend with
  | step pos ih =>
    have lower := m.descends pos
    have positive : 1 < 2 ^ (m.rank pos + 1) := Nat.one_lt_two_pow (by omega)
    have below : ∀ next ∈ (m.visit pos).next, (m.search next).work < 2 ^ m.rank pos := by
      intro next mem
      exact Nat.lt_of_lt_of_le (ih next mem) (Nat.pow_le_pow_right (by omega) (lower next mem))
    rw [search_eq]
    generalize m.visit pos = move at below ⊢
    cases move with
    | done result | crash | fail level result => exact positive
    | enter next =>
      have step := below next mem_cons_self
      simp only [Search.work]
      omega
    | fork level safe first later =>
      have one := below first mem_cons_self
      have two := below later (mem_cons_of_mem _ mem_cons_self)
      simp only [Search.work]
      omega

end Machine

end FastGoZero.Lib.Backtracking
