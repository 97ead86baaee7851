import FastGoZero.Lib.SearchAnswers

/-!
# Searches that go the same way

Two searches whose branches and dead ends correspond end alike, though one may take more steps
than the other on the way.
-/

namespace FastGoZero.Lib.Backtracking

open List

universe u v

variable {Pos : Type u} {R : Type v}

namespace Search

/-- Two searches that branch and fail alike and come to related results; one may take more steps
between them than the other. -/
inductive Like (related : R → R → Prop) : Search R → Search R → Prop
  | done {result other : R} (same : related result other) :
    Like related (.done result) (.done other)
  | crash : Like related .crash .crash
  | fail {result other : R} (level : Nat) (same : related result other) :
    Like related (.fail level result) (.fail level other)
  | left {s t : Search R} (next : Like related s t) : Like related (.enter s) t
  | right {s t : Search R} (next : Like related s t) : Like related s (.enter t)
  | fork {first later first' later' : Search R} (level : Nat) (safe : Bool)
      (one : Like related first first') (two : Like related later later') :
    Like related (.fork level safe first later) (.fork level safe first' later')

/-- The searches end alike. -/
inductive Ends (related : R → R → Prop) : Outcome R → Outcome R → Prop
  | finished {result other : R} (left left' : List (Entry (Search R)))
      (same : related result other) : Ends related (.finished result left) (.finished other left')
  | exhausted {result other : R} (level : Nat) (same : related result other) :
    Ends related (.exhausted level result) (.exhausted level other)
  | crashed : Ends related .crashed .crashed

variable {related : R → R → Prop} {s t : Search R}

theorem Like.outcome (like : Like related s t) :
    Ends related s.outcome t.outcome := by
  induction like with
  | done same => exact .finished _ _ same
  | crash => exact .crashed
  | fail level same => exact .exhausted level same
  | left next ih | right next ih => exact ih
  | @fork first later first' later' level safe one two inductionFirst inductionLater =>
    rw [outcome_fork, outcome_fork]
    generalize first.outcome = ended at inductionFirst
    generalize first'.outcome = ended' at inductionFirst
    cases inductionFirst with
    | finished left left' same => exact .finished _ _ same
    | crashed => exact .crashed
    | exhausted reached same =>
      dsimp only
      split
      · exact inductionLater
      · exact .exhausted reached same

theorem Like.safe_iff (like : Like related s t) : s.Safe ↔ t.Safe := by
  induction like with
  | done same | crash | fail level same => exact Iff.rfl
  | left next ih | right next ih => exact ih
  | @fork first later first' later' level safe one two inductionFirst inductionLater =>
    rw [Safe, Safe, inductionFirst, inductionLater]
    have ends := one.outcome
    generalize first.outcome = ended at ends
    generalize first'.outcome = ended' at ends
    cases ends with
    | finished left left' same | crashed | exhausted reached same => exact Iff.rfl

theorem Like.run (like : Like related s t) {result other : R} {left left' : List (Entry (Search R))}
    (ran : s.run [] = some (result, left)) (ran' : t.run [] = some (other, left')) :
    related result other := by
  have ends := like.outcome
  rw [Search.run] at ran ran'
  generalize s.outcome = one at ran ends
  generalize t.outcome = two at ran' ends
  cases ends with
  | finished own own' same =>
    cases ran
    cases ran'
    exact same
  | exhausted level same =>
    simp only [resume, Option.some.injEq, Prod.mk.injEq] at ran ran'
    rwa [← ran.1, ← ran'.1]
  | crashed => cases ran

end Search

variable {related : R → R → Prop}

/-- What two positions do corresponds: they end alike, go on to positions that follow each other,
or one of them takes a step of its own. -/
inductive Move.Like (follows : Pos → Pos → Prop) (related : R → R → Prop) (p q : Pos) :
    Move Pos R → Move Pos R → Prop
  | done {result other : R} (same : related result other) :
    Move.Like follows related p q (.done result) (.done other)
  | crash : Move.Like follows related p q .crash .crash
  | fail {result other : R} (level : Nat) (same : related result other) :
    Move.Like follows related p q (.fail level result) (.fail level other)
  | enter {next other : Pos} (later : follows next other) :
    Move.Like follows related p q (.enter next) (.enter other)
  | left {next : Pos} {move : Move Pos R} (later : follows next q) :
    Move.Like follows related p q (.enter next) move
  | right {next : Pos} {move : Move Pos R} (later : follows p next) :
    Move.Like follows related p q move (.enter next)
  | fork {first later first' later' : Pos} (level : Nat) (safe : Bool)
      (one : follows first first') (two : follows later later') :
    Move.Like follows related p q (.fork level safe first later) (.fork level safe first' later')

namespace Machine

variable (m : Machine Pos R)

theorem like_rule (follows : Pos → Pos → Prop)
    (step : ∀ p q, follows p q → Move.Like follows related p q (m.visit p) (m.visit q))
    (p q : Pos) (start : follows p q) : Search.Like related (m.search p) (m.search q) := by
  induction bound : m.rank p + m.rank q using Nat.strong_induction_on generalizing p q with
  | h rank ih =>
    have lower := m.descends p
    have lower' := m.descends q
    have like := step p q start
    generalize moved : m.visit p = move at like lower
    generalize moved' : m.visit q = move' at like lower'
    have unfolded := m.search_eq p
    have unfolded' := m.search_eq q
    rw [moved] at unfolded
    rw [moved'] at unfolded'
    cases like with
    | done same =>
      rw [unfolded, unfolded']
      exact .done same
    | crash =>
      rw [unfolded, unfolded']
      exact .crash
    | fail level same =>
      rw [unfolded, unfolded']
      exact .fail level same
    | enter later =>
      have below := lower _ mem_cons_self
      have below' := lower' _ mem_cons_self
      rw [unfolded, unfolded']
      exact .left (.right (ih _ (by omega) _ _ later rfl))
    | left later =>
      have below := lower _ mem_cons_self
      rw [unfolded]
      exact .left (ih _ (by omega) _ _ later rfl)
    | right later =>
      have below' := lower' _ mem_cons_self
      rw [unfolded']
      exact .right (ih _ (by omega) _ _ later rfl)
    | fork level safe one two =>
      have first := lower _ mem_cons_self
      have second := lower _ (mem_cons_of_mem _ mem_cons_self)
      have first' := lower' _ mem_cons_self
      have second' := lower' _ (mem_cons_of_mem _ mem_cons_self)
      rw [unfolded, unfolded']
      exact .fork level safe (ih _ (by omega) _ _ one rfl) (ih _ (by omega) _ _ two rfl)

end Machine

end FastGoZero.Lib.Backtracking
