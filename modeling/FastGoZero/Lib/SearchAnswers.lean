import FastGoZero.Lib.Backtracking

/-!
# The answers of a backtracking search

What can be said of the results of a search without running it: the rules carry a
property of positions down the moves of a machine. A search is nested if its dead ends
never drop an alternative of their own; such a search ends with its first answer, and
gives up only after it has tried everything.
-/

namespace FastGoZero.Lib.Backtracking

open List

universe u v

variable {Pos : Type u} {R : Type v}

namespace Search

/-- The results that end the search, in the order in which it comes to them. -/
def answers : Search R → List R
  | .done result => [result]
  | .crash => []
  | .fail _ _ => []
  | .enter next => next.answers
  | .fork _ _ first later => first.answers ++ later.answers

/-- All results, of dead ends too. -/
def results : Search R → List R
  | .done result => [result]
  | .crash => []
  | .fail _ result => [result]
  | .enter next => next.results
  | .fork _ _ first later => first.results ++ later.results

/-- Dead ends lie at or below the level of the branch they follow, so that none of them
drops an alternative of the same search. -/
def Nested : Search R → Nat → Prop
  | .done _, _ => True
  | .crash, _ => True
  | .fail level _, bound => level ≤ bound
  | .enter next, bound => next.Nested bound
  | .fork level _ first later, bound => level ≤ bound ∧ first.Nested level ∧ later.Nested level

variable {s : Search R} {result : R} {left : List (Entry (Search R))} {bound level room depth : Nat}

theorem Nested.mono {small large : Nat} (nested : s.Nested small) (ordered : small ≤ large) :
    s.Nested large := by
  induction s with
  | done result | crash => trivial
  | fail level result => exact Nat.le_trans nested ordered
  | enter next ih => exact ih nested
  | fork level safe first later _ _ => exact ⟨Nat.le_trans nested.1 ordered, nested.2⟩

/-- A nested search ends with its first answer, and gives up only if it has none. -/
theorem outcome_nested (nested : s.Nested bound) : match s.outcome with
    | .finished result _ => s.answers.head? = some result
    | .exhausted level _ => s.answers = [] ∧ level ≤ bound
    | .crashed => True := by
  induction s generalizing bound with
  | done result => rfl
  | crash => trivial
  | fail level result => exact ⟨rfl, nested⟩
  | enter next ih => exact ih nested
  | fork level safe first later inductionFirst inductionLater =>
    have one := inductionFirst nested.2.1
    have two := inductionLater (nested.2.2.mono nested.1)
    rw [outcome_fork]
    generalize first.outcome = outcome at one ⊢
    cases outcome with
    | crashed => trivial
    | finished result left =>
      simp only [answers, head?_append, one, Option.some_or]
    | exhausted reached result =>
      obtain ⟨none, lower⟩ := one
      simp only [lower, ↓reduceIte, answers, none, nil_append]
      exact two

/-- What a search returns on an empty stack is one of its results. -/
theorem outcome_results (s : Search R) :
    match s.outcome with
    | .finished result _ | .exhausted _ result => result ∈ s.results
    | .crashed => True := by
  induction s with
  | done result => exact mem_cons_self
  | crash => trivial
  | fail level result => exact mem_cons_self
  | enter next ih => exact ih
  | fork level safe first later inductionFirst inductionLater =>
    rw [outcome_fork]
    generalize first.outcome = outcome at inductionFirst ⊢
    cases outcome with
    | crashed => trivial
    | finished result left =>
      exact mem_append_left _ inductionFirst
    | exhausted reached result =>
      by_cases resumed : reached ≤ level
      · simp only [resumed, ↓reduceIte]
        cases resumption : later.outcome with
        | crashed => trivial
        | finished result left | exhausted reached result =>
          rw [resumption] at inductionLater
          exact mem_append_right _ inductionLater
      · simp only [resumed, ↓reduceIte]
        exact mem_append_left _ inductionFirst

theorem run_results (ran : s.run [] = some (result, left)) : result ∈ s.results := by
  have among := s.outcome_results
  rw [run] at ran
  cases ended : s.outcome with
  | finished found alternatives =>
    simp only [ended] at ran among
    cases ran
    exact among
  | exhausted level found =>
    simp only [ended, resume] at ran among
    cases ran
    exact among
  | crashed => simp [ended] at ran

/-- On an empty stack a nested search returns its first answer or gives up. -/
theorem run_nested (nested : s.Nested bound) (ran : s.run [] = some (result, left)) :
    s.answers.head? = some result ∨ ∃ level, s.outcome = .exhausted level result := by
  have tried := outcome_nested nested
  rw [run] at ran
  cases ended : s.outcome with
  | finished found alternatives =>
    simp only [ended] at ran tried
    cases ran
    exact Or.inl tried
  | exhausted level found =>
    simp only [ended, resume] at ran
    cases ran
    exact Or.inr ⟨level, rfl⟩
  | crashed => simp [ended] at ran

theorem fitsOn_nil (room : Nat) (s : Search R) : s.FitsOn room [] ↔ s.Fits room 0 := by
  rw [FitsOn]
  cases s.outcome <;> simp [Outcome.IfExhausted, ResumeFits]

theorem Fits.mono {lower : Nat} (fits : s.Fits room depth) (ordered : lower ≤ depth) :
    s.Fits room lower := by
  induction s generalizing depth lower with
  | done result => trivial
  | crash | fail level result => exact fits
  | enter next ih => exact ih fits ordered
  | fork level safe first later inductionFirst inductionLater =>
    obtain ⟨room, fitsFirst, fitsLater⟩ := fits
    refine ⟨Nat.lt_of_le_of_lt ordered room, inductionFirst fitsFirst (by omega), ?_⟩
    cases ended : first.outcome with
    | finished result left | crashed => trivial
    | exhausted reached result =>
      rw [ended] at fitsLater
      intro resumed
      exact ⟨(fitsLater resumed).1, inductionLater (fitsLater resumed).2 ordered⟩

theorem FitsOn.alone {stack : List (Entry (Search R))} (fits : s.FitsOn room stack) :
    s.FitsOn room [] :=
  (fitsOn_nil room s).mpr (fits.1.mono (Nat.zero_le _))

/-- Nothing but dead ends. -/
def Barren : Search R → Prop
  | .done _ => False
  | .crash => False
  | .fail _ _ => True
  | .enter next => next.Barren
  | .fork _ _ first later => first.Barren ∧ later.Barren

/-- The results of the dead ends have a property. -/
def DeadEnds (p : R → Prop) : Search R → Prop
  | .done _ => True
  | .crash => True
  | .fail _ result => p result
  | .enter next => next.DeadEnds p
  | .fork _ _ first later => first.DeadEnds p ∧ later.DeadEnds p

/-- The search fits on a stack with enough room. -/
def Safe : Search R → Prop
  | .done _ => True
  | .crash => False
  | .fail _ _ => True
  | .enter next => next.Safe
  | .fork level safe first later =>
    first.Safe ∧ first.outcome.IfExhausted fun reached => reached ≤ level → safe = true ∧ later.Safe

instance decidableSafe : (s : Search R) → Decidable s.Safe
  | .done _ => isTrue trivial
  | .crash => isFalse id
  | .fail _ _ => isTrue trivial
  | .enter next => decidableSafe next
  | .fork _ _ first later =>
    have := decidableSafe first
    have := decidableSafe later
    inferInstanceAs (Decidable (_ ∧ Outcome.IfExhausted _ _))

/-- A branch gives up only if both of its parts do. -/
theorem exhausted_fork {reached : Nat} {safe : Bool} {first later : Search R}
    (nested : (fork level safe first later).Nested bound)
    (ended : (fork level safe first later).outcome = .exhausted reached result) :
    (∃ lower found, first.outcome = .exhausted lower found ∧ lower ≤ level) ∧
      later.outcome = .exhausted reached result := by
  have tried := outcome_nested nested.2.1
  rw [outcome_fork] at ended
  generalize first.outcome = outcome at ended tried ⊢
  cases outcome with
  | finished found left | crashed =>
    cases ended
  | exhausted lower found =>
    simp only [tried.2, ↓reduceIte] at ended
    exact ⟨⟨lower, found, rfl, tried.2⟩, ended⟩

/-- A nested search that gives up has tried everything. -/
theorem barren_of_exhausted (nested : s.Nested bound) (fits : s.Fits room depth)
    (ended : s.outcome = .exhausted level result) : s.Barren := by
  induction s generalizing depth bound level result with
  | done found | crash => cases ended
  | fail lower found => trivial
  | enter next ih => exact ih nested fits ended
  | fork level safe first later inductionFirst inductionLater =>
    obtain ⟨⟨lower, found, one, within⟩, two⟩ := exhausted_fork nested ended
    obtain ⟨_, fitsFirst, fitsLater⟩ := fits
    rw [one] at fitsLater
    exact ⟨inductionFirst nested.2.1 fitsFirst one,
      inductionLater nested.2.2 (fitsLater within).2 two⟩

/-- What a nested search gives up with is the result of a dead end. -/
theorem deadEnd_of_exhausted {p : R → Prop} (dead : s.DeadEnds p) (nested : s.Nested bound)
    (ended : s.outcome = .exhausted level result) : p result := by
  induction s generalizing bound level result with
  | done found | crash => cases ended
  | fail lower found =>
    cases ended
    exact dead
  | enter next ih => exact ih dead nested ended
  | fork level safe first later _ inductionLater =>
    exact inductionLater dead.2 nested.2.2 (exhausted_fork nested ended).2

end Search

/-- A move from a position keeps the invariant, and the results it leads to are good. -/
def Move.Sound (inv : Pos → Prop) (good : Pos → R → Prop) (pos : Pos) : Move Pos R → Prop
  | .done result => good pos result
  | .crash => True
  | .fail _ result => good pos result
  | .enter next => inv next ∧ ∀ result, good next result → good pos result
  | .fork _ _ first later => inv first ∧ inv later ∧
      ∀ result, good first result ∨ good later result → good pos result

/-- A move leads no higher, and its dead ends lie no higher than the branch they follow. -/
def Move.Lowers (height : Pos → Nat) (pos : Pos) : Move Pos R → Prop
  | .done _ => True
  | .crash => True
  | .fail level _ => level ≤ height pos
  | .enter next => height next ≤ height pos
  | .fork level _ first later => level ≤ height pos ∧ height first ≤ level ∧ height later ≤ level

/-- A move is no dead end, and one of the ways it leaves keeps the property. -/
def Move.GoesOn (inv : Pos → Prop) : Move Pos R → Prop
  | .done _ => True
  | .crash => True
  | .fail _ _ => False
  | .enter next => inv next
  | .fork _ _ first later => inv first ∨ inv later

/-- A move does not crash, and the property lets its alternative be resumed. -/
def Move.Secure (inv : Pos → Prop) : Move Pos R → Prop
  | .done _ => True
  | .crash => False
  | .fail _ _ => True
  | .enter next => inv next
  | .fork _ safe first later => safe = true ∧ inv first ∧ inv later

namespace Machine

variable (m : Machine Pos R) (inv : Pos → Prop)

/-- The rule for what every result of a search says about its start. -/
theorem results_rule (good : Pos → R → Prop)
    (moves : ∀ pos, inv pos → (m.visit pos).Sound inv good pos) (pos : Pos) (initial : inv pos) :
    ∀ result ∈ (m.search pos).results, good pos result := by
  induction pos using m.descend with
  | step pos ih =>
    have move := moves pos initial
    rw [search_eq]
    intro result mem
    generalize m.visit pos = next at move mem ih ⊢
    cases next with
    | done found | fail =>
      exact mem_singleton.mp mem ▸ move
    | crash =>
      cases mem
    | enter next =>
      exact move.2 result (ih next mem_cons_self move.1 result mem)
    | fork level safe first later =>
      apply move.2.2 result
      rcases mem_append.mp mem with one | two
      · exact Or.inl (ih first mem_cons_self move.1 result one)
      · exact Or.inr (ih later (mem_cons_of_mem _ mem_cons_self) move.2.1 result two)

/-- The rule for nested searches: a height of positions that dead ends do not exceed. -/
theorem nested_rule (height : Pos → Nat)
    (moves : ∀ pos, (m.visit pos).Lowers height pos) (pos : Pos) :
    (m.search pos).Nested (height pos) := by
  induction pos using m.descend with
  | step pos ih =>
    have move := moves pos
    rw [search_eq]
    generalize m.visit pos = next at move ih ⊢
    cases next with
    | done found | crash => trivial
    | fail level found =>
      exact move
    | enter next =>
      exact (ih next mem_cons_self).mono move
    | fork level safe first later =>
      exact ⟨move.1, (ih first mem_cons_self).mono move.2.1,
        (ih later (mem_cons_of_mem _ mem_cons_self)).mono move.2.2⟩

/-- The rule for searches that cannot come out empty: each move keeps a way to go on. -/
theorem not_barren_rule (moves : ∀ pos, inv pos → (m.visit pos).GoesOn inv) (pos : Pos)
    (initial : inv pos) :
    ¬ (m.search pos).Barren := by
  induction pos using m.descend with
  | step pos ih =>
    have move := moves pos initial
    rw [search_eq]
    generalize m.visit pos = next at move ih ⊢
    cases next with
    | done found | crash => exact id
    | fail level found =>
      exact move.elim
    | enter next =>
      exact ih next mem_cons_self move
    | fork level safe first later =>
      rintro ⟨one, two⟩
      rcases move with start | start
      · exact ih first mem_cons_self start one
      · exact ih later (mem_cons_of_mem _ mem_cons_self) start two

theorem deadEnds_rule (p : R → Prop)
    (fails : ∀ pos level result, m.visit pos = .fail level result → p result) (pos : Pos) :
    (m.search pos).DeadEnds p := by
  induction pos using m.descend with
  | step pos ih =>
    rw [search_eq]
    cases seen : m.visit pos with
    | done found | crash => trivial
    | fail level found => exact fails pos level found seen
    | enter next =>
      rw [seen] at ih
      exact ih next mem_cons_self
    | fork level safe first later =>
      rw [seen] at ih
      exact ⟨ih first mem_cons_self, ih later (mem_cons_of_mem _ mem_cons_self)⟩

theorem safe_rule (moves : ∀ pos, inv pos → (m.visit pos).Secure inv) (pos : Pos)
    (initial : inv pos) : (m.search pos).Safe := by
  induction pos using m.descend with
  | step pos ih =>
    have move := moves pos initial
    rw [search_eq]
    generalize m.visit pos = next at move ih ⊢
    cases next with
    | done found => trivial
    | crash =>
      exact move.elim
    | fail level found => trivial
    | enter next =>
      exact ih next mem_cons_self move
    | fork level safe first later =>
      have resumed := ih later (mem_cons_of_mem _ mem_cons_self) move.2.2
      refine ⟨ih first mem_cons_self move.2.1, ?_⟩
      cases (m.search first).outcome with
      | finished result left => trivial
      | exhausted reached result => exact fun _ => ⟨move.1, resumed⟩
      | crashed => trivial

/-- The rank of a position is room enough for the stack. -/
theorem fits_iff_safe {room : Nat} (positive : 0 < room) (pos : Pos) (depth : Nat)
    (enough : depth + m.rank pos ≤ room) :
    (m.search pos).Fits room depth ↔ (m.search pos).Safe := by
  induction pos using m.descend generalizing depth with
  | step pos ih =>
    have lower := m.descends pos
    rw [search_eq]
    generalize m.visit pos = next at lower ih ⊢
    cases next with
    | done found | crash => exact Iff.rfl
    | fail level found => exact iff_of_true positive trivial
    | enter next =>
      have below := lower next mem_cons_self
      exact ih next mem_cons_self depth (by omega)
    | fork level safe first later =>
      have mem : later ∈ [first, later] := mem_cons_of_mem _ mem_cons_self
      have belowFirst := lower first mem_cons_self
      have belowLater := lower later mem
      have one := ih first mem_cons_self (depth + 1) (by omega)
      have two := ih later mem depth (by omega)
      have inside : depth < room := by omega
      simp only [Search.Fits, Search.Safe, inside, true_and, one, two]

end Machine

end FastGoZero.Lib.Backtracking
