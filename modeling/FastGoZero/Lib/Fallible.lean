/-!
# Code that may fail
-/

namespace FastGoZero.Lib

universe u v w

variable {ε : Type u}

theorem bind_eq_ok {α β : Type v} {x : Except ε α} {f : α → Except ε β} {result : β} :
    x >>= f = .ok result ↔ ∃ value, x = .ok value ∧ f value = .ok result := by
  cases x with
  | error failure | ok value => simp [bind, Except.bind]

theorem map_eq_ok {α : Type v} {β : Type w} {x : Except ε α} {f : α → β} {result : β} :
    x.map f = .ok result ↔ ∃ value, x = .ok value ∧ f value = result := by
  cases x with
  | error failure | ok value => simp [Except.map]

theorem toOption_eq_some {α : Type v} {x : Except ε α} {value : α} :
    x.toOption = some value ↔ x = .ok value := by
  cases x with
  | error failure | ok value => simp [Except.toOption]

theorem exists_ok {α : Type v} {β : Type w} {x : Except ε α} {f : α → β} {result : β}
    (evaluated : x.toOption.map f = some result) : ∃ value, x = .ok value ∧ f value = result := by
  obtain ⟨value, found, same⟩ := Option.map_eq_some_iff.mp evaluated
  exact ⟨value, toOption_eq_some.mp found, same⟩

theorem mapM_cons_eq_ok {α : Type w} {β : Type v} {f : α → Except ε β} {a : α} {l : List α}
    {all : List β} :
    (a :: l).mapM f = .ok all ↔
      ∃ b rest, f a = .ok b ∧ l.mapM f = .ok rest ∧ all = b :: rest := by
  rw [List.mapM_cons, bind_eq_ok]
  simp only [bind_eq_ok, pure, Except.pure, Except.ok.injEq, exists_and_left, @eq_comm _ _ all]

variable {α β : Type}

/-- The one result is the other, unless there is none for lack of depth. -/
def Below (a b : Option α) : Prop := ∀ r, a = some r → b = some r

namespace Below

theorem refl (a : Option α) : Below a a := fun _ => id

theorem bind {a b : Option α} {f g : α → Option β} (first : Below a b)
    (rest : ∀ x, Below (f x) (g x)) : Below (a >>= f) (b >>= g) := by
  intro r result
  obtain ⟨x, isX, result⟩ := Option.bind_eq_some_iff.mp result
  exact Option.bind_eq_some_iff.mpr ⟨x, first x isX, rest x r result⟩

variable {f : Nat → Option α} (step : ∀ n, Below (f n) (f (n + 1))) {n m : Nat} {r r' : α}

include step

theorem of_le (le : n ≤ m) : Below (f n) (f m) := by
  induction le with
  | refl => exact refl _
  | step _ ih => exact fun r result => step _ r (ih r result)

theorem unique (first : f n = some r) (second : f m = some r') : r = r' := by
  have left := of_le step (Nat.le_max_left n m) r first
  have right := of_le step (Nat.le_max_right n m) r' second
  exact Option.some.inj (left.symm.trans right)

end Below

end FastGoZero.Lib
