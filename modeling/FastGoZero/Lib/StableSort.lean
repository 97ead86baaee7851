import Mathlib.Data.List.Sort
import FastGoZero.Lib.Fallible
import FastGoZero.Lib.GoString

/-!
# Lists that differ in the order of different keys

Two lists are the same by a key if for each key they have the same elements with it, in the same
order. Such lists have the same members, the same first element of each key, and the same stable
sort by the key: a stable sort forgets exactly how elements of different keys are mixed.
-/

namespace FastGoZero.Lib.StableSort

open List

universe u v w
variable {α : Type u} {β : Type v} {κ : Type w}

section

variable (less : κ → κ → Bool) (key : α → κ)

/-- Insert an element before all those of its key. -/
def insertStable (a : α) : List α → List α
  | [] => [a]
  | b :: l => if less (key b) (key a) then b :: insertStable a l else a :: b :: l

/-- `sort.SliceStable`. -/
def stableSort : List α → List α
  | [] => []
  | a :: l => insertStable less key a (stableSort l)

/-- A strict order in which any two keys can be compared. -/
structure StrictTotal (less : κ → κ → Bool) : Prop where
  irrefl : ∀ a, less a a = false
  trans : ∀ a b c, less a b = true → less b c = true → less a c = true
  total : ∀ a b, less a b = false → less b a = false → a = b

theorem StrictTotal.not_less_trans {less : κ → κ → Bool} (order : StrictTotal less) {a b c : κ}
    (first : less b a = false) (second : less c b = false) : less c a = false := by
  cases behind : less c a with
  | false => rfl
  | true =>
    cases between : less b c with
    | true => rw [order.trans b c a between behind] at first; cases first
    | false =>
      rw [order.total b c between second, behind] at first
      cases first

variable {less key}

theorem insertStable_eq_orderedInsert (a : α) (l : List α) :
    insertStable less key a l = l.orderedInsert (fun x y => less (key y) (key x) = false) a := by
  induction l with
  | nil => rfl
  | cons b l ih => cases before : less (key b) (key a) <;> simp [insertStable, before, ih]

theorem stableSort_eq_insertionSort (l : List α) :
    stableSort less key l = l.insertionSort fun x y => less (key y) (key x) = false := by
  induction l with
  | nil => rfl
  | cons a l ih => rw [stableSort, ih, insertStable_eq_orderedInsert, insertionSort_cons]

theorem pairwise_stableSort (order : StrictTotal less) (l : List α) :
    (stableSort less key l).Pairwise fun x y => less (key y) (key x) = false := by
  have isTotal : Std.Total fun x y : α => less (key y) (key x) = false := by
    refine ⟨fun x y => or_iff_not_imp_left.mpr fun behind => ?_⟩
    by_contra before
    rw [Bool.not_eq_false] at behind before
    have loop := order.trans _ _ _ before behind
    rw [order.irrefl] at loop
    cases loop
  have isTrans : IsTrans α fun x y => less (key y) (key x) = false :=
    ⟨fun _ _ _ => order.not_less_trans⟩
  rw [stableSort_eq_insertionSort]
  exact pairwise_insertionSort _ l

end

variable [DecidableEq κ]

def SameByKey (key : α → κ) (l l' : List α) : Prop :=
  ∀ k, (l.filter fun a => decide (key a = k)) = l'.filter fun a => decide (key a = k)

variable {keyOf : β → κ}

namespace SameByKey

variable {key : α → κ} {l l' : List α} (same : SameByKey key l l')
include same

theorem symm : SameByKey key l' l := fun k => (same k).symm

theorem mem_iff (a : α) : a ∈ l ↔ a ∈ l' := by
  have alike := congrArg (a ∈ ·) (same (key a))
  simpa using alike

theorem append_left (front : List α) : SameByKey key (front ++ l) (front ++ l') := by
  intro k
  rw [filter_append, filter_append, same k]

theorem find_eq (k : κ) :
    (l.find? fun a => decide (key a = k)) = l'.find? fun a => decide (key a = k) := by
  rw [← head?_filter, ← head?_filter, same k]

theorem filterMap {f : α → Option β} (keeps : ∀ a b, f a = some b → keyOf b = key a) :
    SameByKey keyOf (l.filterMap f) (l'.filterMap f) := by
  have commutes : ∀ (list : List α) k, ((list.filterMap f).filter fun b => decide (keyOf b = k)) =
      (list.filter fun a => decide (key a = k)).filterMap f := by
    intro list k
    induction list with
    | nil => rfl
    | cons a list ih =>
      cases value : f a with
      | none => by_cases isKey : key a = k <;> simp [value, isKey, ih]
      | some b =>
        have sameKey := keeps a b value
        by_cases isKey : key a = k <;> simp [value, sameKey, isKey, ih]
  intro k
  rw [commutes, commutes, same k]

theorem map {f : α → β} (keeps : ∀ a, keyOf (f a) = key a) :
    SameByKey keyOf (l.map f) (l'.map f) := by
  have mapped : SameByKey keyOf (l.filterMap (some ∘ f)) (l'.filterMap (some ∘ f)) := by
    apply same.filterMap
    rintro a _ ⟨⟩
    exact keeps a
  rwa [filterMap_eq_map] at mapped

end SameByKey

section

variable {ε : Type u} {f : α → Except ε β} {r : List β}

/-- Such a function succeeds on a list if it does on all its elements. -/
theorem mapM_eq_ok {l : List α} : l.mapM f = .ok r ↔
    (∀ a ∈ l, ∃ b, f a = .ok b) ∧ r = l.filterMap fun a => (f a).toOption := by
  induction l generalizing r with
  | nil => simp [pure, Except.pure, eq_comm]
  | cons a l ih =>
    rw [mapM_cons_eq_ok]
    constructor
    · rintro ⟨b, rest, value, others, rfl⟩
      obtain ⟨all, rfl⟩ := ih.mp others
      exact ⟨forall_mem_cons.mpr ⟨⟨b, value⟩, all⟩, by rw [filterMap_cons, value]; rfl⟩
    · rintro ⟨all, rfl⟩
      obtain ⟨⟨b, value⟩, rest⟩ := forall_mem_cons.mp all
      exact ⟨b, _, value, ih.mpr ⟨rest, rfl⟩, by rw [filterMap_cons, value]; rfl⟩

theorem SameByKey.mapM {key : α → κ} {l l' : List α} (same : SameByKey key l l')
    (keeps : ∀ a b, f a = .ok b → keyOf b = key a) (succeeds : l.mapM f = .ok r) :
    ∃ r', l'.mapM f = .ok r' ∧ SameByKey keyOf r r' := by
  obtain ⟨all, rfl⟩ := mapM_eq_ok.mp succeeds
  refine ⟨_, mapM_eq_ok.mpr ⟨fun a mem => all a ((same.mem_iff a).mpr mem), rfl⟩, ?_⟩
  apply same.filterMap
  exact fun a b value => keeps a b (toOption_eq_some.mp value)

end

section

variable {less : κ → κ → Bool} {key : α → κ} (order : StrictTotal less)
include order

theorem filter_insertStable (a : α) (l : List α) (k : κ) :
    ((insertStable less key a l).filter fun b => decide (key b = k)) =
      (a :: l).filter fun b => decide (key b = k) := by
  induction l with
  | nil => rfl
  | cons c l ih =>
    rw [insertStable]
    split
    next before =>
      -- An element that is passed has another key.
      have different : key c ≠ key a := by
        intro same
        rw [same, order.irrefl] at before
        cases before
      rw [filter_cons, ih]
      by_cases isA : key a = k
      · have notC : key c ≠ k := fun isC => different (isC.trans isA.symm)
        simp [isA, notC]
      · simp [isA, filter_cons]
    next => rfl

theorem filter_stableSort (l : List α) (k : κ) :
    ((stableSort less key l).filter fun b => decide (key b = k)) =
      l.filter fun b => decide (key b = k) := by
  induction l with
  | nil => rfl
  | cons a l ih =>
    rw [stableSort, filter_insertStable order, filter_cons, filter_cons, ih]

theorem SameByKey.eq_of_sorted {l l' : List α} (same : SameByKey key l l')
    (sorted : l.Pairwise fun x y => less (key y) (key x) = false)
    (sorted' : l'.Pairwise fun x y => less (key y) (key x) = false) : l = l' := by
  induction l generalizing l' with
  | nil =>
    cases l' with
    | nil => rfl
    | cons b l' => exact absurd ((same.mem_iff b).mpr (mem_cons_self ..)) not_mem_nil
  | cons a l ih =>
    cases l' with
    | nil => exact absurd ((same.mem_iff a).mp (mem_cons_self ..)) not_mem_nil
    | cons b l' =>
      rw [pairwise_cons] at sorted sorted'
      -- Both begin with the least key, so with the same element.
      have sameKey : key a = key b := by
        apply order.total
        · rcases mem_cons.mp ((same.mem_iff a).mp (mem_cons_self ..)) with rfl | later
          · exact order.irrefl _
          · exact sorted'.1 a later
        · rcases mem_cons.mp ((same.mem_iff b).mpr (mem_cons_self ..)) with rfl | later
          · exact order.irrefl _
          · exact sorted.1 b later
      have heads := congrArg head? (same (key a))
      obtain rfl : a = b := by simpa [sameKey] using heads
      have rest : SameByKey key l l' := by
        intro k
        have whole := same k
        by_cases isKey : key a = k <;> simpa [isKey] using whole
      rw [ih rest sorted.2 sorted'.2]

/-- The sort does not depend on how elements of different keys are mixed. -/
theorem SameByKey.stableSort_eq {l l' : List α} (same : SameByKey key l l') :
    stableSort less key l = stableSort less key l' := by
  apply eq_of_sorted order _ (pairwise_stableSort order l) (pairwise_stableSort order l')
  intro k
  rw [filter_stableSort order, filter_stableSort order, same k]

end

/-- The order of Go strings, byte by byte. -/
def lessString : Str → Str → Bool
  | [], [] => false
  | [], _ :: _ => true
  | _ :: _, [] => false
  | a :: as, b :: bs => decide (a < b) || (a == b && lessString as bs)

theorem lessString_iff (a b : Str) : lessString a b = true ↔ a < b := by
  induction a generalizing b with
  | nil => cases b <;> simp [lessString]
  | cons x a ih => cases b <;> simp [lessString, cons_lt_cons_iff, ih]

theorem lessString_strictTotal : StrictTotal lessString where
  irrefl text := by
    rw [← Bool.not_eq_true, lessString_iff]
    exact List.lt_irrefl text
  trans a b c := by
    simp only [lessString_iff]
    exact List.lt_trans
  total a b := by
    simp only [← Bool.not_eq_true, lessString_iff, List.not_lt]
    exact fun notLess notGreater => List.le_antisymm notGreater notLess

end FastGoZero.Lib.StableSort
