import FastGoZero.Collection.SafeMap

/-!
# SafeMap as a plain map

A sequence of calls is answered as a plain map answers it. The plain map keeps one entry for each
key and ranges over its entries in an order that the language leaves open; the halves of a
`SafeMap` are ranged over one after the other, each in an order of its own. The halves together
hold the entries of the plain map, whatever was migrated on the way.
-/

namespace FastGoZero.Collection

open Lib List GoMap

universe u v
variable {K : Type u} {V : Type v}

/-- One `range` loop of `Range`. The function is known by whether it goes on, which may depend on
all that it was passed before. The loop yields what was passed and whether it came to its end. -/
def rangeLoop (goesOn : List (K × V) → Bool) :
    List (K × V) → List (K × V) → List (K × V) × Bool
  | passed, [] => (passed, true)
  | passed, entry :: rest =>
    if goesOn (passed ++ [entry]) then rangeLoop goesOn (passed ++ [entry]) rest
    else (passed ++ [entry], false)

/-- Two loops with a return in between are one loop. -/
theorem rangeLoop_append (goesOn : List (K × V) → Bool) (passed first second : List (K × V)) :
    rangeLoop goesOn passed (first ++ second) =
      if (rangeLoop goesOn passed first).2 then
        rangeLoop goesOn (rangeLoop goesOn passed first).1 second
      else rangeLoop goesOn passed first := by
  induction first generalizing passed with
  | nil => rfl
  | cons entry rest ih =>
    rw [cons_append, rangeLoop, rangeLoop]
    by_cases on : goesOn (passed ++ [entry]) = true
    · rw [if_pos on, if_pos on]
      exact ih _
    · rw [if_neg on, if_neg on]
      exact (if_neg Bool.false_ne_true).symm

/-- A call of a method. A `Range` comes with the orders in which its two loops visit. -/
inductive Operation (K : Type u) (V : Type v) where
  | set (key : K) (value : V)
  | get (key : K)
  | del (key : K)
  | range (goesOn : List (K × V) → Bool) (old new : GoMap.RangeOrder K V)
  | size

/-- What a call answers: nothing, a value if there is one, the entries that the function of
`Range` was passed, or a number. -/
inductive Answer (K : Type u) (V : Type v) where
  | done
  | value (found : Option V)
  | visited (entries : List (K × V))
  | size (n : Nat)

variable [DecidableEq K]

namespace SafeMap

def range (m : SafeMap K V) (goesOn : List (K × V) → Bool) (old new : GoMap.RangeOrder K V) :
    List (K × V) :=
  let first := rangeLoop goesOn [] (m.dirtyOld.range old)
  if first.2 then (rangeLoop goesOn first.1 (m.dirtyNew.range new)).1 else first.1

def step (m : SafeMap K V) : Operation K V → Answer K V × SafeMap K V
  | .set key value => (.done, m.set key value)
  | .get key => (.value (m.get key), m)
  | .del key => (.done, m.del key)
  | .range goesOn old new => (.visited (m.range goesOn old new), m)
  | .size => (.size m.size, m)

def run (m : SafeMap K V) : List (Operation K V) → List (Answer K V)
  | [] => []
  | operation :: rest => (m.step operation).1 :: run (m.step operation).2 rest

end SafeMap

/-- How a plain map may answer a call, and what it is then. It may range in any order. -/
inductive PlainStep (plain : GoMap K V) : Operation K V → Answer K V → GoMap K V → Prop
  | set (key : K) (value : V) : PlainStep plain (.set key value) .done (plain.insert key value)
  | get (key : K) : PlainStep plain (.get key) (.value (plain.lookup key)) plain
  | del (key : K) : PlainStep plain (.del key) .done (plain.erase key)
  | range {goesOn : List (K × V) → Bool} {old new : GoMap.RangeOrder K V} (order : List (K × V))
      (perm : order.Perm (plain.entries.map fun entry => (entry.1, entry.2))) :
      PlainStep plain (.range goesOn old new) (.visited (rangeLoop goesOn [] order).1) plain
  | size : PlainStep plain .size (.size plain.len) plain

/-- A sequence of calls of a plain map and answers that it may give. -/
inductive PlainRuns : GoMap K V → List (Operation K V) → List (Answer K V) → Prop
  | nil (plain : GoMap K V) : PlainRuns plain [] []
  | cons {plain after : GoMap K V} {operation : Operation K V} {answer : Answer K V}
      {rest : List (Operation K V)} {answers : List (Answer K V)}
      (step : PlainStep plain operation answer after) (runs : PlainRuns after rest answers) :
      PlainRuns plain (operation :: rest) (answer :: answers)

namespace SafeMap

/-- The halves together read as the plain map. -/
def Represents (m : SafeMap K V) (plain : GoMap K V) : Prop :=
  ∀ key, m.get key = plain.lookup key

theorem mem_entries (m : SafeMap K V) (key : K) (value : V) :
    (⟨key, value⟩ : Sigma fun _ : K => V) ∈ m.dirtyOld.entries ++ m.dirtyNew.entries ↔
      m.get key = some value := by
  rw [mem_append, mem_entries_iff, mem_entries_iff, get_eq_or, Option.or_eq_some_iff]
  constructor
  · rintro (old | new)
    · exact .inl old
    · refine .inr ⟨?_, new⟩
      -- a key of the new half cannot be in the old one as well
      rw [AList.lookup_eq_none]
      intro old
      exact m.disjoint key old ((mem_iff_lookup _ _).mpr ⟨value, new⟩)
  · rintro (old | ⟨_, new⟩)
    · exact .inl old
    · exact .inr new

omit [DecidableEq K] in
theorem nodup_entries (m : SafeMap K V) : (m.dirtyOld.entries ++ m.dirtyNew.entries).Nodup := by
  refine Nodup.append m.dirtyOld.nodupKeys.nodup m.dirtyNew.nodupKeys.nodup ?_
  rintro ⟨key, value⟩ old new
  have inOld : key ∈ m.dirtyOld := mem_keys_of_mem old
  have inNew : key ∈ m.dirtyNew := mem_keys_of_mem new
  exact m.disjoint key inOld inNew

namespace Represents

variable {m : SafeMap K V} {plain : GoMap K V} (represents : m.Represents plain)

include represents

/-- The halves hold exactly the entries of the plain map, each once. -/
theorem entries_perm : (m.dirtyOld.entries ++ m.dirtyNew.entries).Perm plain.entries := by
  rw [perm_ext_iff_of_nodup m.nodup_entries plain.nodupKeys.nodup]
  rintro ⟨key, value⟩
  rw [mem_entries, represents key, mem_entries_iff]

theorem size_eq : m.size = plain.len := by
  rw [size, len, len, len, ← represents.entries_perm.length_eq, length_append]

/-- The two loops of `Range` visit in an order in which the plain map may be ranged over. -/
theorem range_perm (old new : RangeOrder K V) :
    (m.dirtyOld.range old ++ m.dirtyNew.range new).Perm
      (plain.entries.map fun entry => (entry.1, entry.2)) := by
  have joined := represents.entries_perm.map fun entry => (entry.1, entry.2)
  rw [map_append] at joined
  exact ((old.perm _).append (new.perm _)).trans joined

theorem set (key : K) (value : V) : (m.set key value).Represents (plain.insert key value) := by
  intro probe
  rw [get_set, lookup_insert_if, represents probe]

theorem del (key : K) : (m.del key).Represents (plain.erase key) := by
  intro probe
  rw [get_del, lookup_erase_if, represents probe]

/-- One call: the plain map may answer the same, and is represented afterwards. -/
theorem step (operation : Operation K V) :
    ∃ after, PlainStep plain operation (m.step operation).1 after ∧
      (m.step operation).2.Represents after := by
  cases operation with
  | set key value => exact ⟨_, .set key value, represents.set key value⟩
  | get key =>
    refine ⟨plain, ?_, represents⟩
    rw [SafeMap.step, represents key]
    exact .get key
  | del key => exact ⟨_, .del key, represents.del key⟩
  | range goesOn old new =>
    refine ⟨plain, ?_, represents⟩
    have oneLoop : m.range goesOn old new =
        (rangeLoop goesOn [] (m.dirtyOld.range old ++ m.dirtyNew.range new)).1 := by
      rw [rangeLoop_append, SafeMap.range, apply_ite Prod.fst]
    rw [SafeMap.step, oneLoop]
    exact .range _ (represents.range_perm old new)
  | size =>
    refine ⟨plain, ?_, represents⟩
    rw [SafeMap.step, represents.size_eq]
    exact .size

theorem runs (operations : List (Operation K V)) :
    PlainRuns plain operations (m.run operations) := by
  induction operations generalizing m plain with
  | nil => exact .nil plain
  | cons operation rest ih =>
    obtain ⟨after, answered, kept⟩ := represents.step operation
    exact .cons answered (ih kept)

end Represents

theorem represents_newSafeMap : (newSafeMap : SafeMap K V).Represents ∅ := by
  intro key
  rw [get_newSafeMap, AList.lookup_empty]

/-- Every sequence of calls of a new `SafeMap` is answered as a plain map may answer it. -/
theorem run_refines_plain (operations : List (Operation K V)) :
    PlainRuns ∅ operations ((newSafeMap : SafeMap K V).run operations) :=
  represents_newSafeMap.runs operations

end SafeMap

end FastGoZero.Collection
