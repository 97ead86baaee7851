import Mathlib.Data.List.AList

/-!
# Finite maps with an unspecified iteration order

A Go map is an association list with distinct keys. Reading, writing, deleting
and counting do not depend on the order of the entries. A program that ranges
over a map sees its entries in an order the language leaves open, so a model of
such a loop takes a permutation of `entries` or proves that the order is
immaterial.
-/

namespace FastGoZero.Lib

open List

universe u v
variable {K : Type u} {V : Type v}

/-- The map type: distinct keys are part of the value. -/
abbrev GoMap (K : Type u) (V : Type v) := AList (fun _ : K => V)

namespace GoMap

variable [DecidableEq K] (m : GoMap K V)

def len : Nat := m.entries.length

/-- `for k, v := range source { target[k] = v }`. -/
def copyInto (source target : GoMap K V) : GoMap K V :=
  source.entries.foldl (fun m entry => m.insert entry.1 entry.2) target

/-- Write through a pointer that the map stores at `key`; no key is added. -/
def modify (key : K) (change : V → V) : GoMap K V :=
  match m.lookup key with
  | none => m
  | some value => m.insert key (change value)

variable (key probe : K)

theorem lookup_insert_if (value : V) :
    (m.insert key value).lookup probe = if probe = key then some value else m.lookup probe := by
  by_cases same : probe = key
  · subst same
    simp
  · simp [same, AList.lookup_insert_ne same]

theorem lookup_erase_if :
    (m.erase key).lookup probe = if probe = key then none else m.lookup probe := by
  by_cases same : probe = key
  · subst same
    simp
  · simp [same, AList.lookup_erase_ne same]

theorem mem_iff_lookup (key : K) : key ∈ m ↔ ∃ value, m.lookup key = some value := by
  rw [← AList.lookup_isSome, Option.isSome_iff_exists]

theorem mem_entries_iff (key : K) (value : V) :
    (⟨key, value⟩ : Sigma fun _ : K => V) ∈ m.entries ↔ m.lookup key = some value :=
  (AList.mem_lookup_iff).symm

variable (written : List (Sigma fun _ : K => V))

/-- Writing a list of entries in order: the last write of a key wins, and an
unwritten key keeps its old value. -/
theorem lookup_foldl_insert_absent (m : GoMap K V) (probe : K)
    (absent : ∀ entry ∈ written, entry.1 ≠ probe) :
    (written.foldl (fun m entry => m.insert entry.1 entry.2) m).lookup probe =
      m.lookup probe := by
  induction written generalizing m with
  | nil => rfl
  | cons entry rest ih =>
    have fresh : entry.1 ≠ probe := absent entry mem_cons_self
    rw [foldl_cons, ih _ fun e mem =>
      absent e (mem_cons_of_mem _ mem)]
    exact AList.lookup_insert_ne fresh.symm

theorem lookup_foldl_insert_present (m : GoMap K V) (key : K) (value : V)
    (distinct : (written.map Sigma.fst).Nodup)
    (mem : (⟨key, value⟩ : Sigma fun _ : K => V) ∈ written) :
    (written.foldl (fun m entry => m.insert entry.1 entry.2) m).lookup key = some value := by
  induction written generalizing m with
  | nil => simp at mem
  | cons entry rest ih =>
    obtain ⟨fresh, restDistinct⟩ := nodup_cons.mp distinct
    rcases mem_cons.mp mem with same | later
    · subst same
      have absent : ∀ other ∈ rest, other.1 ≠ key := by
        intro other present equal
        exact fresh (mem_map.mpr ⟨other, present, equal⟩)
      rw [foldl_cons, lookup_foldl_insert_absent rest _ key absent]
      exact AList.lookup_insert m
    · exact ih _ restDistinct later

/-- Copying gives the source precedence and keeps the rest of the target. -/
theorem lookup_copyInto (source target : GoMap K V) (probe : K) :
    (copyInto source target).lookup probe = (source.lookup probe).or (target.lookup probe) := by
  cases found : source.lookup probe with
  | some value =>
    have mem := (mem_entries_iff source probe value).mpr found
    exact lookup_foldl_insert_present source.entries target probe value source.nodupKeys mem
  | none =>
    have absent : ∀ entry ∈ source.entries, entry.1 ≠ probe := by
      rintro ⟨key, value⟩ mem rfl
      simp [(mem_entries_iff source key value).mp mem] at found
    exact lookup_foldl_insert_absent source.entries target probe absent

/-- A write through the stored pointer is seen at its own key only. -/
theorem lookup_modify (change : V → V) : (m.modify key change).lookup probe =
      if probe = key then (m.lookup probe).map change else m.lookup probe := by
  unfold modify
  split
  · rename_i absent
    by_cases same : probe = key
    · subst same
      simp [absent]
    · simp [same]
  · rename_i value found
    by_cases same : probe = key
    · subst same
      simp [found]
    · simp [same, AList.lookup_insert_ne same]

/-- The order in which one `range` loop visits a map: any permutation. -/
structure RangeOrder (K : Type u) (V : Type v) where
  order : List (K × V) → List (K × V)
  perm : ∀ entries, (order entries).Perm entries

variable (visit : RangeOrder K V)

/-- The entries as a `range` loop sees them. -/
def range : List (K × V) :=
  visit.order (m.entries.map fun entry => (entry.1, entry.2))

theorem mem_range (key : K) (value : V) :
    (key, value) ∈ m.range visit ↔ m.lookup key = some value := by
  rw [range, (visit.perm _).mem_iff, ← mem_entries_iff, mem_map]
  constructor
  · rintro ⟨⟨k, v⟩, mem, same⟩
    cases same
    exact mem
  · intro mem
    exact ⟨_, mem, rfl⟩

omit [DecidableEq K] in
theorem nodup_range : (m.range visit).Nodup := by
  rw [range, (visit.perm _).nodup_iff]
  refine Nodup.map ?_ m.nodupKeys.nodup
  rintro ⟨k, v⟩ ⟨l, w⟩ same
  cases same
  rfl

end GoMap

end FastGoZero.Lib
