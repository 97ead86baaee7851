import FastGoZero.Lib.GoMap

/-!
# SafeMap

A map kept in two halves, so that the half with many deletions can be dropped
once it holds few entries. A key lives in at most one half; that fact is part of
the value. Every operation acts on the union of the halves as on one plain map,
whatever migrations happen on the way.
-/

namespace FastGoZero.Collection

open Lib GoMap

universe u v
variable {K : Type u} {V : Type v}

def copyThreshold : Nat := 1000
def maxDeletion : Nat := 10000

/-- The two halves with their deletion counters. -/
structure SafeMap (K : Type u) (V : Type v) where
  deletionOld : Nat
  deletionNew : Nat
  dirtyOld : GoMap K V
  dirtyNew : GoMap K V
  disjoint : ∀ key ∈ dirtyOld, key ∉ dirtyNew

namespace SafeMap

def newSafeMap : SafeMap K V := ⟨0, 0, ∅, ∅, fun _ _ => AList.notMem_empty _⟩

variable [DecidableEq K] (m : SafeMap K V)

def get (key : K) : Option V :=
  match m.dirtyOld.lookup key with
  | some value => some value
  | none => m.dirtyNew.lookup key

def set (key : K) (value : V) : SafeMap K V :=
  if m.deletionOld ≤ maxDeletion then
    { m with
      deletionNew := if key ∈ m.dirtyNew then m.deletionNew + 1 else m.deletionNew
      dirtyNew := m.dirtyNew.erase key
      dirtyOld := m.dirtyOld.insert key value
      disjoint := by
        intro probe old new
        rw [AList.mem_erase] at new
        rcases (AList.mem_insert _).mp old with same | old
        · exact new.1 same
        · exact m.disjoint probe old new.2 }
  else
    { m with
      deletionOld := if key ∈ m.dirtyOld then m.deletionOld + 1 else m.deletionOld
      dirtyOld := m.dirtyOld.erase key
      dirtyNew := m.dirtyNew.insert key value
      disjoint := by
        intro probe old new
        rw [AList.mem_erase] at old
        rcases (AList.mem_insert _).mp new with same | new
        · exact old.1 same
        · exact m.disjoint probe old.2 new }

/-- The deletion of `del`, before the halves are migrated. -/
def drop (key : K) : SafeMap K V :=
  if key ∈ m.dirtyOld then
    { m with
      deletionOld := m.deletionOld + 1
      dirtyOld := m.dirtyOld.erase key
      disjoint := fun probe old => m.disjoint probe (AList.mem_erase.mp old).2 }
  else if key ∈ m.dirtyNew then
    { m with
      deletionNew := m.deletionNew + 1
      dirtyNew := m.dirtyNew.erase key
      disjoint := fun probe old new => m.disjoint probe old (AList.mem_erase.mp new).2 }
  else m

/-- The old half has shrunk: its entries move to the new half, which takes its
place. -/
def migrateOld : SafeMap K V :=
  if maxDeletion ≤ m.deletionOld ∧ m.dirtyOld.len < copyThreshold then
    { deletionOld := m.deletionNew
      deletionNew := 0
      dirtyOld := m.dirtyOld.copyInto m.dirtyNew
      dirtyNew := ∅
      disjoint := fun _ _ => AList.notMem_empty _ }
  else m

/-- The new half has shrunk: its entries move to the old half. -/
def migrateNew : SafeMap K V :=
  if maxDeletion ≤ m.deletionNew ∧ m.dirtyNew.len < copyThreshold then
    { m with
      deletionNew := 0
      dirtyOld := m.dirtyNew.copyInto m.dirtyOld
      dirtyNew := ∅
      disjoint := fun _ _ => AList.notMem_empty _ }
  else m

def del (key : K) : SafeMap K V := (m.drop key).migrateOld.migrateNew

def size : Nat := m.dirtyOld.len + m.dirtyNew.len

/-- Write through a pointer that the map holds at `key`. The halves and the
counters do not see it. -/
def modify (key : K) (change : V → V) : SafeMap K V :=
  { m with
    dirtyOld := m.dirtyOld.modify key change
    dirtyNew := m.dirtyNew.modify key change
    disjoint := by
      intro probe old new
      have oldKey : probe ∈ m.dirtyOld := by
        rw [mem_iff_lookup, lookup_modify] at old
        rw [← AList.lookup_isSome]
        split at old <;> obtain ⟨value, found⟩ := old <;> cases stored : m.dirtyOld.lookup probe <;>
          simp_all
      have newKey : probe ∈ m.dirtyNew := by
        rw [mem_iff_lookup, lookup_modify] at new
        rw [← AList.lookup_isSome]
        split at new <;> obtain ⟨value, found⟩ := new <;> cases stored : m.dirtyNew.lookup probe <;>
          simp_all
      exact m.disjoint probe oldKey newKey }

/-- Reading consults the old half first; the halves are disjoint, so the order
does not matter to the callers. -/
theorem get_eq_or (key : K) : m.get key = (m.dirtyOld.lookup key).or (m.dirtyNew.lookup key) := by
  unfold get
  split <;> simp [*]

theorem get_newSafeMap (key : K) : (newSafeMap : SafeMap K V).get key = none := rfl

theorem lookup_new_of_old {key : K} (old : key ∈ m.dirtyOld) : m.dirtyNew.lookup key = none :=
  AList.lookup_eq_none.mpr (m.disjoint key old)

variable (key probe : K)

/-- The read-over-write law: `set` overwrites one key of the plain map. -/
theorem get_set (value : V) :
    (m.set key value).get probe = if probe = key then some value else m.get probe := by
  simp only [get_eq_or]
  unfold set
  by_cases same : probe = key
  · subst same
    split <;> simp
  · split <;> simp [same]

theorem get_drop : (m.drop key).get probe = if probe = key then none else m.get probe := by
  simp only [get_eq_or]
  unfold drop
  by_cases same : probe = key
  · subst same
    split
    · rename_i old
      simp [lookup_new_of_old m old]
    · rename_i notOld
      have oldNone : m.dirtyOld.lookup probe = none := AList.lookup_eq_none.mpr notOld
      split
      · simp [oldNone]
      · rename_i notNew
        simp [oldNone, AList.lookup_eq_none.mpr notNew]
  · split
    · simp [same]
    · split <;> simp [same]

theorem get_migrateOld (probe : K) : m.migrateOld.get probe = m.get probe := by
  simp only [get_eq_or]
  unfold migrateOld
  split
  · simp [lookup_copyInto]
  · rfl

theorem get_migrateNew (probe : K) : m.migrateNew.get probe = m.get probe := by
  simp only [get_eq_or]
  unfold migrateNew
  split
  · simp only [lookup_copyInto, AList.lookup_empty, Option.or_none]
    cases old : m.dirtyOld.lookup probe with
    | none => simp
    | some value =>
      have present : probe ∈ m.dirtyOld := (mem_iff_lookup _ _).mpr ⟨value, old⟩
      simp [lookup_new_of_old m present]
  · rfl

/-- `del` removes one key of the plain map, also when it migrates a half. -/
theorem get_del : (m.del key).get probe = if probe = key then none else m.get probe := by
  rw [del, get_migrateNew, get_migrateOld, get_drop]

theorem get_modify (change : V → V) : (m.modify key change).get probe =
      if probe = key then (m.get probe).map change else m.get probe := by
  simp only [get_eq_or, modify, lookup_modify]
  by_cases same : probe = key
  · subst same
    cases m.dirtyOld.lookup probe <;> simp
  · simp [same]

end SafeMap

end FastGoZero.Collection
