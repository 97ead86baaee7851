import FastGoZero.Lib.GoString
import Mathlib.Data.List.Perm.Basic

/-!
# Decoded documents

A document is a scalar, an array, or an object with keys. An object is a list of entries, of which
the order does not count: documents are the same if all that can be read from them along paths of
keys and indices is the same. An object that is built by assignments holds the last value that was
assigned to each key.
-/

namespace FastGoZero.Lib

open List

inductive Document (α : Type) where
  | scalar (value : α)
  | array (elems : List (Document α))
  | object (entries : List (Str × Document α))

namespace Document

variable {α : Type}

/-- Induction over a document with all elements and all entries at once. -/
theorem induction {motive : Document α → Prop} (scalar : ∀ value, motive (.scalar value))
    (array : ∀ elems, (∀ v ∈ elems, motive v) → motive (.array elems))
    (object : ∀ entries, (∀ entry ∈ entries, motive entry.2) → motive (.object entries))
    (v : Document α) : motive v :=
  @rec α motive (fun elems => ∀ v ∈ elems, motive v)
    (fun entries => ∀ entry ∈ entries, motive entry.2) (fun entry => motive entry.2)
    scalar array object (by simp)
    (fun _ _ first rest => forall_mem_cons.mpr ⟨first, rest⟩) (by simp)
    (fun _ _ first rest => forall_mem_cons.mpr ⟨first, rest⟩)
    (fun _ _ holds => holds) v

variable (entries : List (Str × Document α)) {key : Str}

/-- `m[key]`. -/
def lookup (key : Str) : Option (Document α) :=
  (entries.find? fun entry => entry.1 = key).map Prod.snd

theorem lookup_eq_none {entries : List (Str × Document α)} :
    lookup entries key = none ↔ ∀ entry ∈ entries, entry.1 ≠ key := by
  simp [lookup]

/-- `m[key] = value`. -/
def assign (entry : Str × Document α) : List (Str × Document α) :=
  entries.filter (fun other => other.1 ≠ entry.1) ++ [entry]

theorem lookup_assign (entry : Str × Document α) (key : Str) :
    lookup (assign entries entry) key =
      if key = entry.1 then some entry.2 else lookup entries key := by
  rw [lookup, assign, find?_append]
  by_cases same : key = entry.1
  · have none : (entries.filter fun other => other.1 ≠ entry.1).find?
        (fun other => other.1 = key) = none := by
      rw [find?_eq_none]
      intro other mem
      simpa [same] using (mem_filter.mp mem).2
    rw [none, if_pos same]
    simp [same]
  · have kept : (entries.filter fun other => other.1 ≠ entry.1).find?
        (fun other => other.1 = key) = entries.find? fun other => other.1 = key := by
      rw [find?_filter]
      congr 1
      funext other
      by_cases found : other.1 = key
      · simp [found, same]
      · simp [found]
    rw [kept, if_neg same, lookup]
    simp [Ne.symm same]

variable (written : List (Str × Document α))

theorem lookup_foldl_assign (key : Str) :
    lookup (written.foldl assign []) key =
      ((written.filter fun entry => entry.1 = key).getLast?).map Prod.snd := by
  induction written using reverseRecOn with
  | nil => rfl
  | append_singleton written entry ih =>
    rw [foldl_append, foldl_cons, foldl_nil, lookup_assign, filter_append]
    by_cases same : key = entry.1
    · subst same
      simp
    · simp [same, Ne.symm same, ih]

theorem lookup_foldl_assign_eq_none {written : List (Str × Document α)} :
    lookup (written.foldl assign []) key = none ↔ ∀ entry ∈ written, entry.1 ≠ key := by
  rw [lookup_foldl_assign, Option.map_eq_none_iff, getLast?_eq_none_iff, filter_eq_nil_iff]
  simp

theorem lookup_foldl_assign_last (entry : Str × Document α) :
    lookup ((written ++ [entry]).foldl assign []) entry.1 = some entry.2 := by
  rw [foldl_append, foldl_cons, foldl_nil, lookup_assign, if_pos rfl]

inductive Step where
  | key (key : Str)
  | index (i : Nat)
deriving DecidableEq

/-- What is seen at a place of a document. -/
inductive Shape (α : Type) where
  | scalar (value : α)
  | array (length : Nat)
  | object
deriving DecidableEq

def shape : Document α → Shape α
  | scalar value => .scalar value
  | array elems => .array elems.length
  | object _ => .object

def read : List Step → Document α → Option (Shape α)
  | [], v => some v.shape
  | .index i :: path, array elems => (elems[i]?).bind (read path)
  | .key key :: path, object entries => (lookup entries key).bind (read path)
  | _, _ => none

def get? : List Step → Document α → Option (Document α)
  | [], v => some v
  | .index i :: path, array elems => (elems[i]?).bind (get? path)
  | .key key :: path, object entries => (lookup entries key).bind (get? path)
  | _, _ => none

/-- A document with a value at a path. -/
def along : List Step → Document α → Document α
  | [], v => v
  | .index i :: path, v => array (List.replicate (i + 1) (along path v))
  | .key key :: path, v => object [(key, along path v)]

theorem get?_along (path : List Step) (v : Document α) : get? path (along path v) = some v := by
  induction path with
  | nil => rfl
  | cons step path ih =>
    cases step with
    | index i => simp [get?, along, ih]
    | key key => simp [get?, along, lookup, ih]

/-- Nothing that can be read tells the documents apart. -/
def Same (v w : Document α) : Prop := ∀ path, read path v = read path w

theorem Same.refl (v : Document α) : Same v v := fun _ => rfl

variable {v w : Document α}

theorem Same.symm (same : Same v w) : Same w v := fun path => (same path).symm

theorem Same.shape_eq (same : Same v w) : v.shape = w.shape :=
  Option.some.inj (same [])

variable {elems others : List (Document α)}

theorem same_array (length : elems.length = others.length)
    (same : ∀ (i : Nat) v w, elems[i]? = some v → others[i]? = some w → Same v w) :
    Same (.array elems) (.array others) := by
  intro path
  cases path with
  | nil => simp [read, shape, length]
  | cons step path =>
    cases step with
    | key key => rfl
    | index i =>
      rw [read, read]
      by_cases inside : i < elems.length
      · have insideToo : i < others.length := length ▸ inside
        rw [getElem?_eq_getElem inside, getElem?_eq_getElem insideToo]
        exact same i _ _ (getElem?_eq_getElem inside) (getElem?_eq_getElem insideToo) path
      · rw [getElem?_eq_none (by omega), getElem?_eq_none (by omega)]

theorem Same.elem (same : Same (.array elems) (.array others)) {i : Nat}
    (first : elems[i]? = some v) (second : others[i]? = some w) :
    Same v w := by
  intro path
  have here := same (.index i :: path)
  rwa [read, read, first, second] at here

theorem same_object {entries others : List (Str × Document α)}
    (same : ∀ key path, (lookup entries key).bind (read path) =
      (lookup others key).bind (read path)) : Same (.object entries) (.object others) := by
  intro path
  cases path with
  | nil => rfl
  | cons step path =>
    cases step with
    | key key => exact same key path
    | index i => rfl

theorem Same.lookup {entries others : List (Str × Document α)}
    (same : Same (.object entries) (.object others)) (first : lookup entries key = some v)
    (second : lookup others key = some w) :
    Same v w := by
  intro path
  have here := same (.key key :: path)
  rwa [read, read, first, second] at here

end Document

end FastGoZero.Lib
