import FastGoZero.Conf.FieldInfo
import FastGoZero.Lib.Document

/-!
# Keys in lower case

`toLowerCaseKeyMap` rewrites the keys of a decoded configuration along a description of its type.
A key that is the name of a field, or becomes one in lower case, is written as that name; the
value is rewritten by the description of the field. Under a map the keys stay, and the values are
rewritten by the description of the map. Any other key stays, and an object under it is rewritten
by the description at hand.

The loop over an object sees its entries in an order that is left open, for each object anew.
-/

namespace FastGoZero.Conf

open Lib List

/-- The orders of all loops over objects. A loop is known by the path to its object. -/
structure RangeOrders (α : Type) where
  visit : List Nat → List (Str × Document α) → List (Str × Document α)
  perm : ∀ path entries, (visit path entries).Perm entries

/-- Every loop goes through the entries as they are listed. -/
def RangeOrders.listed {α : Type} : RangeOrders α where
  visit _ entries := entries
  perm _ _ := List.Perm.refl _

/-- How a value is rewritten: by `toLowerCaseInterface`, or by `toLowerCaseKeyMap` if it is an
object. -/
inductive Rewrite where
  | interface (info : FieldInfo)
  | keyMap (info : FieldInfo)

def Rewrite.info : Rewrite → FieldInfo
  | interface info => info
  | keyMap info => info

section

variable {α : Type} (lower : Str → Str) (orders : RangeOrders α)

/-- The key that an entry is written to, and how its value is rewritten. -/
def target (info : FieldInfo) (k : Str) : Str × Rewrite :=
  match info.child? k with
  | some ti => (k, .interface ti)
  | none =>
    match info.child? (lower k) with
    | some ti => (lower k, .interface ti)
    | none =>
      match info.mapField with
      | some mapField => (k, .interface mapField)
      | none => (k, .keyMap info)

mutual

/-- `toLowerCaseInterface`, or what is done to a value otherwise. -/
def rewrite (path : List Nat) (how : Rewrite) : Document α → Document α
  | .scalar v => .scalar v
  | .array elems =>
    match how with
    | .interface info => .array (rewriteElems path 0 info elems)
    | .keyMap _ => .array elems
  | .object entries =>
    .object ((orders.visit path (rewriteEntries path 0 how.info entries)).foldl Document.assign [])

def rewriteElems (path : List Nat) (i : Nat) (info : FieldInfo) :
    List (Document α) → List (Document α)
  | [] => []
  | v :: rest => rewrite (path ++ [i]) (.interface info) v :: rewriteElems path (i + 1) info rest

def rewriteEntries (path : List Nat) (i : Nat) (info : FieldInfo) :
    List (Str × Document α) → List (Str × Document α)
  | [] => []
  | entry :: rest => rewriteEntry path i info entry :: rewriteEntries path (i + 1) info rest

/-- The entry that the loop writes for an entry. -/
def rewriteEntry (path : List Nat) (i : Nat) (info : FieldInfo) :
    Str × Document α → Str × Document α
  | (k, v) => ((target lower info k).1, rewrite (path ++ [i]) (target lower info k).2 v)

end

variable (path : List Nat)

def toLowerCaseInterface (v : Document α) (info : FieldInfo) : Document α :=
  rewrite lower orders path (.interface info) v

def toLowerCaseKeyMap (m : List (Str × Document α)) (info : FieldInfo) : List (Str × Document α) :=
  (orders.visit path (rewriteEntries lower orders path 0 info m)).foldl Document.assign []

@[simp]
theorem rewriteEntry_fst (i : Nat) (info : FieldInfo) (entry : Str × Document α) :
    (rewriteEntry lower orders path i info entry).1 = (target lower info entry.1).1 := by
  rw [rewriteEntry]

@[simp]
theorem rewriteEntry_snd (i : Nat) (info : FieldInfo) (entry : Str × Document α) :
    (rewriteEntry lower orders path i info entry).2 =
      rewrite lower orders (path ++ [i]) (target lower info entry.1).2 entry.2 := by
  rw [rewriteEntry]

theorem getElem?_rewriteElems (start : Nat) (info : FieldInfo) (elems : List (Document α)) (i : Nat)
    : (rewriteElems lower orders path start info elems)[i]? =
      (elems[i]?).map (rewrite lower orders (path ++ [start + i]) (.interface info)) := by
  induction elems generalizing start i with
  | nil => rfl
  | cons v rest ih =>
    cases i with
    | zero => rfl
    | succ i =>
      rw [rewriteElems, getElem?_cons_succ, getElem?_cons_succ, ih, Nat.add_right_comm]
      rfl

theorem length_rewriteElems (start : Nat) (info : FieldInfo) (elems : List (Document α)) :
    (rewriteElems lower orders path start info elems).length = elems.length := by
  induction elems generalizing start with
  | nil => rfl
  | cons v rest ih =>
    rw [rewriteElems, length_cons, length_cons, ih]

theorem getElem?_rewriteEntries (start : Nat) (info : FieldInfo)
    (entries : List (Str × Document α)) (i : Nat) :
    (rewriteEntries lower orders path start info entries)[i]? =
      (entries[i]?).map (rewriteEntry lower orders path (start + i) info) := by
  induction entries generalizing start i with
  | nil => rfl
  | cons entry rest ih =>
    cases i with
    | zero => rfl
    | succ i =>
      rw [rewriteEntries, getElem?_cons_succ, getElem?_cons_succ, ih, Nat.add_right_comm]
      rfl

theorem shape_rewrite (how : Rewrite) (v : Document α) :
    (rewrite lower orders path how v).shape = v.shape := by
  cases v with
  | scalar value | object entries => rfl
  | array elems =>
    cases how with
    | keyMap info => rfl
    | interface info => rw [rewrite, Document.shape, length_rewriteElems, Document.shape]

end

end FastGoZero.Conf
