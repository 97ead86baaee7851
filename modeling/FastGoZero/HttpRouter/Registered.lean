import FastGoZero.HttpRouter.Node
import Mathlib.Data.List.Perm.Basic

/-!
# The patterns a tree holds

A handler is registered under the paths of the nodes that lead to it, one after the
other. What an operation on a node does to the registered patterns depends on the
node's path, its handler and its children in any order.
-/

namespace FastGoZero.HttpRouter

open Lib

universe u

variable {H : Type u}

/-- The handler is registered under the pattern below the node. -/
inductive Reg : Node H → Str → H → Prop
  | here {n : Node H} {h : H} (set : n.handlers = some h) : Reg n n.path h
  | child {n c : Node H} {pattern : Str} {h : H} (mem : c ∈ n.children)
      (below : Reg c pattern h) : Reg n (n.path ++ pattern) h

variable {n : Node H} {pattern : Str} {h : H} {m c : Node H}

theorem reg_iff :
    Reg n pattern h ↔ n.handlers = some h ∧ pattern = n.path ∨
      ∃ c ∈ n.children, ∃ rest, pattern = n.path ++ rest ∧ Reg c rest h := by
  constructor
  · rintro (set | ⟨mem, below⟩)
    · exact Or.inl ⟨set, rfl⟩
    · exact Or.inr ⟨_, mem, _, rfl, below⟩
  · rintro (⟨set, rfl⟩ | ⟨c, mem, rest, rfl, below⟩)
    · exact .here set
    · exact .child mem below

theorem reg_prefix (reg : Reg n pattern h) : n.path <+: pattern := by
  rcases reg_iff.mp reg with ⟨-, rfl⟩ | ⟨c, -, rest, rfl, -⟩
  · exact List.prefix_refl _
  · exact List.prefix_append _ _

/-- The order of the children, the indices and the priority do not matter. -/
theorem reg_congr (path : n.path = m.path) (handlers : n.handlers = m.handlers)
    (children : n.children.Perm m.children) : Reg n pattern h ↔ Reg m pattern h := by
  rw [reg_iff, reg_iff, path, handlers]
  simp only [children.mem_iff]

@[simp] theorem reg_bump : Reg n.bump pattern h ↔ Reg n pattern h := by
  apply reg_congr
  · rfl
  · rfl
  · exact List.Perm.refl _

theorem exists_rest_iff {base q : Str} {p : Prop} :
    (∃ rest, q = base ++ rest ∧ rest = pattern ∧ p) ↔ q = base ++ pattern ∧ p := by
  constructor
  · rintro ⟨rest, rfl, rfl, given⟩
    exact ⟨rfl, given⟩
  · rintro ⟨rfl, given⟩
    exact ⟨pattern, rfl, rfl, given⟩

/-- The only pattern below the node. -/
def Only (n : Node H) (pattern : Str) (h : H) : Prop :=
  ∀ q g, Reg n q g ↔ q = pattern ∧ g = h

/-- The second tree holds one pattern more than the first. -/
def Adds (n m : Node H) (pattern : Str) (h : H) : Prop :=
  ∀ q g, Reg m q g ↔ Reg n q g ∨ q = pattern ∧ g = h

theorem Adds.congr {n' : Node H} (adds : Adds n m pattern h)
    (same : ∀ q g, Reg n' q g ↔ Reg n q g) : Adds n' m pattern h := by
  intro q g
  rw [adds q g, same q g]

theorem only_leaf (set : n.handlers = some h) (leaf : n.children = []) : Only n n.path h := by
  intro q g
  rw [reg_iff, set, leaf]
  simp [and_comm, eq_comm]

theorem only_holder (unset : n.handlers = none)
    (children : n.children = [c]) (below : Only c pattern h) : Only n (n.path ++ pattern) h := by
  intro q g
  rw [reg_iff, unset, children]
  simp only [reduceCtorEq, false_and, List.mem_singleton, exists_eq_left, false_or, below _ g,
    exists_rest_iff]

theorem adds_here (unset : n.handlers = none) (set : m.handlers = some h)
    (path : m.path = n.path) (children : m.children = n.children) : Adds n m n.path h := by
  intro q g
  rw [reg_iff, reg_iff, unset, set, path, children]
  simp only [Option.some.injEq, reduceCtorEq, false_and, false_or]
  rw [or_comm, and_comm, eq_comm (a := h)]

theorem adds_newChild (path : m.path = n.path)
    (handlers : m.handlers = n.handlers) (children : m.children.Perm (c :: n.children))
    (below : Only c pattern h) : Adds n m (n.path ++ pattern) h := by
  intro q g
  rw [reg_iff, reg_iff, path, handlers]
  simp only [children.mem_iff, List.mem_cons, or_and_right, exists_or, exists_eq_left, below _ g]
  rw [exists_rest_iff]
  simp only [or_comm, or_left_comm]

theorem adds_inChild {c' : Node H} {others : List (Node H)}
    (path : m.path = n.path) (handlers : m.handlers = n.handlers)
    (before : n.children.Perm (c :: others)) (after : m.children.Perm (c' :: others))
    (below : Adds c c' pattern h) : Adds n m (n.path ++ pattern) h := by
  intro q g
  rw [reg_iff, reg_iff, path, handlers]
  simp only [after.mem_iff, before.mem_iff, List.mem_cons, or_and_right, exists_or, exists_eq_left,
    below _ g, and_or_left]
  rw [exists_rest_iff]
  simp only [or_assoc, or_comm, or_left_comm]

end FastGoZero.HttpRouter
