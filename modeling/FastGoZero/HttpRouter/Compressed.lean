import FastGoZero.HttpRouter.Node
import Mathlib.Data.List.Perm.Basic

/-!
# The tree is compressed

No node of a tree that `addRoute` has built could be merged with its only child: it has a handler,
or two children, or its child is a wildcard. So where the nodes end is decided by the patterns.
-/

namespace FastGoZero.HttpRouter

open List

universe u

variable {H : Type u}

/-- The node has something besides an only child of text. -/
def Node.Crowded (n : Node H) : Prop :=
  n.handlers.isSome = true ∨ 2 ≤ n.children.length ∨
    ∃ c, n.children = [c] ∧ (n.wildChild = true ∨ n.nType = .param ∨ c.nType = .catchAll)

inductive Tight : Node H → Prop
  | node {n : Node H} (crowded : n.Crowded) (kids : ∀ c ∈ n.children, Tight c) : Tight n

variable {n : Node H}

theorem Tight.crowded (tight : Tight n) : n.Crowded := by
  cases tight with
  | node crowded _ => exact crowded

theorem Tight.child {n c : Node H} (tight : Tight n) (mem : c ∈ n.children) : Tight c := by
  cases tight with
  | node _ kids => exact kids c mem

theorem Tight.leaf (set : n.handlers.isSome = true) (leaf : n.children = []) :
    Tight n := by
  refine .node (Or.inl set) ?_
  simp [leaf]

theorem Tight.single {n c : Node H} (only : n.children = [c])
    (kept : n.wildChild = true ∨ n.nType = .param ∨ c.nType = .catchAll) (tight : Tight c) :
    Tight n := by
  refine .node (Or.inr (Or.inr ⟨c, only, kept⟩)) ?_
  rw [only]
  exact forall_mem_singleton.mpr tight

theorem Tight.bump (tight : Tight n) : Tight n.bump :=
  .node tight.crowded fun _ => tight.child

/-- One child is exchanged for another one of its kind. -/
theorem Tight.setChild {n m c c' : Node H} {others : List (Node H)} (tight : Tight n)
    (handlers : m.handlers = n.handlers) (wildChild : m.wildChild = n.wildChild)
    (kind : m.nType = n.nType) (before : n.children.Perm (c :: others))
    (after : m.children.Perm (c' :: others)) (same : c'.nType = c.nType) (fresh : Tight c') :
    Tight m := by
  refine .node ?_ ?_
  · rcases tight.crowded with set | two | ⟨d, only, kept⟩
    · exact Or.inl (handlers ▸ set)
    · refine Or.inr (Or.inl ?_)
      rw [after.length_eq, length_cons]
      rwa [before.length_eq, length_cons] at two
    · rw [only, singleton_perm] at before
      obtain ⟨rfl, rfl⟩ := cons_eq_cons.mp before
      refine Or.inr (Or.inr ⟨c', perm_singleton.mp after, ?_⟩)
      rwa [wildChild, kind, same]
  · intro d mem
    rcases mem_cons.mp (after.mem_iff.mp mem) with rfl | old
    · exact fresh
    · exact tight.child (before.mem_iff.mpr (mem_cons_of_mem _ old))

/-- One child more, beside a handler or another child. -/
theorem Tight.newChild {n m c : Node H} (handlers : m.handlers = n.handlers)
    (children : m.children.Perm (c :: n.children)) (below : ∀ d ∈ n.children, Tight d)
    (content : n.handlers.isSome = true ∨ n.children ≠ []) (fresh : Tight c) : Tight m := by
  refine .node ?_ ?_
  · rcases content with set | some
    · exact Or.inl (handlers ▸ set)
    · refine Or.inr (Or.inl ?_)
      have positive := length_pos_iff.mpr some
      rw [children.length_eq, length_cons]
      omega
  · intro d mem
    rcases mem_cons.mp (children.mem_iff.mp mem) with rfl | old
    · exact fresh
    · exact below d old

theorem Node.Crowded.content (crowded : n.Crowded) :
    n.handlers.isSome = true ∨ n.children ≠ [] := by
  rcases crowded with set | two | ⟨c, only, _⟩
  · exact Or.inl set
  · refine Or.inr ?_
    rintro empty
    simp [empty] at two
  · exact Or.inr (by simp [only])

/-- The kind of a node that is no parameter does not matter. -/
theorem Tight.retype {n m : Node H} (tight : Tight n) (handlers : m.handlers = n.handlers)
    (children : m.children = n.children) (wildChild : m.wildChild = n.wildChild)
    (text : n.nType ≠ .param) : Tight m := by
  refine .node ?_ ?_
  · rcases tight.crowded with set | two | ⟨c, only, wild | param | catchAll⟩
    · exact Or.inl (handlers ▸ set)
    · exact Or.inr (Or.inl (children ▸ two))
    · exact Or.inr (Or.inr ⟨c, children.trans only, Or.inl (wildChild.trans wild)⟩)
    · exact absurd param text
    · exact Or.inr (Or.inr ⟨c, children.trans only, Or.inr (Or.inr catchAll)⟩)
  · rw [children]
    exact fun _ => tight.child

end FastGoZero.HttpRouter
