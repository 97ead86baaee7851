import Mathlib.Data.List.Chain
import Mathlib.Data.List.Nodup

/-!
# Depth-first search with a path and a set

A search of a directed graph from a root keeps the nodes on the path to the current one and the
nodes that were entered. A successor on the path closes a cycle; one that was entered and is not
on the path is done, with all that is reached from it. The rules say how entering and leaving a
node keep this, and what is true when the root is left.
-/

namespace FastGoZero.Lib.DepthFirst

open Relation List

universe u
variable {α : Type u}

/-- The path to the current node, from the root on, and the other nodes entered, in order. -/
structure Progress (α : Type u) where
  stack : List α
  seen : List α

namespace Progress

/-- Entered and left. -/
def Done (s : Progress α) (p : α) : Prop := p ∈ s.seen ∧ p ∉ s.stack

def enter (s : Progress α) (q : α) : Progress α := ⟨s.stack ++ [q], s.seen ++ [q]⟩

def leave (s : Progress α) : Progress α := ⟨s.stack.dropLast, s.seen⟩

end Progress

/-- A cycle can be reached from the root. -/
def Cyclic (edge : α → α → Prop) (root : α) : Prop :=
  ∃ p, ReflTransGen edge root p ∧ TransGen edge p p

/-- A node is on every path from the root to another. -/
def Dominates (edge : α → α → Prop) (root p q : α) : Prop :=
  ∀ l, (root :: l).IsChain edge → (root :: l).getLast? = some q → p ∈ root :: l

/-- The invariant of the search. -/
structure Searching (edge : α → α → Prop) (root : α) (s : Progress α) : Prop where
  path : s.stack.IsChain edge
  rooted : s.stack.head? = some root
  entered : ∀ p ∈ s.stack, p = root ∨ p ∈ s.seen
  unseen : root ∉ s.seen
  distinct : s.seen.Nodup
  reached : ∀ p ∈ s.seen, ReflTransGen edge root p
  ordered : ∀ front q rest, s.seen = front ++ q :: rest →
    ∀ p, Dominates edge root p q → p = root ∨ p ∈ front ∨ p = q
  closed : ∀ p, s.Done p → ∀ q, edge p q → s.Done q
  acyclic : ∀ p, s.Done p → ¬ TransGen edge p p

variable {edge : α → α → Prop} {root : α}

theorem reach_of_chain {first : α} {l : List α} (path : (first :: l).IsChain edge) :
    (∀ p ∈ first :: l, ReflTransGen edge first p) ∧
      ∀ p ∈ first :: l, ∀ last, (first :: l).getLast? = some last → ReflTransGen edge p last := by
  induction l generalizing first with
  | nil =>
    constructor
    · intro p mem
      rw [mem_singleton.mp mem]
    · intro p mem last isLast
      obtain rfl : first = last := by simpa using isLast
      rw [mem_singleton.mp mem]
  | cons second l ih =>
    rw [isChain_cons_cons] at path
    obtain ⟨fromSecond, toLast⟩ := ih path.2
    constructor
    · exact forall_mem_cons.mpr ⟨.refl, fun p later => .head path.1 (fromSecond p later)⟩
    · intro p mem last isLast
      rw [getLast?_cons_cons] at isLast
      rcases mem_cons.mp mem with rfl | later
      · exact .head path.1 (toLast second (mem_cons_self ..) last isLast)
      · exact toLast p later last isLast

theorem Progress.done_enter {s : Progress α} {q : α} (newNode : q ∉ s.seen) (p : α) :
    (s.enter q).Done p ↔ s.Done p := by
  simp only [Done, enter, mem_append, mem_singleton]
  constructor
  · rintro ⟨seen | rfl, outside⟩
    · exact ⟨seen, fun inside => outside (Or.inl inside)⟩
    · exact absurd (Or.inr rfl) outside
  · rintro ⟨seen, outside⟩
    refine ⟨Or.inl seen, ?_⟩
    rintro (inside | rfl)
    · exact outside inside
    · exact newNode seen

namespace Searching

theorem start : Searching edge root ⟨[root], []⟩ where
  path := isChain_singleton root
  rooted := rfl
  entered _ mem := Or.inl (mem_singleton.mp mem)
  unseen := not_mem_nil
  distinct := nodup_nil
  reached _ mem := absurd mem not_mem_nil
  ordered _ _ _ empty := absurd empty (by simp)
  closed _ done := absurd done.1 not_mem_nil
  acyclic _ done := absurd done.1 not_mem_nil

variable {s : Progress α} (searching : Searching edge root s)
include searching

theorem stack_eq : ∃ l, s.stack = root :: l := by
  have rooted := searching.rooted
  cases stack : s.stack with
  | nil => simp [stack] at rooted
  | cons first l =>
    rw [stack, head?_cons, Option.some.injEq] at rooted
    exact ⟨l, by rw [rooted]⟩

theorem reach_of_stack {p : α} (mem : p ∈ s.stack) : ReflTransGen edge root p := by
  obtain ⟨l, stack⟩ := searching.stack_eq
  have path := searching.path
  rw [stack] at path mem
  exact (reach_of_chain path).1 p mem

variable {p q : α}

/-- A successor of the current node on the path closes a cycle. -/
theorem cyclic (current : s.stack.getLast? = some p) (step : edge p q) (mem : q ∈ s.stack) :
    Cyclic edge root := by
  obtain ⟨l, stack⟩ := searching.stack_eq
  have path := searching.path
  have reached := searching.reach_of_stack mem
  rw [stack] at path mem current
  exact ⟨q, reached, TransGen.tail' ((reach_of_chain path).2 q mem p current) step⟩

/-- A new successor of the current node becomes the current node. -/
theorem enter (current : s.stack.getLast? = some p) (step : edge p q) (offPath : q ∉ s.stack)
    (newNode : q ∉ s.seen) : Searching edge root (s.enter q) := by
  have done := @Progress.done_enter α s q newNode
  obtain ⟨l, stack⟩ := searching.stack_eq
  have mem : p ∈ s.stack := mem_of_getLast? current
  have path : (s.stack ++ [q]).IsChain edge := by
    refine isChain_append.mpr ⟨searching.path, isChain_singleton q, ?_⟩
    intro x isLast y isFirst
    rw [Option.mem_def, current, Option.some.injEq] at isLast
    rw [Option.mem_def, head?_cons, Option.some.injEq] at isFirst
    rwa [← isLast, ← isFirst]
  refine ⟨path, ?_, ?_, ?_, ?_, ?_, ?_, ?_, ?_⟩
  · simp [Progress.enter, stack]
  · intro x onPath
    rcases mem_append.mp onPath with before | last
    · exact (searching.entered x before).imp id (mem_append_left _)
    · exact Or.inr (mem_append_right _ last)
  · simp only [Progress.enter, mem_append, mem_singleton, not_or]
    refine ⟨searching.unseen, ?_⟩
    rintro rfl
    exact offPath (by rw [stack]; exact mem_cons_self ..)
  · refine nodup_append.mpr ⟨searching.distinct, nodup_singleton q, ?_⟩
    rintro x seen y other rfl
    rw [mem_singleton.mp other] at seen
    exact newNode seen
  · intro x isSeen
    rcases mem_append.mp isSeen with seen | last
    · exact searching.reached x seen
    · rw [mem_singleton.mp last]
      exact (searching.reach_of_stack mem).tail step
  · intro front x rest split y dominates
    rcases eq_nil_or_concat' rest with rfl | ⟨rest, last, rfl⟩
    · -- The node that is entered: what dominates it is on the path.
      obtain ⟨rfl, sameNode⟩ := append_inj' split rfl
      obtain rfl : q = x := singleton_inj.mp sameNode
      rw [stack, cons_append] at path
      have isLast : (root :: (l ++ [q])).getLast? = some q := by
        rw [← cons_append, getLast?_concat]
      have onPath := dominates (l ++ [q]) path isLast
      rw [← cons_append, ← stack] at onPath
      rcases mem_append.mp onPath with before | isNode
      · exact (searching.entered y before).imp id Or.inl
      · exact Or.inr (Or.inr (mem_singleton.mp isNode))
    · have shorter : s.seen = front ++ x :: rest := by
        rw [← cons_append, ← append_assoc] at split
        exact (append_inj' split rfl).1
      exact searching.ordered front x rest shorter y dominates
  · intro x isDone y edgeTo
    rw [done] at isDone ⊢
    exact searching.closed x isDone y edgeTo
  · intro x isDone
    exact searching.acyclic x ((done x).mp isDone)

/-- What is reached from a node that is done is done. -/
theorem done_of_reach (isDone : s.Done p) (reaches : ReflTransGen edge p q) :
    s.Done q := by
  induction reaches with
  | refl => exact isDone
  | tail _ step ih => exact searching.closed _ ih _ step

/-- A node that is on the path and whose successors are done is on no cycle. -/
theorem acyclic_of_done {p : α} (onPath : p ∈ s.stack) (all : ∀ q, edge p q → s.Done q) :
    ¬ TransGen edge p p := by
  intro cycle
  obtain ⟨q, step, rest⟩ := TransGen.head'_iff.mp cycle
  exact (searching.done_of_reach (all q step) rest).2 onPath

/-- The current node is left when all its successors are done. -/
theorem leave {stack : List α} {q : α} (path : s.stack = stack ++ [q]) (nonempty : stack ≠ [])
    (offPath : q ∉ stack) (isSeen : q ∈ s.seen) (all : ∀ p, edge q p → s.Done p) :
    Searching edge root s.leave ∧ s.leave.stack = stack ∧ s.leave.Done q ∧
      ∀ p, s.Done p → s.leave.Done p := by
  have shorter : s.leave.stack = stack := by rw [Progress.leave, path, dropLast_concat]
  have onPath : q ∈ s.stack := by simp [path]
  have grows : ∀ p, s.Done p → s.leave.Done p := by
    rintro p ⟨seen, outside⟩
    refine ⟨seen, ?_⟩
    rw [shorter]
    intro inside
    exact outside (by rw [path]; exact mem_append_left _ inside)
  have isDone : s.leave.Done q := ⟨isSeen, by rw [shorter]; exact offPath⟩
  have split : ∀ p, s.leave.Done p → p = q ∨ s.Done p := by
    rintro p ⟨seen, outside⟩
    by_cases same : p = q
    · exact Or.inl same
    · refine Or.inr ⟨seen, ?_⟩
      rw [shorter] at outside
      simp [path, outside, same]
  refine ⟨⟨?_, ?_, ?_, searching.unseen, searching.distinct, searching.reached,
    searching.ordered, ?_, ?_⟩, shorter, isDone, grows⟩
  · rw [shorter]
    have chain := searching.path
    rw [path, isChain_append] at chain
    exact chain.1
  · rw [shorter]
    have rooted := searching.rooted
    rw [path] at rooted
    cases stack with
    | nil => exact absurd rfl nonempty
    | cons first rest => exact rooted
  · intro p inside
    rw [shorter] at inside
    exact searching.entered p (by rw [path]; exact mem_append_left _ inside)
  · intro p done next step
    rcases split p done with rfl | before
    · exact grows next (all next step)
    · exact grows next (searching.closed p before next step)
  · intro p done
    rcases split p done with rfl | before
    · exact searching.acyclic_of_done onPath all
    · exact searching.acyclic p before

/-- When the successors of the root are done, what was entered is what can be reached, and there
is no cycle. -/
theorem finish (path : s.stack = [root]) (all : ∀ p, edge root p → s.Done p) :
    (∀ p, p ∈ root :: s.seen ↔ ReflTransGen edge root p) ∧ ¬ Cyclic edge root := by
  have below : ∀ p, ReflTransGen edge root p → p = root ∨ s.Done p := by
    intro p reaches
    rcases ReflTransGen.cases_head reaches with same | ⟨q, step, rest⟩
    · exact Or.inl same.symm
    · exact Or.inr (searching.done_of_reach (all q step) rest)
  constructor
  · intro p
    rw [mem_cons]
    constructor
    · rintro (rfl | seen)
      · exact .refl
      · exact searching.reached p seen
    · intro reaches
      exact (below p reaches).imp id And.left
  · rintro ⟨p, reaches, cycle⟩
    rcases below p reaches with rfl | done
    · exact searching.acyclic_of_done (by rw [path]; exact mem_cons_self ..) all cycle
    · exact searching.acyclic p done cycle

/-- A node that was entered before another is not dominated by it. -/
theorem not_dominated {front rest : List α} (split : s.seen = front ++ p :: rest)
    (later : q ∈ rest) : ¬ Dominates edge root q p := by
  intro dominates
  have distinct := searching.distinct
  rw [split, nodup_append, nodup_cons] at distinct
  rcases searching.ordered front p rest split q dominates with rfl | before | rfl
  · apply searching.unseen
    rw [split]
    exact mem_append_right _ (mem_cons_of_mem _ later)
  · exact distinct.2.2 q before q (mem_cons_of_mem _ later) rfl
  · exact distinct.2.1.1 later

/-- Nodes any two of which are on one path are entered in one order only. -/
theorem filter_seen {t : Progress α} (other : Searching edge root t)
    (same : s.seen.Perm t.seen) (chosen : α → Bool)
    (comparable : ∀ p ∈ s.seen, ∀ q ∈ s.seen, chosen p → chosen q → p ≠ q →
      Dominates edge root p q ∨ Dominates edge root q p) :
    s.seen.filter chosen = t.seen.filter chosen := by
  have ordered : ∀ r : Progress α, Searching edge root r → (∀ p, p ∈ r.seen → p ∈ s.seen) →
      ∀ l front, r.seen = front ++ l → (l.filter chosen).Pairwise
        fun p q => Dominates edge root p q ∧ ¬ Dominates edge root q p := by
    intro r search known l
    induction l with
    | nil => exact fun _ _ => Pairwise.nil
    | cons p l ih =>
      intro front split
      have inSeen : ∀ q ∈ p :: l, q ∈ s.seen :=
        fun q mem => known q (by rw [split]; exact mem_append_right _ mem)
      have rest := ih (front ++ [p]) (by rw [split, append_cons])
      rw [filter_cons]
      split_ifs with isChosen
      · refine pairwise_cons.mpr ⟨?_, rest⟩
        intro q mem
        obtain ⟨later, alsoChosen⟩ := mem_filter.mp mem
        have not_back := search.not_dominated split later
        have different : p ≠ q := by
          rintro rfl
          exact not_back fun path _ isLast => mem_of_getLast? isLast
        exact ⟨(comparable p (inSeen p (mem_cons_self ..)) q
          (inSeen q (mem_cons_of_mem _ later)) isChosen alsoChosen
          different).resolve_right not_back, not_back⟩
      · exact rest
  refine Perm.eq_of_pairwise ?_ (ordered s searching (fun _ => id) _ [] rfl)
    (ordered t other (fun p => same.mem_iff.mpr) _ [] rfl) (same.filter chosen)
  intro p q _ _ before after
  exact absurd after.1 before.2

end Searching

end FastGoZero.Lib.DepthFirst
