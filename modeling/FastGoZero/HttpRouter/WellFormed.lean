import FastGoZero.HttpRouter.Registered

/-!
# The shape of the tree

A tree has three kinds of nodes. A text node has a path without wildcards, children
indexed by the byte their paths start with, and at most one parameter node, which comes
last. A parameter node has at most one child. A catch-all stands behind a '/' as a pair
of nodes, a holder with an empty path and the leaf with the name.
-/

namespace FastGoZero.HttpRouter

open Lib List

universe u

variable {H : Type u} {n : Node H} {kids : List (UInt8 × Node H)} {wild : Option (Node H)}

/-- The node with the given indexed children and wildcard child. -/
def Node.withKids (n : Node H) (kids : List (UInt8 × Node H)) (wild : Option (Node H)) : Node H :=
  { n with
    indices := kids.map Prod.fst
    children := kids.map Prod.snd ++ wild.toList
    wildChild := wild.isSome }

/-- The patterns below the child start with the byte. -/
def Leads (b : UInt8) (c : Node H) : Prop := c.path.head? = some b ∨ c.path = [] ∧ b = slash

/-- A wildcard's name. -/
structure Name (name : Str) : Prop where
  nonempty : name ≠ []
  inside : ∀ c ∈ name, c ≠ slash
  plain : ∀ c ∈ name, isWild c = false

structure TextNode (n : Node H) (kids : List (UInt8 × Node H)) (wild : Option (Node H)) :
    Prop where
  shape : n = n.withKids kids wild
  kind : n.nType = .static ∨ n.nType = .root
  plain : ∀ c ∈ n.path, isWild c = false
  distinct : (kids.map Prod.fst).Nodup
  kinds : ∀ e ∈ kids, e.2.nType = .static ∨ e.2.nType = .catchAll ∧ e.1 = slash
  leads : ∀ e ∈ kids, Leads e.1 e.2
  named : ∀ w ∈ wild, w.nType = .param
  -- a node with an empty path only stands before a catch-all
  bare : n.path = [] → n.handlers = none ∧ wild = none ∧
    ∃ holder, kids = [(slash, holder)] ∧ holder.nType = .catchAll

structure ParamNode (n : Node H) : Prop where
  kind : n.nType = .param
  path : ∃ name, n.path = colon :: name ∧ Name name
  single : n.children = [] ∧ n.indices = [] ∨ ∃ c, n.children = [c]
  wildChild : n.wildChild = false
  kinds : ∀ c ∈ n.children, c.nType = .static
  leads : ∀ c ∈ n.children, Leads slash c

structure Holder (n : Node H) (leaf : Node H) : Prop where
  kind : n.nType = .catchAll
  path : n.path = []
  indices : n.indices = []
  wildChild : n.wildChild = true
  unset : n.handlers = none
  children : n.children = [leaf]
  leafKind : leaf.nType = .catchAll
  leafPath : ∃ name, leaf.path = slash :: star :: name ∧ Name name
  leafSet : leaf.handlers ≠ none
  leafEnd : leaf.children = []

inductive Wf : Node H → Prop
  | text {n : Node H} {kids : List (UInt8 × Node H)} {wild : Option (Node H)}
      (here : TextNode n kids wild) (kidsWf : ∀ e ∈ kids, Wf e.2) (wildWf : ∀ w ∈ wild, Wf w) : Wf n
  | param {n : Node H} (here : ParamNode n) (below : ∀ c ∈ n.children, Wf c) : Wf n
  | holder {n leaf : Node H} (here : Holder n leaf) : Wf n

theorem TextNode.ne_param (here : TextNode n kids wild) : n.nType ≠ .param := by
  rcases here.kind with kind | kind <;> simp [kind]

theorem TextNode.ne_catchAll (here : TextNode n kids wild) : n.nType ≠ .catchAll := by
  rcases here.kind with kind | kind <;> simp [kind]

theorem Wf.paramNode (wf : Wf n) (kind : n.nType = .param) :
    ParamNode n ∧ ∀ c ∈ n.children, Wf c := by
  cases wf with
  | text here _ _ => exact absurd kind here.ne_param
  | param here below => exact ⟨here, below⟩
  | holder here =>
    rw [here.kind] at kind
    cases kind

theorem Wf.holderNode (wf : Wf n) (kind : n.nType = .catchAll) : ∃ leaf, Holder n leaf := by
  cases wf with
  | text here _ _ => exact absurd kind here.ne_catchAll
  | param here _ =>
    rw [here.kind] at kind
    cases kind
  | holder here => exact ⟨_, here⟩

section

variable (n : Node H) (front back : List (UInt8 × Node H)) (wild : Option (Node H)) (b : UInt8)
  (c : Node H) {α : Type u}

theorem withKids_children_perm :
    (n.withKids (front ++ (b, c) :: back) wild).children.Perm
      (c :: (n.withKids (front ++ back) wild).children) := by
  simp only [Node.withKids, map_append, map_cons, append_assoc, cons_append]
  exact perm_middle

variable (walk : Node H → Except Panic (Node H))

theorem atChild_withKids : (n.withKids (front ++ (b, c) :: back) wild).atChild front.length walk =
      (walk c).map fun c' => n.withKids (front ++ (b, c') :: back) wild := by
  have found : (n.withKids (front ++ (b, c) :: back) wild).children[front.length]? = some c := by
    simp [Node.withKids]
  simp only [Node.atChild, found]
  cases walk c with
  | error panic => rfl
  | ok c' => simp [Node.withKids, Except.map, bind, Except.bind]

theorem atChild_wild :
    (n.withKids front (some c)).atChild ((n.withKids front (some c)).children.length - 1) walk =
      (walk c).map fun c' => n.withKids front (some c') := by
  have place : (n.withKids front (some c)).children.length - 1 = front.length := by
    simp [Node.withKids]
  have found : (n.withKids front (some c)).children[front.length]? = some c := by
    simp [Node.withKids]
  simp only [Node.atChild, place, found]
  cases walk c with
  | error panic => rfl
  | ok c' => simp [Node.withKids, Except.map, bind, Except.bind]

/-- A child with a new index goes before the wildcard child. -/
theorem addChild_withKids :
    ({ n.withKids front wild with
      indices := (n.withKids front wild).indices ++ [b] } : Node H).addChild c =
      n.withKids (front ++ [(b, c)]) wild := by
  cases wild with
  | none | some w => simp [Node.addChild, Node.withKids]

theorem modify_middle (f : α → α) (front back : List α) (x : α) :
    (front ++ x :: back).modify front.length f = front ++ f x :: back := by
  induction front with
  | nil => rfl
  | cons first front ih => simp [ih]

/-- A child moves forward past some of the children before it. -/
theorem moveForward_spec (prio : UInt32) (front back : List (Node H)) (c : Node H) :
    ∃ left right, front = left ++ right ∧
      Node.moveForward prio front.length (front ++ c :: back) =
        (left.length, left ++ c :: (right ++ back)) := by
  induction front using reverseRecOn generalizing back with
  | nil => exact ⟨[], [], rfl, rfl⟩
  | append_singleton front before ih =>
    have atBefore : (front ++ [before] ++ c :: back)[front.length]? = some before := by simp
    have atChild : (front ++ [before] ++ c :: back)[front.length + 1]? = some c := by simp
    rw [length_append, length_singleton, Node.moveForward, atBefore, atChild]
    dsimp only
    by_cases lower : before.priority < prio
    · have swapped : ((front ++ [before] ++ c :: back).set front.length c).set
          (front.length + 1) before = front ++ c :: before :: back := by
        simp
      obtain ⟨left, right, split, moved⟩ := ih (before :: back)
      refine ⟨left, right ++ [before], by simp [split], ?_⟩
      rw [if_pos lower, swapped, moved]
      simp
    · exact ⟨front ++ [before], [], by simp, by simp [lower]⟩

theorem moveIndex (left right back : List α) (x : α) :
    (left ++ right ++ x :: back).take left.length ++
        ((left ++ right ++ x :: back).drop (left ++ right).length).take 1 ++
        (((left ++ right ++ x :: back).take (left ++ right).length).drop left.length ++
          (left ++ right ++ x :: back).drop ((left ++ right).length + 1)) =
      left ++ x :: (right ++ back) := by
  have last : (left ++ right ++ x :: back).drop ((left ++ right).length + 1) = back := by
    rw [← drop_drop, drop_left]
    rfl
  have first : (left ++ right ++ x :: back).take left.length = left := by simp
  rw [last, first, drop_left, take_left, drop_left]
  simp

theorem incrementChildPrio_spec :
    ∃ left right, front = left ++ right ∧
      (n.withKids (front ++ (b, c) :: back) wild).incrementChildPrio front.length =
        (n.withKids (left ++ (b, c.bump) :: (right ++ back)) wild, left.length) := by
  obtain ⟨left, right, split, moved⟩ := moveForward_spec c.bump.priority (front.map Prod.snd)
    (back.map Prod.snd ++ wild.toList) c.bump
  obtain ⟨first, second, rfl, rfl, rfl⟩ := map_eq_append_iff.mp split
  refine ⟨first, second, rfl, ?_⟩
  have bumped := modify_middle Node.bump ((first ++ second).map Prod.snd)
    (back.map Prod.snd ++ wild.toList) c
  have found : (((first ++ second).map Prod.snd) ++ c.bump :: (back.map Prod.snd ++ wild.toList))[
      (first ++ second).length]? = some c.bump := by
    simp
  rw [length_map] at bumped moved
  simp only [Node.incrementChildPrio, Node.withKids, map_append, map_cons,
    append_assoc, cons_append] at bumped moved found ⊢
  rw [bumped, found]
  simp only [Option.map_some, Option.getD_some, moved]
  have indices := moveIndex (first.map Prod.fst) (second.map Prod.fst) (back.map Prod.fst) b
  simp only [length_append, length_map, append_assoc] at indices ⊢
  by_cases stays : second = []
  · simp [stays]
  · have moves : first.length ≠ first.length + second.length := by
      have positive := length_pos_iff.mpr stays
      omega
    simp only [ne_eq, moves, not_false_eq_true, ↓reduceIte, indices]

end

end FastGoZero.HttpRouter
