import FastGoZero.Stringx.Node
import FastGoZero.Lib.LongestSuffix

/-!
# What the nodes of the trie spell

Each node has a label: the runes on the way to it from the root. The labels, in heap order, are
distinct and have every prefix of their members, so a node is the same thing as its label. `add`
keeps this and adds the keyword to the labels that end a keyword.
-/

namespace FastGoZero.Stringx

open Lib List

/-- A node with a label, among the labels of a trie with these keywords. -/
structure Node.Spells (labels words : List (List Nat)) (label : List Nat) (node : Node) : Prop where
  depth : node.depth = label.length
  isEnd : node.isEnd = true ↔ label ∈ words
  children : ∀ char p, node.children.lookup char = some p ↔ labels[p]? = some (label ++ [char])

structure Spelled (trie : Trie) (labels words : List (List Nat)) : Prop where
  size : trie.size = labels.length
  root : labels[Trie.root]? = some []
  distinct : labels.Nodup
  closed : PrefixClosed (· ∈ labels)
  keywords : ∀ word ∈ words, word ∈ labels
  shallow : ∀ (p : Nat) label, labels[p]? = some label → label.length ≤ p
  node : ∀ p label, labels[p]? = some label →
    ∃ node, trie.read p = some node ∧ node.Spells labels words label

theorem getElem?_snoc {α : Type} (l : List α) (a b : α) (p : Nat) :
    (l ++ [a])[p]? = some b ↔ l[p]? = some b ∨ (p = l.length ∧ b = a) := by
  rcases Nat.lt_trichotomy p l.length with before | rfl | after
  · rw [getElem?_append_left before]
    simp [Nat.ne_of_lt before]
  · simp [eq_comm]
  · have outside : (l ++ [a])[p]? = none := by
      rw [getElem?_eq_none_iff, length_append, length_singleton]
      omega
    rw [outside, getElem?_eq_none_iff.mpr (Nat.le_of_lt after)]
    simp [Nat.ne_of_gt after]

variable {trie : Trie} {labels words : List (List Nat)}

namespace Spelled

variable {p nd : Nat} {label : List Nat} (spelled : Spelled trie labels words)

include spelled

theorem pointer_unique {q : Nat} (first : labels[p]? = some label)
    (second : labels[q]? = some label) : p = q := by
  have bound := (List.getElem?_eq_some_iff.mp first).1
  exact (getElem?_inj bound spelled.distinct).mp (first.trans second.symm)

theorem nil_mem : ([] : List Nat) ∈ labels :=
  mem_of_getElem? spelled.root

theorem child_iff (at_nd : labels[nd]? = some label) (char p : Nat) :
    trie.child nd char = some p ↔ labels[p]? = some (label ++ [char]) := by
  obtain ⟨node, stored, spells⟩ := spelled.node nd label at_nd
  rw [Trie.child, stored, Option.bind_some, spells.children]

theorem child_none_iff (at_nd : labels[nd]? = some label) (char : Nat) :
    trie.child nd char = none ↔ label ++ [char] ∉ labels := by
  rw [Option.eq_none_iff_forall_ne_some, mem_iff_getElem?, not_exists]
  exact forall_congr' fun p => not_congr (spelled.child_iff at_nd char p)

theorem length_lt_size (at_p : labels[p]? = some label) : label.length < trie.size := by
  have bound := (List.getElem?_eq_some_iff.mp at_p).1
  have shallow := spelled.shallow p label at_p
  rw [spelled.size]
  omega

theorem root_iff (at_p : labels[p]? = some label) : p = Trie.root ↔ label = [] := by
  constructor
  · rintro rfl
    exact Option.some.inj (at_p.symm.trans spelled.root)
  · rintro rfl
    exact spelled.pointer_unique at_p spelled.root

/-- A change of a node that its label does not show keeps what the trie spells. -/
theorem modify (p : Nat) (change : Node → Node)
    (keeps : ∀ label node, labels[p]? = some label → node.Spells labels words label →
      (change node).Spells labels words label) :
    Spelled (Heap.modify trie p change) labels words := by
  refine { spelled with size := by rw [Heap.size_modify, spelled.size], node := ?_ }
  intro q label at_q
  obtain ⟨node, stored, spells⟩ := spelled.node q label at_q
  rw [Heap.read_modify, stored]
  split
  case isTrue same => exact ⟨change node, rfl, keeps label node (same ▸ at_q) spells⟩
  case isFalse other => exact ⟨node, rfl, spells⟩

end Spelled

namespace Trie

theorem spelled_new : Spelled new [[]] [] := by
  have only : ∀ (p : Nat) (label : List Nat), [[]][p]? = some label → p = 0 ∧ label = [] := by
    intro p label at_p
    simpa [eq_comm] using (getElem?_snoc [] [] label p).mp at_p
  refine ⟨rfl, rfl, by simp, ?_, by simp, ?_, ?_⟩
  · intro u c mem
    simp at mem
  · intro p label at_p
    obtain ⟨rfl, rfl⟩ := only p label at_p
    exact Nat.le_refl 0
  · intro p label at_p
    obtain ⟨rfl, rfl⟩ := only p label at_p
    refine ⟨Node.new, rfl, rfl, by simp [Node.new], ?_⟩
    intro char q
    have absent : ([[]] : List (List Nat))[q]? ≠ some [char] := by
      intro found
      simpa using mem_of_getElem? found
    simpa [Node.new] using absent

/-- A new child is spelled by the rune after the label of its parent. -/
theorem spelled_grow (spelled : Spelled trie labels words) {nd char : Nat} {label : List Nat}
    (at_nd : labels[nd]? = some label) (fresh : label ++ [char] ∉ labels) :
    Spelled (trie.grow nd char (label.length + 1)) (labels ++ [label ++ [char]]) words := by
  have bound : nd < labels.length := (List.getElem?_eq_some_iff.mp at_nd).1
  have newRead : ∀ p, (trie.grow nd char (label.length + 1)).read p =
      if p = nd then ((Heap.alloc trie { Node.new with depth := label.length + 1 }).read p).map
        fun node => { node with children := node.children.insert char trie.size }
      else (Heap.alloc trie { Node.new with depth := label.length + 1 }).read p :=
    fun p => Heap.read_modify _ _ _ _
  refine ⟨by simp [grow, spelled.size], ?_, ?_, ?_, ?_, ?_, ?_⟩
  · exact (getElem?_snoc _ _ _ _).mpr (Or.inl spelled.root)
  · simpa [nodup_append, fresh] using ⟨spelled.distinct, fun a mem same => fresh (same ▸ mem)⟩
  · intro u c mem
    rcases mem_append.mp mem with old | new
    · exact mem_append_left _ (spelled.closed u c old)
    · have same : u = label := (append_inj' (mem_singleton.mp new) rfl).1
      exact mem_append_left _ (same ▸ mem_of_getElem? at_nd)
  · exact fun word mem => mem_append_left _ (spelled.keywords word mem)
  · intro p other at_p
    rcases (getElem?_snoc _ _ _ _).mp at_p with old | ⟨rfl, rfl⟩
    · exact spelled.shallow p other old
    · have parent := spelled.shallow nd label at_nd
      rw [length_append, length_singleton]
      omega
  · intro p other at_p
    rw [newRead]
    rcases (getElem?_snoc _ _ _ _).mp at_p with old | ⟨rfl, rfl⟩
    · have allocated : p < trie.size := spelled.size ▸ (List.getElem?_eq_some_iff.mp old).1
      obtain ⟨node, stored, spells⟩ := spelled.node p other old
      rw [Heap.read_alloc_old _ _ allocated, stored]
      split
      case isTrue same =>
        subst same
        cases old.symm.trans at_nd
        refine ⟨_, rfl, spells.depth, spells.isEnd, ?_⟩
        intro probe q
        rw [GoMap.lookup_insert_if, getElem?_snoc]
        by_cases same : probe = char
        · subst same
          have absent : labels[q]? ≠ some (label ++ [probe]) :=
            fun found => fresh (mem_of_getElem? found)
          simp [absent, spelled.size, eq_comm]
        · simp [same, spells.children]
      case isFalse notParent =>
        refine ⟨node, rfl, spells.depth, spells.isEnd, ?_⟩
        intro probe q
        rw [spells.children, getElem?_snoc]
        have notNew : ¬ (other ++ [probe] = label ++ [char]) := by
          intro same
          have equal : other = label := (append_inj' same rfl).1
          exact notParent (spelled.pointer_unique old (equal ▸ at_nd))
        simp [notNew]
    · rw [if_neg (Nat.ne_of_gt bound), ← spelled.size, Heap.read_alloc_new]
      refine ⟨_, rfl, by simp, ?_, ?_⟩
      · have notWord : label ++ [char] ∉ words := fun mem => fresh (spelled.keywords _ mem)
        simpa [Node.new] using notWord
      · intro probe q
        have absent : labels[q]? ≠ some (label ++ [char] ++ [probe]) :=
          fun found => fresh (spelled.closed _ _ (mem_of_getElem? found))
        rw [getElem?_snoc]
        simp only [absent, false_or]
        simp [Node.new]

/-- The loop of `add` ends at the node that the runes spell. -/
theorem spelled_addChars (chars : List Nat) : ∀ {trie : Trie} {labels : List (List Nat)}
    {nd : Nat} {label : List Nat}, Spelled trie labels words → labels[nd]? = some label →
    ∃ more, Spelled (trie.addChars nd label.length chars).1 more words ∧
      more[(trie.addChars nd label.length chars).2]? = some (label ++ chars) := by
  induction chars with
  | nil =>
    intro trie labels nd label spelled at_nd
    exact ⟨labels, spelled, by simpa [addChars] using at_nd⟩
  | cons char chars ih =>
    intro trie labels nd label spelled at_nd
    have longer : label ++ char :: chars = (label ++ [char]) ++ chars := by simp
    have length : label.length + 1 = (label ++ [char]).length := by simp
    rw [addChars, longer, length]
    cases found : trie.child nd char with
    | some child =>
      exact ih spelled ((spelled.child_iff at_nd char child).mp found)
    | none =>
      have fresh := (spelled.child_none_iff at_nd char).mp found
      have grown := spelled_grow spelled at_nd fresh
      rw [length] at grown
      refine ih grown ?_
      exact (getElem?_snoc _ _ _ _).mpr (Or.inr ⟨spelled.size, rfl⟩)

theorem spelled_markEnd (spelled : Spelled trie labels words) {nd : Nat} {label : List Nat}
    (at_nd : labels[nd]? = some label) : Spelled (trie.markEnd nd) labels (label :: words) := by
  refine { spelled with size := by simp [markEnd, spelled.size], keywords := ?_, node := ?_ }
  · exact forall_mem_cons.mpr ⟨mem_of_getElem? at_nd, spelled.keywords⟩
  · intro p other at_p
    obtain ⟨node, stored, spells⟩ := spelled.node p other at_p
    rw [markEnd, Heap.read_modify, stored]
    split
    case isTrue same =>
      subst same
      cases at_p.symm.trans at_nd
      exact ⟨_, rfl, spells.depth, by simp, spells.children⟩
    case isFalse differs =>
      have notLabel : other ≠ label := by
        rintro rfl
        exact differs (spelled.pointer_unique at_p at_nd)
      exact ⟨node, rfl, spells.depth, by simp [notLabel, spells.isEnd], spells.children⟩

theorem spelled_addRunes (spelled : Spelled trie labels words) (word : List Nat)
    (nonempty : word ≠ []) : ∃ more, Spelled (trie.addRunes word) more (word :: words) := by
  obtain ⟨more, reached, at_end⟩ := spelled_addChars word spelled spelled.root
  have unfolds : trie.addRunes word =
      (trie.addChars root 0 word).1.markEnd (trie.addChars root 0 word).2 := by
    simp [addRunes, nonempty]
  exact ⟨more, unfolds ▸ spelled_markEnd reached at_end⟩

end Trie

end FastGoZero.Stringx
