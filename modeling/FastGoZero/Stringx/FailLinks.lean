import FastGoZero.Stringx.Spelling

/-!
# The fail links

`build` visits the nodes in the order of their depth. When it comes to a node, every node that is
not deeper has its fail link: the node of the longest proper suffix that the trie spells. The
links of the children follow from these.
-/

namespace FastGoZero.Stringx

open Lib List

variable {trie : Trie} {labels words : List (List Nat)} {label : List Nat} {node : Node}

/-- The node has its label and is linked to the longest proper suffix of it. -/
def HasFail (trie : Trie) (labels : List (List Nat)) (p : Nat) (label : List Nat) : Prop :=
  labels[p]? = some label ∧ ∃ node f suffix, trie.read p = some node ∧ node.fail = some f ∧
    labels[f]? = some suffix ∧ Longest (· ∈ labels) label.tail suffix

/-- The nodes down to a depth have their fail links. -/
def SettledTo (trie : Trie) (labels : List (List Nat)) (depth : Nat) : Prop :=
  ∀ (p : Nat) label, labels[p]? = some label → label ≠ [] → label.length ≤ depth →
    HasFail trie labels p label

/-- A trie while `build` runs. -/
structure Linking (trie : Trie) (labels words : List (List Nat)) : Prop where
  spelled : Spelled trie labels words
  rootless : ∀ node, trie.read Trie.root = some node → node.fail = none

/-- A trie after `build`. -/
structure Built (trie : Trie) (labels words : List (List Nat)) : Prop where
  spelled : Spelled trie labels words
  linked : ∀ (p : Nat) label, labels[p]? = some label → label ≠ [] → HasFail trie labels p label

/-- The node gets its link, and nothing else about the trie changes. -/
structure Links (trie next : Trie) (labels words : List (List Nat)) (p : Nat) (label : List Nat) :
    Prop where
  linking : Linking next labels words
  has : HasFail next labels p label
  kept : ∀ q other, HasFail trie labels q other → HasFail next labels q other

namespace Trie

theorem deref_of_read {p : Nat} {node : Node} (stored : trie.read p = some node) :
    trie.deref p = .ok node := by
  rw [deref, stored]

section

variable (linking : Linking trie labels words)

include linking

theorem setFail_spec {p f : Nat} {label suffix : List Nat} (at_p : labels[p]? = some label)
    (nonempty : label ≠ []) (at_f : labels[f]? = some suffix)
    (longest : Longest (· ∈ labels) label.tail suffix) :
    Links trie (trie.setFail p f) labels words p label := by
  have notRoot : root ≠ p := by
    intro same
    exact nonempty ((linking.spelled.root_iff at_p).mp same.symm)
  obtain ⟨node, stored, spells⟩ := linking.spelled.node p label at_p
  have fixed : HasFail (trie.setFail p f) labels p label := by
    refine ⟨at_p, { node with fail := some f }, f, suffix, ?_, rfl, at_f, longest⟩
    rw [setFail, Heap.read_modify_self, stored]
    rfl
  refine ⟨⟨?_, ?_⟩, fixed, ?_⟩
  · refine linking.spelled.modify p _ ?_
    intro other changed _ spells
    exact ⟨spells.depth, spells.isEnd, spells.children⟩
  · intro rootNode rootStored
    rw [setFail, Heap.read_modify_of_ne _ _ notRoot] at rootStored
    exact linking.rootless rootNode rootStored
  · rintro q other ⟨at_q, node, g, links⟩
    by_cases same : q = p
    · subst same
      rwa [Option.some.inj (at_q.symm.trans at_p)]
    · refine ⟨at_q, node, g, ?_⟩
      rwa [setFail, Heap.read_modify_of_ne _ _ same]

/-- The inner loop finds the longest suffix of the runes and the key. The suffixes that it has
left behind are not continued by the key. -/
theorem fallBack_spec (base : List Nat) {key : Nat} (turns : Nat) :
    ∀ {cur : Nat} {label : List Nat}, labels[cur]? = some label →
    label.length < turns → SettledTo trie labels label.length →
    (label = [] → Longest (· ∈ labels) (base ++ [key]) []) →
    (∀ f, label ≠ [] → Longest (· ∈ labels) label.tail f → Live (· ∈ labels) base key f) →
    ∃ found suffix, trie.fallBack key turns cur = .ok found ∧ labels[found]? = some suffix ∧
      Longest (· ∈ labels) (base ++ [key]) suffix := by
  have closed := linking.spelled.closed
  induction turns with
  | zero => intro cur label _ bound; omega
  | succ turns ih =>
    intro cur label at_cur bound settled whenRoot whenDeeper
    by_cases empty : label = []
    · obtain rfl := (linking.spelled.root_iff at_cur).mpr empty
      obtain ⟨node, stored, _⟩ := linking.spelled.node _ _ at_cur
      refine ⟨root, [], ?_, linking.spelled.root, whenRoot empty⟩
      simp [fallBack, deref_of_read stored, linking.rootless node stored, bind, Except.bind]
    · obtain ⟨_, node, f, suffix, stored, link, at_f, longest⟩ :=
        settled cur label at_cur empty (Nat.le_refl _)
      have live := whenDeeper suffix empty longest
      have shorter := longest.length_lt empty
      cases found : trie.child f key with
      | some next =>
        have at_next := (linking.spelled.child_iff at_f key next).mp found
        refine ⟨next, _, ?_, at_next, live.found (mem_of_getElem? at_next)⟩
        simp [fallBack, deref_of_read stored, link, found, bind, Except.bind]
      | none =>
        have stuck := (linking.spelled.child_none_iff at_f key).mp found
        have unfolds : trie.fallBack key (turns + 1) cur = trie.fallBack key turns f := by
          simp [fallBack, deref_of_read stored, link, found, bind, Except.bind]
        rw [unfolds]
        refine ih at_f (by omega) ?_ ?_ ?_
        · intro p other at_p nonempty shallow
          exact settled p other at_p nonempty (by omega)
        · rintro rfl
          exact live.lost stuck
        · intro next _ falls
          exact live.next closed stuck falls

/-- One child of a node that is linked like all that are not deeper. -/
theorem linkChild_spec {nd key child : Nat} {label : List Nat} (at_nd : labels[nd]? = some label)
    (nonempty : label ≠ []) (settled : SettledTo trie labels label.length)
    (at_child : labels[child]? = some (label ++ [key])) (nodes : List Nat) :
    ∃ next, linkChild nd (trie, nodes) (key, child) = .ok (next, nodes ++ [child]) ∧
      Links trie next labels words child (label ++ [key]) := by
  have bound := linking.spelled.length_lt_size at_nd
  obtain ⟨f, suffix, result, at_f, longest⟩ :=
    fallBack_spec linking label.tail trie.size at_nd bound settled
      (fun empty => absurd empty nonempty)
      (fun _ _ falls => falls.live linking.spelled.closed key)
  have tail : label.tail ++ [key] = (label ++ [key]).tail := by
    rw [tail_append_of_ne_nil nonempty]
  rw [tail] at longest
  refine ⟨_, ?_, setFail_spec linking at_child (by simp) at_f longest⟩
  simp [linkChild, result, bind, Except.bind, pure, Except.pure]

/-- The root has all the labels of one rune below it. -/
theorem linkRoot_spec {key child : Nat} (at_child : labels[child]? = some ([] ++ [key]))
    (nodes : List Nat) : ∃ next, linkRoot (trie, nodes) (key, child) = (next, nodes ++ [child]) ∧
      Links trie next labels words child ([] ++ [key]) :=
  ⟨_, rfl, setFail_spec linking at_child (by simp) linking.spelled.root
    (Longest.refl linking.spelled.nil_mem)⟩

end

/-- What a loop over the children of a node does, when each turn links one child. -/
theorem links_of_foldlM {step : Trie × List Nat → Nat × Nat → Except Fault (Trie × List Nat)}
    {label : List Nat}
    (turn : ∀ trie nodes key child, Linking trie labels words →
      SettledTo trie labels label.length → labels[child]? = some (label ++ [key]) →
      ∃ next, step (trie, nodes) (key, child) = .ok (next, nodes ++ [child]) ∧
        Links trie next labels words child (label ++ [key]))
    (kids : List (Nat × Nat)) : ∀ (trie : Trie) (nodes : List Nat), Linking trie labels words →
      SettledTo trie labels label.length →
      (∀ kid ∈ kids, labels[kid.2]? = some (label ++ [kid.1])) →
      ∃ next, kids.foldlM step (trie, nodes) = .ok (next, nodes ++ kids.map Prod.snd) ∧
        Linking next labels words ∧
        (∀ kid ∈ kids, HasFail next labels kid.2 (label ++ [kid.1])) ∧
        ∀ q other, HasFail trie labels q other → HasFail next labels q other := by
  induction kids with
  | nil =>
    intro trie nodes linking _ _
    exact ⟨trie, by simp [pure, Except.pure], linking, by simp, fun _ _ has => has⟩
  | cons kid kids ih =>
    intro trie nodes linking settled spelled
    obtain ⟨middle, first, linked, has, kept⟩ :=
      turn trie nodes kid.1 kid.2 linking settled (spelled kid mem_cons_self)
    have settledMiddle : SettledTo middle labels label.length :=
      fun p other at_p nonempty shallow => kept p other (settled p other at_p nonempty shallow)
    obtain ⟨next, rest, final, hasRest, keptRest⟩ := ih middle (nodes ++ [kid.2])
      linked settledMiddle fun k mem => spelled k (mem_cons_of_mem _ mem)
    refine ⟨next, ?_, final, ?_, fun q other had => keptRest q other (kept q other had)⟩
    · rw [foldlM_cons, first]
      simpa [bind, Except.bind] using rest
    · exact forall_mem_cons.mpr ⟨keptRest _ _ has, hasRest⟩

end Trie

/-- The pointers of the children of a node, in the order of a loop over them. -/
def kidsOf (node : Node) (order : GoMap.RangeOrder Nat Nat) : List Nat :=
  (node.children.range order).map Prod.snd

theorem Node.Spells.mem_range (spells : node.Spells labels words label)
    (order : GoMap.RangeOrder Nat Nat) (kid : Nat × Nat) :
    kid ∈ node.children.range order ↔ labels[kid.2]? = some (label ++ [kid.1]) :=
  (GoMap.mem_range _ _ _ _).trans (spells.children _ _)

theorem Node.Spells.mem_kidsOf (spells : node.Spells labels words label)
    (order : GoMap.RangeOrder Nat Nat) (p : Nat) :
    p ∈ kidsOf node order ↔ ∃ char, labels[p]? = some (label ++ [char]) := by
  simp only [kidsOf, mem_map, Prod.exists, spells.mem_range]
  constructor
  · rintro ⟨char, q, at_q, rfl⟩
    exact ⟨char, at_q⟩
  · rintro ⟨char, at_p⟩
    exact ⟨char, p, at_p, rfl⟩

theorem Node.Spells.nodup_kidsOf (spells : node.Spells labels words label)
    (order : GoMap.RangeOrder Nat Nat) : (kidsOf node order).Nodup := by
  refine Nodup.map_on ?_ (node.children.nodup_range order)
  rintro ⟨char, p⟩ mem ⟨other, q⟩ member (rfl : p = q)
  have first := (spells.mem_range order _).mp mem
  have second := (spells.mem_range order _).mp member
  simpa using Option.some.inj (first.symm.trans second)

/-- A round of `build`. The nodes of the level are to be visited next, their successors have been
seen from the nodes of the same depth that were visited before. -/
structure Round (trie : Trie) (labels words : List (List Nat)) (visited level below : List Nat)
    (depth : Nat) : Prop where
  linking : Linking trie labels words
  deep : 0 < depth
  distinct : (visited ++ level ++ below).Nodup
  bound : ∀ p ∈ visited ++ level ++ below, p < trie.size
  levelDepth : ∀ p ∈ level, ∃ label, labels[p]? = some label ∧ label.length = depth
  belowDepth : ∀ p ∈ below, ∃ label, labels[p]? = some label ∧ label.length = depth + 1
  settled : SettledTo trie labels depth
  seen : ∀ (nd p : Nat) label char, labels[nd]? = some label → label.length = depth →
    labels[p]? = some (label ++ [char]) → nd ∉ level →
    p ∈ below ∧ HasFail trie labels p (label ++ [char])
  parents : ∀ (nd p : Nat) label char, p ∈ visited ++ level ++ below →
    labels[p]? = some (label ++ [char]) → label ≠ [] → labels[nd]? = some label → nd ∈ visited

namespace Round

variable {visited level below : List Nat} {depth : Nat}

theorem length_le (round : Round trie labels words visited level below depth) :
    (visited ++ level ++ below).length ≤ trie.size := by
  have within : (visited ++ level ++ below) ⊆ range trie.size :=
    fun p mem => mem_range.mpr (round.bound p mem)
  simpa using (subperm_of_subset round.distinct within).length_le

/-- When the level is done, the nodes one rune deeper have been seen. -/
theorem reached (round : Round trie labels words visited [] below depth) {p : Nat}
    (at_p : labels[p]? = some label) (length : label.length = depth + 1) :
    p ∈ below ∧ HasFail trie labels p label := by
  obtain rfl | ⟨front, char, rfl⟩ := eq_nil_or_concat' label
  · simp at length
  · have mem := round.linking.spelled.closed front char (mem_of_getElem? at_p)
    obtain ⟨nd, at_nd⟩ := mem_iff_getElem?.mp mem
    exact round.seen nd p front char at_nd (by simpa using length) at_p (by simp)

theorem descend (round : Round trie labels words visited [] below depth) :
    Round trie labels words visited below [] (depth + 1) := by
  refine ⟨round.linking, Nat.succ_pos _, by simpa using round.distinct, by simpa using round.bound,
    round.belowDepth, by simp, ?_, ?_, by simpa using round.parents⟩
  · intro p label at_p nonempty shallow
    rcases Nat.lt_or_ge depth label.length with deeper | within
    · exact (round.reached at_p (by omega)).2
    · exact round.settled p label at_p nonempty within
  · intro nd p label char at_nd length _ absent
    exact absurd (round.reached at_nd length).1 absent

theorem built (round : Round trie labels words visited [] [] depth) : Built trie labels words := by
  -- a label that is too deep has a prefix one rune below the level
  have shallow : ∀ n label, label.length = depth + 1 + n → label ∉ labels := by
    intro n
    induction n with
    | zero =>
      intro label length mem
      obtain ⟨p, at_p⟩ := mem_iff_getElem?.mp mem
      exact absurd (round.reached at_p length).1 (by simp)
    | succ n ih =>
      intro label length mem
      obtain rfl | ⟨front, char, rfl⟩ := eq_nil_or_concat' label
      · simp at length
      · have shorter : front.length = depth + 1 + n := by
          rw [length_append, length_singleton] at length
          omega
        exact ih front shorter (round.linking.spelled.closed front char mem)
  refine ⟨round.linking.spelled, ?_⟩
  intro p label at_p nonempty
  refine round.settled p label at_p nonempty ?_
  by_contra deeper
  exact shallow (label.length - (depth + 1)) label (by omega) (mem_of_getElem? at_p)

theorem visit {nd : Nat} (round : Round trie labels words visited (nd :: level) below depth)
    (orders : Nat → GoMap.RangeOrder Nat Nat) (turns : Nat) :
    ∃ next kids, Trie.buildLoop orders (turns + 1) trie (nd :: level ++ below) =
        Trie.buildLoop orders turns next (level ++ (below ++ kids)) ∧
      Round next labels words (visited ++ [nd]) level (below ++ kids) depth := by
  have spelled := round.linking.spelled
  obtain ⟨label, at_nd, length⟩ := round.levelDepth nd mem_cons_self
  have nonempty : label ≠ [] := by
    rintro rfl
    exact absurd round.deep (by simp [← length])
  obtain ⟨node, stored, spells⟩ := spelled.node nd label at_nd
  have isKid := spells.mem_range (orders nd)
  obtain ⟨next, loop, linking, linked, kept⟩ := Trie.links_of_foldlM
    (fun trie nodes key child linking settled at_child =>
      Trie.linkChild_spec linking at_nd nonempty settled at_child nodes)
    (node.children.range (orders nd)) trie (level ++ below) round.linking
    (length.symm ▸ round.settled) fun kid => (isKid kid).mp
  have mem_kids := spells.mem_kidsOf (orders nd)
  -- a child that was seen before has a visited parent, and this one was waiting
  have fresh : ∀ p ∈ kidsOf node (orders nd), p ∉ visited ++ nd :: level ++ below := by
    intro p mem present
    obtain ⟨char, at_p⟩ := (mem_kids p).mp mem
    have gone := round.parents nd p label char present at_p nonempty at_nd
    have distinct := round.distinct
    rw [append_assoc, nodup_append] at distinct
    exact distinct.2.2 nd gone nd (by simp) rfl
  have waiting : ∀ p ∈ visited ++ [nd] ++ level ++ (below ++ kidsOf node (orders nd)),
      p ∈ visited ++ nd :: level ++ below ∨ p ∈ kidsOf node (orders nd) := by
    intro p mem
    simpa [or_assoc] using mem
  have sameSize : next.size = trie.size := by rw [linking.spelled.size, spelled.size]
  refine ⟨next, kidsOf node (orders nd), ?_, linking, round.deep, ?_, ?_, ?_, ?_, ?_, ?_, ?_⟩
  · rw [cons_append, Trie.buildLoop, Trie.deref_of_read stored]
    simp only [bind, Except.bind, loop, append_assoc, kidsOf]
  · have all : (visited ++ nd :: level ++ below ++ kidsOf node (orders nd)).Nodup := by
      refine nodup_append.mpr ⟨round.distinct, spells.nodup_kidsOf (orders nd), ?_⟩
      rintro p present q mem rfl
      exact fresh p mem present
    simpa using all
  · intro p mem
    rw [sameSize]
    rcases waiting p mem with old | new
    · exact round.bound p old
    · obtain ⟨char, at_p⟩ := (mem_kids p).mp new
      exact spelled.size ▸ (List.getElem?_eq_some_iff.mp at_p).1
  · exact fun p mem => round.levelDepth p (mem_cons_of_mem _ mem)
  · intro p mem
    rcases mem_append.mp mem with old | new
    · exact round.belowDepth p old
    · obtain ⟨char, at_p⟩ := (mem_kids p).mp new
      exact ⟨_, at_p, by simp [length]⟩
  · intro p other at_p filled shallow
    exact kept p other (round.settled p other at_p filled shallow)
  · intro parent p other char at_parent depthParent at_p absent
    by_cases same : parent = nd
    · subst same
      cases at_parent.symm.trans at_nd
      exact ⟨mem_append_right _ ((mem_kids p).mpr ⟨char, at_p⟩),
        linked (char, p) ((isKid _).mpr at_p)⟩
    · obtain ⟨mem, has⟩ := round.seen parent p other char at_parent depthParent at_p
        (by simp [same, absent])
      exact ⟨mem_append_left _ mem, kept _ _ has⟩
  · intro parent p other char mem at_p filled at_parent
    rcases waiting p mem with old | new
    · exact mem_append_left _ (round.parents parent p other char old at_p filled at_parent)
    · obtain ⟨last, at_kid⟩ := (mem_kids p).mp new
      have same := Option.some.inj (at_p.symm.trans at_kid)
      obtain rfl : other = label := (append_inj' same rfl).1
      rw [spelled.pointer_unique at_parent at_nd]
      simp

theorem buildLoop_spec (orders : Nat → GoMap.RangeOrder Nat Nat) (turns : Nat) :
    ∀ {trie : Trie} {visited level below : List Nat} {depth : Nat},
    Round trie labels words visited level below depth → trie.size ≤ visited.length + turns →
    ∃ final, Trie.buildLoop orders turns trie (level ++ below) = .ok final ∧
      Built final labels words := by
  induction turns with
  | zero =>
    intro trie visited level below depth round enough
    have few := round.length_le
    simp only [length_append] at few
    have noLevel : level = [] := eq_nil_of_length_eq_zero (by omega)
    have noBelow : below = [] := eq_nil_of_length_eq_zero (by omega)
    subst noLevel noBelow
    exact ⟨trie, by simp [Trie.buildLoop], round.built⟩
  | succ turns ih =>
    -- one node of a level that is not empty
    have step : ∀ {trie : Trie} {visited level below : List Nat} {nd depth : Nat},
        Round trie labels words visited (nd :: level) below depth →
        trie.size ≤ visited.length + (turns + 1) →
        ∃ final, Trie.buildLoop orders (turns + 1) trie (nd :: level ++ below) = .ok final ∧
          Built final labels words := by
      intro trie visited level below nd depth round enough
      obtain ⟨next, kids, loop, after⟩ := round.visit orders turns
      have sameSize : next.size = trie.size := by
        rw [after.linking.spelled.size, round.linking.spelled.size]
      rw [loop]
      refine ih after ?_
      rw [sameSize, length_append, length_singleton]
      omega
    intro trie visited level below depth round enough
    cases level with
    | cons nd level => exact step round enough
    | nil =>
      cases below with
      | nil => exact ⟨trie, by simp [Trie.buildLoop], round.built⟩
      | cons nd below => simpa using step round.descend enough

end Round

/-- `build` links every node, in whatever order the maps are ranged over. -/
theorem Trie.build_spec (linking : Linking trie labels words)
    (orders : Nat → GoMap.RangeOrder Nat Nat) :
    ∃ final, trie.build orders = .ok final ∧ Built final labels words := by
  have spelled := linking.spelled
  obtain ⟨node, stored, spells⟩ := spelled.node _ _ spelled.root
  have isKid := spells.mem_range (orders root)
  have mem_kids := spells.mem_kidsOf (orders root)
  have single : ∀ {label : List Nat}, label.length = 1 → ∃ char, label = [] ++ [char] :=
    fun length => length_eq_one_iff.mp length
  have none : SettledTo trie labels ([] : List Nat).length :=
    fun p label _ nonempty shallow =>
      absurd (length_eq_zero_iff.mp (Nat.le_zero.mp shallow)) nonempty
  obtain ⟨next, loop, linkingNext, linked, -⟩ := @links_of_foldlM labels words
    (fun state entry => pure (linkRoot state entry)) []
    (fun trie nodes key child linking _ at_child => by
      obtain ⟨next, result, rest⟩ := linkRoot_spec linking at_child nodes
      exact ⟨next, congrArg Except.ok result, rest⟩)
    (node.children.range (orders root)) trie [] linking none fun kid => (isKid kid).mp
  have round : Round next labels words [] (kidsOf node (orders root)) [] 1 := by
    refine ⟨linkingNext, Nat.one_pos, by simpa using spells.nodup_kidsOf (orders root), ?_, ?_,
      by simp, ?_, ?_, ?_⟩
    · intro p mem
      obtain ⟨char, at_p⟩ := (mem_kids p).mp (by simpa using mem)
      exact linkingNext.spelled.size ▸ (List.getElem?_eq_some_iff.mp at_p).1
    · intro p mem
      obtain ⟨char, at_p⟩ := (mem_kids p).mp mem
      exact ⟨_, at_p, rfl⟩
    · intro p label at_p nonempty shallow
      have positive := length_pos_of_ne_nil nonempty
      obtain ⟨char, rfl⟩ := single (Nat.le_antisymm shallow positive)
      exact linked (char, p) ((isKid _).mpr at_p)
    · intro nd p label char at_nd length _ absent
      obtain ⟨first, rfl⟩ := single length
      exact absurd ((mem_kids nd).mpr ⟨first, at_nd⟩) absent
    · intro nd p label char mem at_p nonempty _
      obtain ⟨first, at_kid⟩ := (mem_kids p).mp (by simpa using mem)
      have same := Option.some.inj (at_p.symm.trans at_kid)
      exact absurd (append_inj' same rfl).1 nonempty
  have sameSize : next.size = trie.size := by rw [linkingNext.spelled.size, spelled.size]
  have unfolds : trie.build orders =
      buildLoop orders trie.size next (kidsOf node (orders root)) := by
    rw [foldlM_pure] at loop
    rw [build, deref_of_read stored]
    simp only [bind, Except.bind, Except.ok.inj loop, nil_append, kidsOf]
  rw [unfolds, ← append_nil (kidsOf node (orders root))]
  exact Round.buildLoop_spec orders trie.size round (by simp [sameSize])

end FastGoZero.Stringx
