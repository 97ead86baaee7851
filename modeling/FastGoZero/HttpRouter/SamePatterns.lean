import FastGoZero.HttpRouter.Completeness

/-!
# Trees with the same patterns

Two compressed trees with the same patterns have the same nodes, children in another order. There
is one exception: before a catch-all there may be a node with an empty path or none.
-/

namespace FastGoZero.HttpRouter

open Lib List

universe u

variable {H : Type u} {q : Str} {g : H} {n w m : Node H}

theorem exists_reg (tight : Tight n) : ∃ q g, Reg n q g := by
  induction tight with
  | node crowded kids ih =>
    rename_i n
    rcases crowded.content with set | some
    · obtain ⟨g, set⟩ := Option.isSome_iff_exists.mp set
      exact ⟨n.path, g, .here set⟩
    · obtain ⟨c, mem⟩ := exists_mem_of_ne_nil _ some
      obtain ⟨q, g, reg⟩ := ih c mem
      exact ⟨n.path ++ q, g, .child mem reg⟩

/-- A text node with well-formed children. -/
structure Text (n : Node H) (kids : List (UInt8 × Node H)) (wild : Option (Node H)) : Prop where
  here : TextNode n kids wild
  kidsWf : ∀ e ∈ kids, Wf e.2
  wildWf : ∀ w ∈ wild, Wf w

namespace Text

variable {n : Node H} {kids : List (UInt8 × Node H)} {wild : Option (Node H)}
  (text : Text n kids wild)

include text

theorem children : n.children = kids.map Prod.snd ++ wild.toList :=
  congrArg Node.children text.here.shape

variable {b : UInt8} {c w : Node H} {q rest : Str} {g : H}

theorem kid_mem (mem : (b, c) ∈ kids) : c ∈ n.children := by
  rw [text.children]
  exact mem_append_left _ (mem_map_of_mem mem)

theorem wild_mem (mem : w ∈ wild) : w ∈ n.children := by
  rw [text.children, Option.mem_def.mp mem]
  exact mem_append_right _ (mem_singleton_self w)

theorem kid_plain (mem : (b, c) ∈ kids) : isWild b = false :=
  (text.here.leads _ mem).plain (text.kidsWf _ mem) (text.here.kid_kind mem)

theorem kid_head (mem : (b, c) ∈ kids) (reg : Reg c q g) : q.head? = some b :=
  reg_head (text.kidsWf _ mem) (text.here.kid_kind mem) (text.here.leads _ mem) reg

theorem wild_head (mem : w ∈ wild) (reg : Reg w q g) : q.head? = some colon :=
  ((text.wildWf w mem).paramNode (text.here.named w mem)).1.head reg

/-- A pattern ends at the node or goes on with the byte of a child. -/
theorem reg_cases (reg : Reg n (n.path ++ rest) g) : (n.handlers = some g ∧ rest = []) ∨
    (∃ b c, (b, c) ∈ kids ∧ rest.head? = some b ∧ Reg c rest g) ∨
    ∃ w ∈ wild, rest.head? = some colon ∧ Reg w rest g := by
  rcases reg_iff.mp reg with ⟨set, same⟩ | ⟨c, mem, tail, same, below⟩
  · exact Or.inl ⟨set, append_right_eq_self.mp same⟩
  · obtain rfl := append_cancel_left same
    rw [text.children, mem_append] at mem
    rcases mem with kid | isWild
    · obtain ⟨⟨b, c⟩, inside, rfl⟩ := mem_map.mp kid
      exact Or.inr (Or.inl ⟨b, c, inside, text.kid_head inside below, below⟩)
    · have inside : c ∈ wild := Option.mem_toList.mp isWild
      exact Or.inr (Or.inr ⟨c, inside, text.wild_head inside below, below⟩)

/-- No pattern goes on with a '*' after the text. -/
theorem no_star (reg : Reg n (n.path ++ rest) g) : rest.head? ≠ some star := by
  intro starred
  rcases text.reg_cases reg with ⟨-, rfl⟩ | ⟨b, c, mem, first, -⟩ | ⟨w, -, first, -⟩
  · cases starred
  · rw [starred] at first
    cases first
    cases text.kid_plain mem
  · rw [starred] at first
    cases first

theorem handlers_iff : n.handlers = some g ↔ Reg n n.path g := by
  constructor
  · exact .here
  · intro reg
    have reg : Reg n (n.path ++ []) g := by rwa [append_nil]
    rcases text.reg_cases reg with ⟨set, -⟩ | ⟨b, c, -, first, -⟩ | ⟨w, -, first, -⟩
    · exact set
    · cases first
    · cases first

theorem kid_reg_iff (mem : (b, c) ∈ kids) :
    Reg c q g ↔ q.head? = some b ∧ Reg n (n.path ++ q) g := by
  constructor
  · exact fun reg => ⟨text.kid_head mem reg, .child (text.kid_mem mem) reg⟩
  · rintro ⟨first, reg⟩
    rcases text.reg_cases reg with ⟨-, rfl⟩ | ⟨d, c', inside, same, below⟩ | ⟨w, -, same, -⟩
    · cases first
    · rw [first] at same
      cases same
      rwa [text.here.kid_unique mem inside]
    · rw [first] at same
      cases same
      cases text.kid_plain mem

theorem wild_reg_iff (mem : w ∈ wild) :
    Reg w q g ↔ q.head? = some colon ∧ Reg n (n.path ++ q) g := by
  constructor
  · exact fun reg => ⟨text.wild_head mem reg, .child (text.wild_mem mem) reg⟩
  · rintro ⟨first, reg⟩
    rcases text.reg_cases reg with ⟨-, rfl⟩ | ⟨d, c', inside, same, below⟩ | ⟨v, inside, -, below⟩
    · cases first
    · rw [first] at same
      cases same
      cases text.kid_plain inside
    · rwa [Option.mem_unique mem inside]

end Text

/-- Two compressed trees hold the same patterns. -/
structure Same (n m : Node H) : Prop where
  wf : Wf n
  wf' : Wf m
  tight : Tight n
  tight' : Tight m
  reg : ∀ q g, Reg n q g ↔ Reg m q g

theorem Same.symm (same : Same n m) : Same m n :=
  ⟨same.wf', same.wf, same.tight', same.tight, fun q g => (same.reg q g).symm⟩

theorem exists_two {α : Type u} {l : List α} (two : 2 ≤ l.length) :
    ∃ first second rest, l = first :: second :: rest := by
  cases l with
  | nil => simp at two
  | cons first l =>
    cases l with
    | nil => simp at two
    | cons second rest => exact ⟨first, second, rest, rfl⟩

section

variable {n m : Node H} {kids kids' : List (UInt8 × Node H)} {wild wild' : Option (Node H)}
  (text : Text n kids wild) (text' : Text m kids' wild')

include text text'

section

variable (same : Same n m)

include same

/-- The path of one of the nodes is no longer than that of the other: in a compressed tree
something branches off where a path ends. -/
theorem Same.not_longer (b : UInt8) (more : Str) : m.path ≠ n.path ++ b :: more := by
  intro longer
  have plain : ∀ c ∈ b :: more, isWild c = false := fun c mem =>
    text'.here.plain c (longer ▸ mem_append_right _ mem)
  have goesOn : ∀ {rest : Str} {g : H}, Reg n (n.path ++ rest) g → b :: more <+: rest := by
    intro rest g reg
    have inside := reg_prefix ((same.reg _ _).mp reg)
    rwa [longer, prefix_append_right_inj] at inside
  have firstByte : ∀ {rest : Str} {g : H}, Reg n (n.path ++ rest) g → rest.head? = some b := by
    intro rest g reg
    obtain ⟨tail, rfl⟩ := goesOn reg
    rfl
  have noWild : wild = none := by
    by_contra some
    obtain ⟨w, isWild⟩ := Option.ne_none_iff_exists'.mp some
    obtain ⟨q, g, reg⟩ := exists_reg (same.tight.child (text.wild_mem isWild))
    have first := firstByte (.child (text.wild_mem isWild) reg)
    rw [text.wild_head isWild reg] at first
    cases first
    cases plain colon mem_cons_self
  have kidByte : ∀ e ∈ kids, e.1 = b := by
    rintro ⟨d, c⟩ mem
    obtain ⟨q, g, reg⟩ := exists_reg (same.tight.child (text.kid_mem mem))
    have first := firstByte (.child (text.kid_mem mem) reg)
    rw [text.kid_head mem reg] at first
    exact Option.some.inj first
  have children : n.children = kids.map Prod.snd := by
    rw [text.children, noWild]
    exact append_nil _
  rcases same.tight.crowded with set | two | ⟨c, only, wildChild | param | catchAll⟩
  · obtain ⟨g, set⟩ := Option.isSome_iff_exists.mp set
    have reg : Reg n (n.path ++ []) g := by
      rw [append_nil]
      exact .here set
    cases firstByte reg
  · rw [children, length_map] at two
    obtain ⟨one, other, others, rfl⟩ := exists_two two
    have apart := text.here.distinct
    rw [map_cons, map_cons, nodup_cons] at apart
    refine apart.1 (mem_cons.mpr (Or.inl ?_))
    rw [kidByte one mem_cons_self, kidByte other (mem_cons_of_mem _ mem_cons_self)]
  · rw [text.here.wildChild, noWild] at wildChild
    cases wildChild
  · exact text.here.ne_param param
  · obtain ⟨⟨d, c'⟩, isKid, rfl⟩ : ∃ e ∈ kids, e.2 = c := by
      rw [← mem_map, ← children, only]
      exact mem_singleton_self c
    obtain ⟨leaf, held⟩ := (text.kidsWf _ isKid).holderNode catchAll
    obtain ⟨name, leafPath, -⟩ := held.leafPath
    obtain ⟨g, set⟩ := Option.ne_none_iff_exists'.mp held.leafSet
    have reg : Reg n (n.path ++ slash :: star :: name) g :=
      .child (text.kid_mem isKid) (held.reg_iff.mpr ⟨leafPath.symm, set⟩)
    obtain ⟨rfl, starts⟩ := cons_prefix_cons.mp (goesOn reg)
    cases more with
    | nil =>
      have after : Reg m (m.path ++ star :: name) g := by
        rw [longer, append_assoc]
        exact (same.reg _ _).mp reg
      exact text'.no_star after rfl
    | cons e more =>
      obtain ⟨rfl, -⟩ := cons_prefix_cons.mp starts
      cases plain star (mem_cons_of_mem _ mem_cons_self)

theorem Same.path_eq : n.path = m.path := by
  obtain ⟨q, g, reg⟩ := exists_reg same.tight
  have one := reg_prefix reg
  have two := reg_prefix ((same.reg q g).mp reg)
  rcases prefix_or_prefix_of_prefix one two with ⟨rest, whole⟩ | ⟨rest, whole⟩
  · cases rest with
    | nil => rwa [append_nil] at whole
    | cons b more => exact absurd whole.symm (same.not_longer text text' b more)
  · cases rest with
    | nil => rw [← whole, append_nil]
    | cons b more => exact absurd whole.symm (same.symm.not_longer text' text b more)

theorem Same.moved (q : Str) (g : H) : Reg n (n.path ++ q) g ↔ Reg m (m.path ++ q) g := by
  rw [same.reg, same.path_eq text text']

theorem Same.handlers_eq : n.handlers = m.handlers := by
  apply Option.ext
  intro g
  rw [text.handlers_iff, same.reg, same.path_eq text text', text'.handlers_iff]

theorem Same.same_kid {b : UInt8} {c : Node H} (mem : (b, c) ∈ kids) :
    ∃ c', (b, c') ∈ kids' ∧ Same c c' := by
  obtain ⟨q, g, reg⟩ := exists_reg (same.tight.child (text.kid_mem mem))
  have moved := same.moved text text'
  have first := text.kid_head mem reg
  rcases text'.reg_cases ((moved q g).mp (.child (text.kid_mem mem) reg)) with
    ⟨-, rfl⟩ | ⟨d, c', inside, sameByte, -⟩ | ⟨w, -, sameByte, -⟩
  · cases first
  · rw [first] at sameByte
    cases sameByte
    refine ⟨c', inside, text.kidsWf _ mem, text'.kidsWf _ inside,
      same.tight.child (text.kid_mem mem), same.tight'.child (text'.kid_mem inside), ?_⟩
    intro q g
    rw [text.kid_reg_iff mem, text'.kid_reg_iff inside, moved]
  · rw [first] at sameByte
    cases sameByte
    cases text.kid_plain mem

theorem Same.same_wild (mem : w ∈ wild) : ∃ w' ∈ wild', Same w w' := by
  obtain ⟨q, g, reg⟩ := exists_reg (same.tight.child (text.wild_mem mem))
  have moved := same.moved text text'
  have first := text.wild_head mem reg
  rcases text'.reg_cases ((moved q g).mp (.child (text.wild_mem mem) reg)) with
    ⟨-, rfl⟩ | ⟨d, c', inside, sameByte, -⟩ | ⟨w', inside, -, -⟩
  · cases first
  · rw [first] at sameByte
    cases sameByte
    cases text'.kid_plain inside
  · refine ⟨w', inside, text.wildWf _ mem, text'.wildWf _ inside,
      same.tight.child (text.wild_mem mem), same.tight'.child (text'.wild_mem inside), ?_⟩
    intro q g
    rw [text.wild_reg_iff mem, text'.wild_reg_iff inside, moved]

end

end

section

variable {w w' c : Node H}

theorem ParamNode.segment (here : ParamNode w) (wfBelow : ∀ c ∈ w.children, Wf c) (reg : Reg w q g)
    : ∃ rest, q = w.path ++ rest ∧ Segment rest := by
  rcases reg_iff.mp reg with ⟨-, rfl⟩ | ⟨c, mem, rest, rfl, below⟩
  · exact ⟨[], (append_nil _).symm, Or.inl rfl⟩
  · exact ⟨rest, rfl, Or.inr (head?_eq_some_iff.mp (here.child_head wfBelow mem below))⟩

/-- What is registered below a parameter goes on behind its name. -/
theorem ParamNode.child_reg_iff (here : ParamNode w) (wfBelow : ∀ c ∈ w.children, Wf c)
    (only : w.children = [c]) : Reg c q g ↔ q ≠ [] ∧ Reg w (w.path ++ q) g := by
  have mem : c ∈ w.children := by simp [only]
  constructor
  · intro reg
    have first := here.child_head wfBelow mem reg
    exact ⟨fun empty => by simp [empty] at first, .child mem reg⟩
  · rintro ⟨nonempty, reg⟩
    rcases reg_iff.mp reg with ⟨-, whole⟩ | ⟨d, inside, rest, whole, below⟩
    · exact absurd (append_right_eq_self.mp whole) nonempty
    · obtain rfl := append_cancel_left whole
      rw [only, mem_singleton] at inside
      rwa [← inside]

theorem ParamNode.handlers_iff (here : ParamNode w) (wfBelow : ∀ c ∈ w.children, Wf c) :
    w.handlers = some g ↔ Reg w w.path g := by
  constructor
  · exact .here
  · intro reg
    rcases reg_iff.mp reg with ⟨set, -⟩ | ⟨c, mem, rest, whole, below⟩
    · exact set
    · obtain rfl := append_right_eq_self.mp whole.symm
      cases here.child_head wfBelow mem below

variable (same : Same w w') (here : ParamNode w) (wfBelow : ∀ c ∈ w.children, Wf c)
  (here' : ParamNode w') (wfBelow' : ∀ c ∈ w'.children, Wf c)

include same here wfBelow here' wfBelow'

theorem Same.param_path : w.path = w'.path := by
  obtain ⟨q, g, reg⟩ := exists_reg same.tight
  obtain ⟨rest, whole, segment⟩ := here.segment wfBelow reg
  obtain ⟨rest', whole', segment'⟩ := here'.segment wfBelow' ((same.reg q g).mp reg)
  obtain ⟨name, isName, named⟩ := here.path
  obtain ⟨name', isName', named'⟩ := here'.path
  rw [whole, isName, isName'] at whole'
  obtain ⟨-, tails⟩ := cons_eq_cons.mp whole'
  obtain ⟨rfl, -⟩ := segment_unique named.inside named'.inside segment segment' tails
  rw [isName, isName']

theorem Same.param_handlers : w.handlers = w'.handlers := by
  apply Option.ext
  intro g
  rw [here.handlers_iff wfBelow, same.reg, same.param_path here wfBelow here' wfBelow',
    here'.handlers_iff wfBelow']

theorem Same.param_child (only : w.children = [c]) : ∃ c', w'.children = [c'] ∧ Same c c' := by
  have path := same.param_path here wfBelow here' wfBelow'
  have mem : c ∈ w.children := by simp [only]
  obtain ⟨q, g, reg⟩ := exists_reg (same.tight.child mem)
  obtain ⟨nonempty, below⟩ := (here.child_reg_iff wfBelow only).mp reg
  obtain ⟨c', only'⟩ : ∃ c', w'.children = [c'] := by
    refine here'.single.resolve_left fun childless => ?_
    rcases reg_iff.mp ((same.reg _ _).mp below) with ⟨-, whole⟩ | ⟨d, inside, -⟩
    · rw [path] at whole
      exact nonempty (append_right_eq_self.mp whole)
    · rw [childless.1] at inside
      cases inside
  have member' : c' ∈ w'.children := by simp [only']
  refine ⟨c', only', wfBelow c mem, wfBelow' c' member', same.tight.child mem,
    same.tight'.child member', ?_⟩
  intro q g
  rw [here.child_reg_iff wfBelow only, here'.child_reg_iff wfBelow' only', same.reg, path]

end

theorem Same.leaf {leaf leaf' : Node H} (same : Same n m) (held : Holder n leaf)
    (held' : Holder m leaf') : leaf.path = leaf'.path ∧ leaf.handlers = leaf'.handlers := by
  obtain ⟨g, set⟩ := Option.ne_none_iff_exists'.mp held.leafSet
  have reg := (same.reg _ _).mp (held.reg_iff.mpr ⟨rfl, set⟩)
  obtain ⟨path, set'⟩ := held'.reg_iff.mp reg
  exact ⟨path, set.trans set'.symm⟩

/-- A text node that holds what a catch-all holds is the empty node before one. -/
theorem Same.bare {leaf : Node H} {kids : List (UInt8 × Node H)} {wild : Option (Node H)}
    (same : Same n m) (text : Text n kids wild) (held : Holder m leaf) :
    n.path = [] ∧ wild = none ∧ ∃ holder, kids = [(slash, holder)] ∧ Same holder m := by
  obtain ⟨name, leafPath, -⟩ := held.leafPath
  obtain ⟨g, set⟩ := Option.ne_none_iff_exists'.mp held.leafSet
  have reg := (same.reg _ _).mpr (held.reg_iff.mpr ⟨rfl, set⟩)
  rw [leafPath] at reg
  have empty : n.path = [] := by
    obtain ⟨rest, whole⟩ := reg_prefix reg
    cases path : n.path with
    | nil => rfl
    | cons first tail =>
      rw [path] at whole
      obtain ⟨rfl, later⟩ := cons_eq_cons.mp whole
      cases tail with
      | nil =>
        have starred : Reg n (n.path ++ star :: name) g := by
          rwa [path]
        exact absurd rfl (text.no_star starred)
      | cons second tail =>
        obtain ⟨rfl, -⟩ := cons_eq_cons.mp later
        cases text.here.plain star (by rw [path]; exact mem_cons_of_mem _ mem_cons_self)
  obtain ⟨unset, noWild, holder, only, isHolder⟩ := text.here.bare empty
  have mem : (slash, holder) ∈ kids := by simp [only]
  refine ⟨empty, noWild, holder, only, text.kidsWf _ mem, same.wf',
    same.tight.child (text.kid_mem mem), same.tight', ?_⟩
  intro q g
  rw [text.kid_reg_iff mem, empty, nil_append, same.reg]
  constructor
  · exact And.right
  · exact fun reg => ⟨held.head reg, reg⟩

end FastGoZero.HttpRouter
