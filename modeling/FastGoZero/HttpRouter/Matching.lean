import FastGoZero.HttpRouter.Build
import FastGoZero.HttpRouter.Lookup

/-!
# What a pass finds

A pattern matches a path byte by byte; a parameter covers a segment, or what is left of
one, and a catch-all covers the rest from its '/'. A pass of the lookup at a well-formed
node does not panic, and a handler that is found below where it goes on was registered
with a pattern that matches.
-/

namespace FastGoZero.HttpRouter

open Lib List

universe u

variable {H : Type u} {pieces : List Param} {pattern path : Str}

/-- The pattern matches the path, and the wildcards cover the given pieces. -/
inductive Matches : Str → Str → List Param → Prop
  | nil : Matches [] [] []
  | byte {c : UInt8} {pattern path : Str} {pieces : List Param} (plain : isWild c = false)
      (rest : Matches pattern path pieces) : Matches (c :: pattern) (c :: path) pieces
  | param {name rest piece path : Str} {pieces : List Param} (named : Name name)
      (segment : Segment rest) (inside : ∀ c ∈ piece, c ≠ slash)
      (below : Matches rest path pieces) :
      Matches (colon :: name ++ rest) (piece ++ path) (⟨name, piece⟩ :: pieces)
  | catchAll {name path : Str} (named : Name name) :
      Matches (slash :: star :: name) (slash :: path) [⟨name, slash :: path⟩]

theorem Matches.text {text : Str} (plain : ∀ c ∈ text, isWild c = false)
    (rest : Matches pattern path pieces) : Matches (text ++ pattern) (text ++ path) pieces := by
  induction text with
  | nil => exact rest
  | cons c text ih =>
    refine .byte (plain c mem_cons_self) (ih ?_)
    intro d mem
    exact plain d (mem_cons_of_mem c mem)

theorem Matches.refl {text : Str} (plain : ∀ c ∈ text, isWild c = false) :
    Matches text text [] := by
  have matched := Matches.text plain .nil
  rwa [append_nil] at matched

/-- The handler is registered below the node with a pattern that matches the path. -/
def Finds (n : Node H) (path : Str) (h : H) (pieces : List Param) : Prop :=
  ∃ pattern, Reg n pattern h ∧ Matches pattern path pieces

theorem TextNode.getLast {n w : Node H} {kids : List (UInt8 × Node H)}
    (here : TextNode n kids (some w)) : n.children.getLast? = some w := by
  rw [here.shape]
  simp [Node.withKids]

section

variable {n : Node H} {c : UInt8} {rest : Str}

/-- A pass over a path that is longer than that of the node. -/
theorem pass_inside :
    n.pass (n.path ++ c :: rest) =
      match n.indices.findIdx? (· == c) with
      | some i =>
        match n.children[i]? with
        | none => .panic .indexOutOfRange
        | some child =>
          if n.wildChild then
            .branch (n.path ++ c :: rest) { n with indices := [] } child (c :: rest)
          else .go (.walk child (c :: rest))
      | none =>
        if !n.wildChild then
          if c :: rest ≠ [slash] then .rollBack (c :: rest) false
          else .go (.ret none [] n.handlers.isSome)
        else match n.children.getLast? with
          | none => .panic .indexOutOfRange
          | some wild => wild.capture (c :: rest) := by
  have inside : n.path.length < (n.path ++ c :: rest).length ∧
      n.path.isPrefixOf (n.path ++ c :: rest) := by
    refine ⟨by simp, ?_⟩
    rw [ isPrefixOf_iff_prefix]
    exact prefix_append _ _
  have index : (fun d => decide ((c :: rest).head? = some d)) = fun d => d == c := by
    funext d
    simp [eq_comm, Bool.beq_eq_decide_eq]
  have passed : n.pass (n.path ++ c :: rest) = _ := if_pos inside
  simp only [drop_left, index] at passed
  exact passed

theorem pass_here :
    n.pass n.path =
      match n.handlers with
      | some handlers => .go (.ret (some handlers) n.fullPath false)
      | none =>
        if n.path ≠ [slash] then .rollBack n.path n.slashChild
        else if (n.wildChild && n.nType ≠ .root) || n.nType = .static then .go (.ret none [] true)
        else .go (.ret none [] n.slashChild) := by
  have outside : ¬ (n.path.length < n.path.length ∧ n.path.isPrefixOf n.path) := by simp
  exact (if_neg outside).trans (if_pos rfl)

theorem pass_off (off : ¬ n.path <+: path) : n.pass path =
      if path = [slash] ∨ (n.path = path ++ [slash] ∧ n.handlers.isSome) then
        .go (.ret none [] true)
      else .rollBack path false := by
  have outside : ¬ (n.path.length < path.length ∧ n.path.isPrefixOf path) := by
    rintro ⟨_, inside⟩
    exact off ( isPrefixOf_iff_prefix.mp inside)
  have differs : path ≠ n.path := by
    rintro rfl
    exact off prefix_rfl
  rw [Node.pass, if_neg outside, if_neg differs]

/-- The indexed child takes the path, or the node is skipped for it. -/
theorem pass_kid {kids : List (UInt8 × Node H)} {wild : Option (Node H)} {i : Nat}
    (here : TextNode n kids wild) (found : n.indices.findIdx? (· == c) = some i) :
    ∃ child, (c, child) ∈ kids ∧ n.pass (n.path ++ c :: rest) =
      if n.wildChild then
        .branch (n.path ++ c :: rest) { n with indices := [] } child (c :: rest)
      else .go (.walk child (c :: rest)) := by
  obtain ⟨front, child, back, rfl, rfl⟩ := exists_kid here.shape found
  have present : n.children[front.length]? = some child := by
    rw [here.shape]
    simp [Node.withKids]
  refine ⟨child, by simp, ?_⟩
  rw [pass_inside, found]
  dsimp only
  rw [present]

/-- The wildcard child of a node without a fitting index takes the path. -/
theorem pass_wild {w : Node H} (missing : n.indices.findIdx? (· == c) = none)
    (wildChild : n.wildChild = true) (last : n.children.getLast? = some w) :
    n.pass (n.path ++ c :: rest) = w.capture (c :: rest) := by
  simp only [pass_inside, missing, wildChild, last, Bool.not_true, Bool.false_eq_true, ↓reduceIte]

end

/-- The copy of a skipped node has nothing but its wildcard child. -/
theorem pass_copy {n w : Node H} {kids : List (UInt8 × Node H)} (here : TextNode n kids (some w))
    (c : UInt8) (rest : Str) :
    Node.pass { n with indices := [] } (n.path ++ c :: rest) = w.capture (c :: rest) :=
  pass_wild rfl here.wildChild here.getLast

/-- A node at which the walk arrives, with what is left of the path: a node of the tree, the
copy of a text node that was skipped, or the root of an empty tree. -/
inductive Walkable : Node H → Str → Prop
  | node {n : Node H} {path : Str} (wf : Wf n) (kind : n.nType ≠ .param)
      (behind : n.nType = .catchAll → path.head? = some slash) : Walkable n path
  | copy {n : Node H} {path : Str} {kids : List (UInt8 × Node H)} {w : Node H}
      (here : TextNode n kids (some w)) (wf : Wf w) : Walkable { n with indices := [] } path
  | empty {n : Node H} {path : Str} (new : Fresh n) : Walkable n path

variable {n leaf : Node H} {h : H} {w : Node H} {path : Str} {kids : List (UInt8 × Node H)}
  {wild : Option (Node H)} {rest : Str} {c : UInt8}

theorem Root.walkable (root : Root n) (path : Str) : Walkable n path := by
  cases root with
  | fresh new => exact .empty new
  | grown wf kind _ =>
    refine .node wf ?_ ?_
    · simp [kind]
    · simp [kind]

/-- What is found where the walk goes on is found from the node. -/
def Turn.Sound (n : Node H) (path : Str) (pieces : List Param) : Turn H → Prop
  | .walk m rest => Walkable m rest ∧
      ∀ h more, Finds m rest h more → Finds n path h (pieces ++ more)
  | .ret handler _ _ => ∀ h ∈ handler, Finds n path h pieces

def Exit.Sound (n : Node H) (path : Str) : Exit H → Prop
  | .go turn => turn.Sound n path []
  | .branch whole skipped child rest => whole = path ∧
      (Walkable child rest ∧ ∀ h pieces, Finds child rest h pieces → Finds n path h pieces) ∧
      Walkable skipped path ∧ ∀ h pieces, Finds skipped path h pieces → Finds n path h pieces
  | .rollBack _ _ => True
  | .save skip wildcard piece turn => skip ≤ wildcard.length ∧
      turn.Sound n path [⟨wildcard.drop skip, piece⟩]
  | .panic _ => False

theorem Holder.reg_iff (here : Holder n leaf) :
    Reg n pattern h ↔ pattern = leaf.path ∧ leaf.handlers = some h := by
  rw [HttpRouter.reg_iff, here.unset, here.children]
  simp [HttpRouter.reg_iff (n := leaf), here.leafEnd, here.path, and_comm]

theorem Holder.head (here : Holder n leaf) (reg : Reg n pattern h) :
    pattern.head? = some slash := by
  obtain ⟨name, leafPath, _⟩ := here.leafPath
  rw [(here.reg_iff.mp reg).1, leafPath]
  rfl

theorem ParamNode.head (here : ParamNode w) (reg : Reg w pattern h) :
    pattern.head? = some colon := by
  obtain ⟨name, isName, -⟩ := here.path
  obtain ⟨rest, rfl⟩ := reg_prefix reg
  rw [isName]
  rfl

/-- Below a child that stands under a byte, the patterns start with it. -/
theorem reg_head {b : UInt8} (wf : Wf n) (kind : n.nType ≠ .param) (leads : Leads b n)
    (reg : Reg n pattern h) : pattern.head? = some b := by
  rcases leads with first | ⟨empty, rfl⟩
  · obtain ⟨rest, rfl⟩ := reg_prefix reg
    rw [head?_append, first]
    rfl
  · cases wf with
    | param here _ => exact absurd here.kind kind
    | holder here => exact here.head reg
    | text here kidsWf _ =>
      obtain ⟨unset, rfl, m, rfl, isHolder⟩ := here.bare empty
      have children : n.children = [m] := by
        rw [here.shape]
        rfl
      rcases reg_iff.mp reg with ⟨set, _⟩ | ⟨c, mem, rest, rfl, below⟩
      · rw [unset] at set
        cases set
      · rw [children, mem_singleton] at mem
        subst mem
        rw [empty, nil_append]
        obtain ⟨_, held⟩ := (kidsWf (slash, c) (mem_singleton_self _)).holderNode isHolder
        exact held.head below

/-- What is registered below a parameter goes on with a '/'. -/
theorem ParamNode.child_head {c : Node H} (here : ParamNode w) (below : ∀ c ∈ w.children, Wf c)
    (mem : c ∈ w.children) (reg : Reg c pattern h) : pattern.head? = some slash :=
  reg_head (below c mem) (by simp [here.kinds c mem]) (here.leads c mem) reg

theorem TextNode.kid_kind {c : Node H} {b : UInt8} (here : TextNode n kids wild)
    (mem : (b, c) ∈ kids) : c.nType ≠ .param := by
  have kind : c.nType = .static ∨ c.nType = .catchAll ∧ b = slash := here.kinds _ mem
  rcases kind with static | ⟨catchAll, _⟩
  · simp [static]
  · simp [catchAll]

theorem TextNode.catchAll_slash {c : Node H} {b : UInt8} (here : TextNode n kids wild)
    (mem : (b, c) ∈ kids) (kind : c.nType = .catchAll) : b = slash := by
  rcases here.kinds _ mem with static | ⟨-, first⟩
  · rw [kind] at static
    cases static
  · exact first

/-- A parameter takes its piece of the path, and what is below it takes the rest. -/
theorem Finds.param {name piece q : Str} (plain : ∀ c ∈ n.path, isWild c = false)
    (mem : w ∈ n.children) (isName : w.path = colon :: name) (named : Name name)
    (segment : Segment q) (inside : ∀ c ∈ piece, c ≠ slash) (reg : Reg w (w.path ++ q) h)
    (below : Matches q path pieces) :
    Finds n (n.path ++ (piece ++ path)) h (⟨name, piece⟩ :: pieces) := by
  refine ⟨n.path ++ (w.path ++ q), .child mem reg, .text plain ?_⟩
  rw [isName]
  exact .param named segment inside below

theorem capture_sound (plain : ∀ c ∈ n.path, isWild c = false)
    (mem : w ∈ n.children) (wf : Wf w) (kind : w.nType = .param) :
    (w.capture path).Sound n (n.path ++ path) := by
  obtain ⟨here, below⟩ := wf.paramNode kind
  obtain ⟨name, isName, named⟩ := here.path
  have inside : ∀ c ∈ path.take (path.findIdx (· == slash)), c ≠ slash := by
    intro c mem
    obtain ⟨j, small, rfl⟩ := mem_take_iff_getElem.mp mem
    simpa using not_of_lt_findIdx (Nat.lt_of_lt_of_le small (Nat.min_le_left _ _))
  have whole : path.take (path.findIdx (· == slash)) ++ path.drop (path.findIdx (· == slash)) =
      path := take_append_drop _ _
  simp only [Node.capture, kind]
  refine ⟨by simp [isName], ?_⟩
  rw [isName, drop_one, tail_cons]
  split
  · split
    · rename_i child others children
      have inChildren : child ∈ w.children := by simp [children]
      refine ⟨.node (below child inChildren) ?_ ?_, ?_⟩
      · simp [here.kinds child inChildren]
      · simp [here.kinds child inChildren]
      · rintro h more ⟨q, reg, matched⟩
        have segment : Segment q :=
          Or.inr (head?_eq_some_iff.mp (here.child_head below inChildren reg))
        have found := Finds.param plain mem isName named segment inside
          (.child inChildren reg) matched
        rwa [whole] at found
    · nofun
  · rename_i ended
    have atEnd : path.drop (path.findIdx (· == slash)) = [] :=
      drop_eq_nil_of_le (Nat.not_lt.mp ended)
    rw [atEnd] at whole
    split
    · rename_i handlers set
      rintro h ⟨⟩
      have found := Finds.param plain mem isName named (Or.inl rfl) inside
        (by rw [append_nil]; exact .here set) .nil
      rwa [whole] at found
    · split
      · nofun
      · nofun

/-- What is found from the copy of a node is found from the node. -/
theorem Finds.ofCopy (found : Finds { n with indices := [] } path h pieces) :
    Finds n path h pieces := by
  obtain ⟨pattern, reg, matched⟩ := found
  refine ⟨pattern, ?_, matched⟩
  have same : Reg { n with indices := [] } pattern h ↔ Reg n pattern h := by
    apply reg_congr
    · rfl
    · rfl
    · exact Perm.refl _
  exact same.mp reg

theorem here_sound (plain : ∀ c ∈ n.path, isWild c = false) : (n.pass n.path).Sound n n.path := by
  rw [pass_here]
  split
  · rename_i handlers set
    rintro h ⟨⟩
    exact ⟨n.path, .here set, .refl plain⟩
  · split
    · trivial
    · split
      · nofun
      · nofun

theorem off_sound (off : ¬ n.path <+: path) : (n.pass path).Sound n path := by
  rw [pass_off off]
  split
  · nofun
  · trivial

theorem kid_sound {child : Node H} (here : TextNode n kids wild) (kidsWf : ∀ e ∈ kids, Wf e.2)
    (mem : (c, child) ∈ kids) :
    Walkable child (c :: rest) ∧ ∀ h pieces, Finds child (c :: rest) h pieces →
      Finds n (n.path ++ c :: rest) h pieces := by
  refine ⟨.node (kidsWf _ mem) (here.kid_kind mem) ?_, ?_⟩
  · intro isHolder
    rw [here.catchAll_slash mem isHolder]
    rfl
  · rintro h pieces ⟨q, reg, matched⟩
    have inChildren : child ∈ n.children := by
      rw [here.shape]
      exact mem_append_left _ (mem_map_of_mem mem)
    exact ⟨n.path ++ q, .child inChildren reg, .text here.plain matched⟩

theorem text_sound (here : TextNode n kids wild) (kidsWf : ∀ e ∈ kids, Wf e.2)
    (wildWf : ∀ w ∈ wild, Wf w) : (n.pass (n.path ++ c :: rest)).Sound n (n.path ++ c :: rest) := by
  cases found : n.indices.findIdx? (· == c) with
  | some i =>
    obtain ⟨child, mem, passed⟩ := pass_kid here found
    have goesOn : Walkable child (c :: rest) ∧ _ := kid_sound here kidsWf mem
    rw [passed]
    cases wild with
    | none =>
      rwa [here.wildChild]
    | some w =>
      have wildChild : n.wildChild = true := here.wildChild
      rw [if_pos wildChild]
      exact ⟨rfl, goesOn, .copy here (wildWf w rfl), fun h pieces => Finds.ofCopy⟩
  | none =>
    cases wild with
    | none =>
      have wildChild : n.wildChild = false := here.wildChild
      simp only [pass_inside, found, wildChild, Bool.not_false, ↓reduceIte]
      split
      · trivial
      · nofun
    | some w =>
      rw [pass_wild found here.wildChild here.getLast]
      exact capture_sound here.plain (mem_of_getLast? here.getLast) (wildWf w rfl)
        (here.named w rfl)

theorem pass_holder (here : Holder n leaf) : n.pass (slash :: rest) =
      .save 2 leaf.path (slash :: rest) (.ret leaf.handlers leaf.fullPath false) := by
  have captured : n.pass (n.path ++ slash :: rest) = leaf.capture (slash :: rest) :=
    pass_wild (by rw [here.indices]; rfl) here.wildChild (by rw [here.children]; rfl)
  rw [here.path, nil_append] at captured
  simp only [captured, Node.capture, here.leafKind]

theorem holder_sound (here : Holder n leaf) : (n.pass (slash :: rest)).Sound n (slash :: rest) := by
  obtain ⟨name, leafPath, named⟩ := here.leafPath
  rw [pass_holder here]
  refine ⟨by simp [leafPath], ?_⟩
  intro h set
  refine ⟨n.path ++ leaf.path, .child (by simp [here.children]) (.here set), ?_⟩
  rw [here.path, leafPath]
  exact .catchAll named

theorem pass_sound (walkable : Walkable n path) : (n.pass path).Sound n path := by
  cases walkable with
  | empty new =>
    have shape : n.path ++ path = path := by rw [new.path, nil_append]
    rw [← shape]
    cases path with
    | nil =>
      rw [append_nil]
      exact here_sound (by simp [new.path])
    | cons c rest =>
      simp only [pass_inside, new.indices, findIdx?_nil, new.wildChild, Bool.not_false, ↓reduceIte]
      split
      · trivial
      · nofun
  | @copy n _ kids w here wf =>
    by_cases inside : n.path <+: path
    · obtain ⟨rest, rfl⟩ := inside
      cases rest with
      | nil =>
        rw [append_nil]
        exact here_sound here.plain
      | cons c rest =>
        rw [pass_copy here]
        exact capture_sound here.plain (mem_of_getLast? here.getLast) wf (here.named w rfl)
    · exact off_sound inside
  | node wf kind behind =>
    cases wf with
    | param here _ => exact absurd here.kind kind
    | holder here =>
      cases path with
      | nil => cases behind here.kind
      | cons c rest =>
        obtain rfl : c = slash := by simpa using behind here.kind
        exact holder_sound here
    | text here kidsWf wildWf =>
      by_cases inside : n.path <+: path
      · obtain ⟨rest, rfl⟩ := inside
        cases rest with
        | nil =>
          rw [append_nil]
          exact here_sound here.plain
        | cons c rest => exact text_sound here kidsWf wildWf
      · exact off_sound inside

end FastGoZero.HttpRouter
