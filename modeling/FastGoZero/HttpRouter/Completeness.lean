import FastGoZero.HttpRouter.Bounds
import Mathlib.Data.List.Nodup

/-!
# How complete the lookup is

The search tries every branch of the tree that a path can follow, so it cannot run out
of alternatives while a registered pattern matches. The lookup nevertheless may miss it:
at some of its dead ends it returns instead of rolling back.
-/

namespace FastGoZero.HttpRouter

open Lib Lib.Backtracking List

universe u

variable {H : Type u}
  {pattern path piece : Str} {pieces : List Param} {b : UInt8} {rest : Str} {h : H}
  {c n w : Node H} {kids : List (UInt8 × Node H)} {wild : Option (Node H)} {name : Str}

theorem Matches.text_inv {text : Str}
    (plain : ∀ c ∈ text, isWild c = false) (noStar : pattern.head? ≠ some star)
    (matched : Matches (text ++ pattern) path pieces) :
    ∃ rest, path = text ++ rest ∧ Matches pattern rest pieces := by
  induction text generalizing path with
  | nil => exact ⟨path, rfl, matched⟩
  | cons c text ih =>
    have later : ∀ d ∈ text, isWild d = false := fun d mem =>
      plain d (mem_cons_of_mem c mem)
    generalize whole : c :: text ++ pattern = both at matched
    cases matched with
    | nil => cases whole
    | byte _ rest =>
      obtain ⟨rfl, rfl⟩ := cons_eq_cons.mp whole
      obtain ⟨tail, rfl, below⟩ := ih later rest
      exact ⟨tail, rfl, below⟩
    | param named segment inside below =>
      obtain ⟨rfl, _⟩ := cons_eq_cons.mp whole
      cases plain colon mem_cons_self
    | catchAll named =>
      obtain ⟨_, starred⟩ := cons_eq_cons.mp whole
      cases text with
      | nil =>
        have starred : pattern = star :: _ := starred
        exact absurd (congrArg head? starred) noStar
      | cons d text =>
        obtain ⟨rfl, _⟩ := cons_eq_cons.mp starred
        cases later star mem_cons_self

theorem Matches.head (plain : isWild b = false) (matched : Matches (b :: pattern) path pieces) :
    path.head? = some b := by
  generalize whole : b :: pattern = both at matched
  cases matched with
  | nil => cases whole
  | byte _ rest =>
    obtain ⟨rfl, _⟩ := cons_eq_cons.mp whole
    rfl
  | param named segment inside below =>
    obtain ⟨rfl, _⟩ := cons_eq_cons.mp whole
    cases plain
  | catchAll named =>
    obtain ⟨rfl, _⟩ := cons_eq_cons.mp whole
    rfl

/-- A pattern that goes on with a segment leaves a path that does. -/
theorem Matches.segment (segment : Segment rest)
    (matched : Matches rest path pieces) : Segment path := by
  rcases segment with rfl | ⟨tail, rfl⟩
  · cases matched
    exact Or.inl rfl
  · exact Or.inr (head?_eq_some_iff.mp (matched.head (by decide)))

/-- A text without '/' before a segment is determined. -/
theorem segment_unique {a b r s : Str} (left : ∀ c ∈ a, c ≠ slash) (right : ∀ c ∈ b, c ≠ slash)
    (one : Segment r) (two : Segment s) (same : a ++ r = b ++ s) : a = b ∧ r = s := by
  have split : ∀ {text rest : Str}, (∀ c ∈ text, c ≠ slash) → Segment rest →
      (text ++ rest).takeWhile (· ≠ slash) = text := by
    intro text rest inside segment
    rw [takeWhile_append_of_pos (by simpa using inside)]
    rcases segment with rfl | ⟨tail, rfl⟩
    · simp
    · simp
  have equal : a = b := by rw [← split left one, same, split right two]
  subst equal
  exact ⟨rfl, append_cancel_left same⟩

theorem Matches.param_inv (named : Name name) (segment : Segment rest)
    (matched : Matches (colon :: name ++ rest) path pieces) :
    ∃ piece path' more, path = piece ++ path' ∧ (∀ c ∈ piece, c ≠ slash) ∧
      Matches rest path' more ∧ pieces = ⟨name, piece⟩ :: more := by
  generalize whole : colon :: name ++ rest = both at matched
  cases matched with
  | nil => cases whole
  | byte plain _ =>
    obtain ⟨rfl, _⟩ := cons_eq_cons.mp whole
    cases plain
  | param named' segment' inside below =>
    obtain ⟨_, same⟩ := cons_eq_cons.mp whole
    obtain ⟨rfl, rfl⟩ := segment_unique named.inside named'.inside segment segment' same
    exact ⟨_, _, _, rfl, inside, below, rfl⟩
  | catchAll _ =>
    obtain ⟨⟨⟩, _⟩ := cons_eq_cons.mp whole

theorem findIdx_piece (inside : ∀ c ∈ piece, c ≠ slash) (segment : Segment path) :
    (piece ++ path).findIdx (· == slash) = piece.length := by
  have none : piece.findIdx (· == slash) = piece.length := by
    rw [findIdx_eq_length]
    simpa using inside
  rw [findIdx_append, none, if_neg (Nat.lt_irrefl _)]
  rcases segment with rfl | ⟨tail, rfl⟩
  · simp
  · simp [findIdx_cons]

/-- No parameter is empty. -/
def Given (pieces : List Param) : Prop := ∀ p ∈ pieces, p.value ≠ []

instance (pieces : List Param) : Decidable (Given pieces) :=
  inferInstanceAs (Decidable (∀ p ∈ pieces, _))

/-- The handler is to be found from where the walk is. From the copy of a skipped node it
is to be found through the parameter. -/
inductive Reaches (h : H) : Node H → Str → Prop
  | node {n : Node H} {path : Str} {pieces : List Param} (wf : Wf n) (kind : n.nType ≠ .param)
      (found : Finds n path h pieces) (given : Given pieces) : Reaches h n path
  | copy {n w : Node H} {kids : List (UInt8 × Node H)} {rest pattern : Str}
      {pieces : List Param} (here : TextNode n kids (some w)) (wf : Wf w) (reg : Reg w pattern h)
      (matched : Matches pattern rest pieces) (given : Given pieces) :
      Reaches h { n with indices := [] } (n.path ++ rest)

def Turn.Complete (h : H) : Turn H → Prop
  | .walk m rest => Reaches h m rest
  | .ret handler _ _ => handler.isSome

/-- The pass keeps a way to the handler. -/
def Exit.Complete (h : H) : Exit H → Prop
  | .go turn => turn.Complete h
  | .branch whole skipped child rest => Reaches h child rest ∨ Reaches h skipped whole
  | .rollBack _ _ => False
  | .save _ _ _ turn => turn.Complete h
  | .panic _ => True

/-- The parameter that a pattern goes through takes its piece and goes on. -/
theorem capture_complete (wf : Wf w) (kind : w.nType = .param) (reg : Reg w pattern h)
    (matched : Matches pattern path pieces) (given : Given pieces) :
    path ≠ [] ∧ (w.capture path).Complete h := by
  obtain ⟨here, below⟩ := wf.paramNode kind
  obtain ⟨name, isName, named⟩ := here.path
  rcases reg_iff.mp reg with ⟨set, rfl⟩ | ⟨c, mem, rest, rfl, regBelow⟩
  · rw [isName, ← append_nil (colon :: name)] at matched
    obtain ⟨piece, path, more, rfl, inside, ⟨⟩, rfl⟩ := matched.param_inv named (Or.inl rfl)
    have nonempty : piece ≠ [] := given _ mem_cons_self
    have stop := findIdx_piece inside (Or.inl rfl)
    refine ⟨by simpa using nonempty, ?_⟩
    rw [append_nil] at stop ⊢
    simp only [Node.capture, kind, stop, Nat.lt_irrefl, ↓reduceIte, set]
    rfl
  · have notParam : c.nType ≠ .param := by simp [here.kinds c mem]
    obtain ⟨tail, rfl⟩ := head?_eq_some_iff.mp (here.child_head below mem regBelow)
    have segment : Segment (slash :: tail) := Or.inr ⟨tail, rfl⟩
    rw [isName] at matched
    obtain ⟨piece, path, more, rfl, inside, goesOn, rfl⟩ := matched.param_inv named segment
    have nonempty : piece ≠ [] := given _ mem_cons_self
    have stop := findIdx_piece inside (goesOn.segment segment)
    have longer : piece.length < (piece ++ path).length := by
      have positive : 0 < path.length := length_pos_iff.mpr fun empty => by
        have starts := goesOn.head (by decide)
        rw [empty] at starts
        cases starts
      rw [length_append]
      omega
    obtain ⟨child, single⟩ : ∃ child, w.children = [child] :=
        here.single.resolve_left fun none => by
      rw [none.1] at mem
      cases mem
    obtain rfl : c = child := by simpa [single] using mem
    refine ⟨by simp [nonempty], ?_⟩
    simp only [Node.capture, kind, stop, longer, ↓reduceIte, single, drop_left]
    refine .node (below c mem) notParam ⟨slash :: tail, regBelow, goesOn⟩ ?_
    intro p later
    exact given p (mem_cons_of_mem _ later)

/-- The byte under which a child stands starts no wildcard. -/
theorem Leads.plain (leads : Leads b c) (wf : Wf c)
    (kind : c.nType ≠ .param) : isWild b = false := by
  rcases leads with first | ⟨_, rfl⟩
  · cases wf with
    | text here _ _ => exact here.plain b (mem_of_head? first)
    | param here _ => exact absurd here.kind kind
    | holder here =>
      rw [here.path] at first
      cases first
  · rfl

theorem TextNode.kid_unique {d : Node H} (here : TextNode n kids wild) (one : (b, c) ∈ kids)
    (two : (b, d) ∈ kids) : c = d := by
  have same := inj_on_of_nodup_map here.distinct one two rfl
  exact congrArg Prod.snd same

theorem kid_complete
    (here : TextNode n kids wild) (kidsWf : ∀ e ∈ kids, Wf e.2) (mem : (b, c) ∈ kids)
    (reg : Reg c pattern h)
    (matched : Matches (n.path ++ pattern) path pieces) (given : Given pieces) :
    (n.pass path).Complete h := by
  have kind := here.kid_kind mem
  have plain := (here.leads _ mem).plain (kidsWf _ mem) kind
  obtain ⟨pattern, rfl⟩ := head?_eq_some_iff.mp (reg_head (kidsWf _ mem) kind (here.leads _ mem) reg)
  have noStar : (b :: pattern).head? ≠ some star := by
    rintro isStar
    obtain rfl : b = star := by simpa using isStar
    cases plain
  obtain ⟨rest, rfl, below⟩ := matched.text_inv here.plain noStar
  obtain ⟨rest, rfl⟩ := head?_eq_some_iff.mp (below.head plain)
  have reaches : Reaches h c (b :: rest) := .node (kidsWf _ mem) kind ⟨_, reg, below⟩ given
  cases found : n.indices.findIdx? (· == b) with
  | none => exact absurd rfl (absent_kid here.shape found _ mem)
  | some i =>
    obtain ⟨child, indexed, passed⟩ := pass_kid here found
    obtain rfl : child = c := here.kid_unique indexed mem
    rw [passed]
    split
    · exact Or.inl reaches
    · exact reaches

/-- A pattern that goes through the parameter child. -/
theorem wild_complete (here : TextNode n kids (some w)) (wf : Wf w) (reg : Reg w pattern h)
    (matched : Matches (n.path ++ pattern) path pieces) (given : Given pieces) :
    (n.pass path).Complete h := by
  have kind := here.named w rfl
  have noStar : pattern.head? ≠ some star := by
    rw [(wf.paramNode kind).1.head reg]
    decide
  obtain ⟨rest, rfl, below⟩ := matched.text_inv here.plain noStar
  obtain ⟨nonempty, complete⟩ := capture_complete wf kind reg below given
  cases rest with
  | nil => exact absurd rfl nonempty
  | cons c rest =>
    cases found : n.indices.findIdx? (· == c) with
    | none =>
      rwa [pass_wild found here.wildChild here.getLast]
    | some i =>
      obtain ⟨child, _, passed⟩ := pass_kid here found
      have wildChild : n.wildChild = true := here.wildChild
      rw [passed, if_pos wildChild]
      exact Or.inr (.copy here wf reg below given)

theorem holder_complete {leaf : Node H}
    (here : Holder n leaf) (found : Finds n path h pieces) : (n.pass path).Complete h := by
  obtain ⟨pattern, reg, matched⟩ := found
  obtain ⟨rest, rfl⟩ := head?_eq_some_iff.mp (here.head reg)
  obtain ⟨path, rfl⟩ := head?_eq_some_iff.mp (matched.head (by decide))
  rw [pass_holder here]
  exact Option.isSome_iff_ne_none.mpr here.leafSet

theorem text_complete (here : TextNode n kids wild)
    (kidsWf : ∀ e ∈ kids, Wf e.2) (wildWf : ∀ w ∈ wild, Wf w) (found : Finds n path h pieces)
    (given : Given pieces) : (n.pass path).Complete h := by
  obtain ⟨pattern, reg, matched⟩ := found
  rcases reg_iff.mp reg with ⟨set, rfl⟩ | ⟨c, mem, rest, rfl, below⟩
  · rw [← append_nil n.path] at matched
    obtain ⟨rest, rfl, ⟨⟩⟩ := matched.text_inv here.plain (by simp)
    rw [append_nil, pass_here, set]
    rfl
  · rw [here.shape] at mem
    rcases mem_append.mp mem with indexed | last
    · obtain ⟨⟨b, c⟩, inside, rfl⟩ := mem_map.mp indexed
      exact kid_complete here kidsWf inside below matched given
    · obtain rfl : wild = some c := by simpa using last
      exact wild_complete here (wildWf c rfl) below matched given

theorem pass_complete (reaches : Reaches h n path) : (n.pass path).Complete h := by
  cases reaches with
  | @copy n w _ rest _ _ here wf reg matched given =>
    obtain ⟨nonempty, complete⟩ := capture_complete wf (here.named w rfl) reg matched given
    cases rest with
    | nil => exact absurd rfl nonempty
    | cons c rest =>
      rwa [pass_copy here]
  | node wf kind found given =>
    cases wf with
    | param here _ => exact absurd here.kind kind
    | holder here => exact holder_complete here found
    | text here kidsWf wildWf => exact text_complete here kidsWf wildWf found given

/-- The search does not come out empty where a pattern matches. -/
theorem search_not_barren {params : Option UInt16} {unescape : Bool} (place : Place H)
    (reaches : Reaches h place.node place.path) :
    ¬ ((lookup params unescape).search place).Barren := by
  refine (lookup params unescape).not_barren_rule (fun place => Reaches h place.node place.path)
    (fun place reaches => ?_) place reaches
  have complete := pass_complete reaches
  simp only [lookup, Place.visit]
  generalize place.node.pass place.path = exit at complete ⊢
  cases exit with
  | go turn =>
    cases turn with
    | walk node rest => exact complete
    | ret handler fullPath tsr => trivial
  | branch whole skipped child rest | rollBack path tsr =>
    exact complete
  | save skip wildcard piece turn =>
    dsimp only
    split
    · cases turn with
      | walk node rest => exact complete
      | ret handler fullPath tsr => trivial
    · trivial
  | panic reason => trivial

/-- Rolling back never passes over a skipped node: a dead end lies further down the path. -/
theorem search_nested (params : Option UInt16) (unescape : Bool) (place : Place H) :
    ((lookup params unescape).search place).Nested place.path.length := by
  refine (lookup params unescape).nested_rule (fun place => place.path.length) (fun place => ?_)
    place
  have below := place.node.pass_below place.path
  simp only [lookup, Place.visit]
  generalize place.node.pass place.path = exit at below ⊢
  cases exit with
  | go turn =>
    cases turn with
    | walk node rest => exact below.2.length_le
    | ret handler fullPath tsr => trivial
  | branch whole skipped child rest =>
    obtain ⟨rfl, _, _, suffix⟩ := below
    exact ⟨Nat.le_refl _, suffix.length_le, Nat.le_refl _⟩
  | rollBack path tsr =>
    exact below.length_le
  | save skip wildcard piece turn =>
    dsimp only
    split
    · cases turn with
      | walk node rest => exact below.2.length_le
      | ret handler fullPath tsr => trivial
    · trivial
  | panic reason => trivial

/-- Where the search first stops, if it stops, it has found a handler. -/
def FirstStopFinds (s : Search (Answer H)) : Prop :=
  ∀ answer ∈ s.answers.head?, answer.handler.isSome

instance (s : Search (Answer H)) : Decidable (FirstStopFinds s) :=
  inferInstanceAs (Decidable (∀ answer ∈ s.answers.head?, _))

theorem search_deadEnds (params : Option UInt16) (unescape : Bool) (place : Place H) :
    ((lookup params unescape).search place).DeadEnds fun answer => answer.handler = none := by
  have taken : ∀ (place : Place H) turn level answer, place.take turn ≠ .fail level answer := by
    rintro place (_ | _) level answer
    · nofun
    · nofun
  refine (lookup params unescape).deadEnds_rule _ (fun place level answer moved => ?_) place
  simp only [lookup, Place.visit] at moved
  split at moved
  · exact absurd moved (taken _ _ _ _)
  · cases moved
  · cases moved
    rfl
  · split at moved
    · exact absurd moved (taken _ _ _ _)
    · cases moved
  · cases moved

/-- A registered pattern that matches is reached from the root. -/
theorem Holds.reaches {root : Node H} {routes : List (Route H)} {route : Route H}
    (holds : Holds root routes)
    (registered : route ∈ routes) (matched : Matches route.path path pieces)
    (given : Given pieces) : Reaches route.handlers root path := by
  have reg := (holds.reg route.path route.handlers).mpr ⟨route, registered, rfl, rfl⟩
  cases holds.start with
  | fresh new =>
    rw [reg_iff, new.unset, new.children] at reg
    simp at reg
  | grown wf kind _ => exact .node wf (by simp [kind]) ⟨route.path, reg, matched⟩ given

theorem matches_firstParam (nonempty : name ≠ []) (segment : Segment rest)
    (checked : (name.all (fun c => c ≠ slash && !isWild c) &&
      piece.all (· ≠ slash) && rest.all (fun c => !isWild c)) = true) :
    Matches (slash :: (colon :: name ++ rest)) (slash :: (piece ++ rest)) [⟨name, piece⟩] := by
  simp only [Bool.and_eq_true, all_eq_true, decide_eq_true_eq, Bool.not_eq_true'] at checked
  obtain ⟨⟨named, inside⟩, plain⟩ := checked
  exact .byte rfl (.param ⟨nonempty, fun c mem => (named c mem).1,
    fun c mem => (named c mem).2⟩ segment inside (.refl plain))

end FastGoZero.HttpRouter
