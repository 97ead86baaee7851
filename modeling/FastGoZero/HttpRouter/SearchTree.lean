import FastGoZero.HttpRouter.Lookup
import FastGoZero.Lib.Backtracking

/-!
# The lookup as a depth-first search

`getValue` is a search with a bounded stack of alternatives: the skipped nodes are the
stack, and a rollback resumes the last of them whose path is not shorter than the path
of the dead end. The slices are gone here; what is left of them are the bounds within
which the code does not panic.
-/

namespace FastGoZero.HttpRouter

open Lib Lib.Backtracking List

universe u

variable {H : Type u} {n : Node H}

theorem Node.size_lt_of_mem {child : Node H} (mem : child ∈ n.children) : child.size < n.size := by
  have within : ∀ cs : List (Node H), child ∈ cs → child.size ≤ Node.sizes cs := by
    intro cs
    induction cs with
    | nil => nofun
    | cons first rest ih =>
      rw [Node.sizes]
      rintro (_ | ⟨_, later⟩)
      · exact Nat.le_add_right _ _
      · have smaller := ih later
        omega
  obtain ⟨path, indices, wildChild, nType, priority, children, handlers, fullPath⟩ := n
  have smaller := within children mem
  rw [Node.size]
  omega

theorem Node.size_withoutIndices (indexed : n.indices ≠ []) :
    ({ n with indices := [] } : Node H).size < n.size := by
  obtain ⟨path, indices, wildChild, nType, priority, children, handlers, fullPath⟩ := n
  have positive := length_pos_iff.mpr indexed
  simp only [Node.size, length_nil] at positive ⊢
  omega

/-- The walk goes on below the node, with what is left of the path. -/
def Turn.Below (n : Node H) (path : Str) : Turn H → Prop
  | .walk m rest => m.size < n.size ∧ rest <:+ path
  | .ret _ _ _ => True

def Exit.Below (n : Node H) (path : Str) : Exit H → Prop
  | .go turn => turn.Below n path
  | .branch whole skipped child rest =>
    whole = path ∧ skipped.size < n.size ∧ child.size < n.size ∧ rest <:+ path
  | .rollBack rest _ => rest <:+ path
  | .save _ _ _ turn => turn.Below n path
  | .panic reason => reason ≠ .outOfFuel

theorem Node.capture_below {wild : Node H} {path rest : Str} (mem : wild ∈ n.children)
    (suffix : rest <:+ path) : (wild.capture rest).Below n path := by
  have smaller := size_lt_of_mem mem
  unfold Node.capture
  split
  · dsimp only [Exit.Below]
    split
    · split
      · rename_i child others children
        have deeper : child.size < wild.size := size_lt_of_mem (by simp [children])
        exact ⟨by omega, (drop_suffix _ _).trans suffix⟩
      · trivial
    · split
      · trivial
      · split <;> trivial
  · trivial
  · nofun

theorem Node.pass_below (n : Node H) (path : Str) : (n.pass path).Below n path := by
  have suffix : path.drop n.path.length <:+ path := drop_suffix _ _
  fun_cases Node.pass n path with
  | case1 | case6 => nofun
  | case2 inside rest i found child present =>
    obtain ⟨tail, rfl⟩ := isPrefixOf_iff_prefix.mp inside.2
    have indexed : n.indices ≠ [] := by
      intro empty
      simp [empty] at found
    exact ⟨by simp [rest], size_withoutIndices indexed, size_lt_of_mem (mem_of_getElem? present),
      suffix⟩
  | case3 inside rest i found child present =>
    exact ⟨size_lt_of_mem (mem_of_getElem? present), suffix⟩
  | case4 => exact suffix
  | case7 inside rest unlisted wildChild wild last =>
    exact capture_below (mem_of_getLast? last) suffix
  | case9 | case13 => exact suffix_refl _
  | _ => trivial

/-- A position of the search: the node, what is left of the path, and the parameters. -/
structure Place (H : Type u) where
  node : Node H
  path : Str
  params : List Param

/-- What a lookup returns. -/
structure Answer (H : Type u) where
  handler : Option H
  fullPath : Str
  tsr : Bool
  params : List Param
deriving DecidableEq

def Place.take (place : Place H) : Turn H → Move (Place H) (Answer H)
  | .walk node path => .enter ⟨node, path, place.params⟩
  | .ret handler fullPath tsr => .done ⟨handler, fullPath, tsr, place.params⟩

variable (params : Option UInt16)

/-- Another parameter goes to the slice. The count of the parameters is an `int16`, so the
slice only grows up to its largest value. -/
def CanSave (count : Nat) : Prop :=
  ∀ cap ∈ params, count + 1 ≤ max cap.toNat 32767

/-- The count of the parameters to go back to is not negative. -/
def canRestore (count : Nat) : Bool :=
  params.isNone || count ≤ 32767

instance decidableCanSave : (params : Option UInt16) → (count : Nat) →
    Decidable (CanSave params count)
  | none, _ => isTrue nofun
  | some cap, count =>
    decidable_of_iff (count + 1 ≤ max cap.toNat 32767) (by simp [CanSave])

/-- The parameter a wildcard saves, if there is a slice. -/
def savedParams (unescape : Bool) (skip : Nat) (wildcard piece : Str) : List Param :=
  if params.isSome then [⟨wildcard.drop skip, paramValue unescape piece⟩] else []

def Place.visit (unescape : Bool) (place : Place H) : Move (Place H) (Answer H) :=
  match place.node.pass place.path with
  | .go turn => place.take turn
  | .branch whole skipped child rest =>
    .fork whole.length (canRestore params place.params.length) ⟨child, rest, place.params⟩
      ⟨skipped, whole, place.params⟩
  | .rollBack path tsr => .fail path.length ⟨none, [], tsr, place.params⟩
  | .save skip wildcard piece turn =>
    if CanSave params place.params.length ∧ (params.isSome → skip ≤ wildcard.length) then
      { place with
        params := place.params ++ savedParams params unescape skip wildcard piece }.take turn
    else .crash
  | .panic _ => .crash

theorem Place.take_next {path : Str} {place : Place H} {turn : Turn H}
    (below : turn.Below n path) : ∀ next ∈ (place.take turn).next, next.node.size < n.size := by
  cases turn with
  | walk node rest => exact forall_mem_singleton.mpr below.1
  | ret handler fullPath tsr => nofun

/-- The search for a path, with a slice of parameters or without. -/
def lookup (unescape : Bool) : Machine (Place H) (Answer H) where
  visit := Place.visit params unescape
  rank place := place.node.size
  descends place := by
    have below := place.node.pass_below place.path
    unfold Place.visit
    split
    · rename_i turn seen
      rw [seen] at below
      exact Place.take_next below
    · rename_i whole skipped child rest seen
      rw [seen] at below
      obtain ⟨_, copy, deeper, _⟩ := below
      exact forall_mem_cons.mpr ⟨deeper, forall_mem_singleton.mpr copy⟩
    · nofun
    · rename_i skip wildcard piece turn seen
      rw [seen] at below
      split
      · exact Place.take_next below
      · nofun
    · nofun

def Node.search (n : Node H) (path : Str) (params : Option UInt16) (unescape : Bool) :
    Search (Answer H) :=
  (lookup params unescape).search ⟨n, path, []⟩

end FastGoZero.HttpRouter
