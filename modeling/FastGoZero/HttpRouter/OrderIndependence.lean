import FastGoZero.HttpRouter.MethodNotAllowed
import FastGoZero.HttpRouter.SamePatterns
import FastGoZero.Lib.SearchLikeness

/-!
# The order of registration

The order in which routes are registered decides how paths are split and, through the priorities,
in which order children stand. A lookup depends on neither: in two compressed trees with the same
patterns the searches go the same way.
-/

namespace FastGoZero.HttpRouter

open Lib Lib.Backtracking List Option

universe u

variable {H : Type u} {path : Str} {kids : List (UInt8 × Node H)} {wild : Option (Node H)}

/-- The two lookups stand at nodes of the same patterns. A `copy` is what a skipped node is on
the stack; the path before a catch-all starts with its '/'. -/
inductive Alike : Node H → Node H → Str → Prop
  | text {n m : Node H} {kids kids' : List (UInt8 × Node H)} {wild wild' : Option (Node H)}
      (same : Same n m) (here : Text n kids wild) (here' : Text m kids' wild')
      (path : Str) : Alike n m path
  | copy {n m w w' : Node H} {kids kids' : List (UInt8 × Node H)} (same : Same n m)
      (here : Text n kids (some w)) (here' : Text m kids' (some w')) (path : Str) :
    Alike { n with indices := [] } { m with indices := [] } path
  | holder {n m leaf leaf' : Node H} (same : Same n m) (held : Holder n leaf)
      (held' : Holder m leaf') (rest : Str) : Alike n m (slash :: rest)
  | bareLeft {n m leaf : Node H} {kids : List (UInt8 × Node H)} {wild : Option (Node H)}
      (same : Same n m) (here : Text n kids wild) (held : Holder m leaf) (rest : Str) :
    Alike n m (slash :: rest)
  | bareRight {n m leaf : Node H} {kids : List (UInt8 × Node H)} {wild : Option (Node H)}
      (same : Same n m) (held : Holder n leaf) (here : Text m kids wild) (rest : Str) :
    Alike n m (slash :: rest)

theorem Same.alike {n m : Node H} (same : Same n m) (kind : n.nType ≠ .param)
    (kind' : m.nType ≠ .param)
    (behind : n.nType = .catchAll ∨ m.nType = .catchAll → path.head? = some slash) :
    Alike n m path := by
  cases same.wf with
  | param here _ => exact absurd here.kind kind
  | text here kidsWf wildWf =>
    cases same.wf' with
    | param here' _ => exact absurd here'.kind kind'
    | text here' kidsWf' wildWf' =>
      exact .text same ⟨here, kidsWf, wildWf⟩ ⟨here', kidsWf', wildWf'⟩ path
    | holder held =>
      obtain ⟨rest, rfl⟩ := head?_eq_some_iff.mp (behind (Or.inr held.kind))
      exact .bareLeft same ⟨here, kidsWf, wildWf⟩ held rest
  | holder held =>
    obtain ⟨rest, rfl⟩ := head?_eq_some_iff.mp (behind (Or.inl held.kind))
    cases same.wf' with
    | param here' _ => exact absurd here'.kind kind'
    | text here' kidsWf' wildWf' => exact .bareRight same held ⟨here', kidsWf', wildWf'⟩ rest
    | holder held' => exact .holder same held held' rest

inductive Turn.Like : Turn H → Turn H → Prop
  | walk {n m : Node H} {path : Str} (alike : Alike n m path) :
    Turn.Like (.walk n path) (.walk m path)
  | ret (handler : Option H) (fullPath fullPath' : Str) (tsr tsr' : Bool) :
    Turn.Like (.ret handler fullPath tsr) (.ret handler fullPath' tsr')

inductive Exit.Like : Exit H → Exit H → Prop
  | go {turn turn' : Turn H} (like : turn.Like turn') : Exit.Like (.go turn) (.go turn')
  | branch {skipped skipped' child child' : Node H} {whole rest : Str}
      (later : Alike skipped skipped' whole) (first : Alike child child' rest) :
    Exit.Like (.branch whole skipped child rest) (.branch whole skipped' child' rest)
  | rollBack (path : Str) (tsr tsr' : Bool) :
    Exit.Like (.rollBack path tsr) (.rollBack path tsr')
  | save (skip : Nat) (wildcard piece : Str) {turn turn' : Turn H} (like : turn.Like turn') :
    Exit.Like (.save skip wildcard piece turn) (.save skip wildcard piece turn')

theorem capture_like {w w' : Node H} (same : Same w w') (kind : w.nType = .param)
    (kind' : w'.nType = .param) (path : Str) : (w.capture path).Like (w'.capture path) := by
  obtain ⟨here, wfBelow⟩ := same.wf.paramNode kind
  obtain ⟨here', wfBelow'⟩ := same.wf'.paramNode kind'
  have child := fun c => same.param_child here wfBelow here' wfBelow' (c := c)
  have child' := fun c => same.symm.param_child here' wfBelow' here wfBelow (c := c)
  simp only [Node.capture, kind, kind', same.param_path here wfBelow here' wfBelow',
    same.param_handlers here wfBelow here' wfBelow']
  apply Exit.Like.save
  split_ifs with before
  · rcases here.single with ⟨none, -⟩ | ⟨c, only⟩
    · rcases here'.single with ⟨none', -⟩ | ⟨c', only'⟩
      · rw [none, none']
        exact .ret _ _ _ _ _
      · obtain ⟨c, only, -⟩ := child' c' only'
        rw [none] at only
        cases only
    · obtain ⟨c', only', below⟩ := child c only
      rw [only, only']
      have static : c.nType = .static := here.kinds c (by simp [only])
      have static' : c'.nType = .static := here'.kinds c' (by simp [only'])
      exact .walk (below.alike (by simp [static]) (by simp [static']) (by simp [static, static']))
  · split
    · exact .ret _ _ _ _ _
    · split <;> split <;> exact .ret _ _ _ _ _

/-- Where the path ends at the node, or leaves it, only the node's own path and handlers count. -/
theorem ends_like {n m : Node H} (paths : n.path = m.path) (handlers : n.handlers = m.handlers)
    (ends : ∀ c rest, path ≠ n.path ++ c :: rest) : (n.pass path).Like (m.pass path) := by
  by_cases inside : n.path <+: path
  · obtain ⟨rest, rfl⟩ := inside
    cases rest with
    | cons c rest => exact absurd rfl (ends c rest)
    | nil =>
      rw [append_nil, pass_here, paths, pass_here, handlers]
      split
      · exact .go (.ret _ _ _ _ _)
      · split
        · exact .rollBack _ _ _
        · split <;> split <;> exact .go (.ret _ _ _ _ _)
  · rw [pass_off inside, pass_off (paths ▸ inside), paths, handlers]
    split
    · exact .go (.ret _ _ _ _ _)
    · exact .rollBack _ _ _

section

variable {n m : Node H} {kids kids' : List (UInt8 × Node H)} {wild wild' : Option (Node H)}
  (same : Same n m) (here : Text n kids wild) (here' : Text m kids' wild') {rest : Str}

include same here here'

theorem Same.wild_cases :
    (wild = none ∧ wild' = none) ∨ ∃ w w', wild = some w ∧ wild' = some w' ∧ Same w w' := by
  cases isWild : wild with
  | none =>
    refine Or.inl ⟨rfl, ?_⟩
    by_contra some
    obtain ⟨w', isWild'⟩ := ne_none_iff_exists'.mp some
    obtain ⟨w, present, -⟩ := same.symm.same_wild here' here isWild'
    rw [isWild] at present
    cases present
  | some w =>
    obtain ⟨w', isWild', below⟩ := same.same_wild here here' isWild
    exact Or.inr ⟨w, w', rfl, isWild', below⟩

theorem Same.missing (c : UInt8) (missing : n.indices.findIdx? (· == c) = none) :
    m.indices.findIdx? (· == c) = none := by
  by_contra found
  obtain ⟨i, found⟩ := ne_none_iff_exists'.mp found
  obtain ⟨front, child, back, whole, -⟩ := exists_kid here'.here.shape found
  have mem : (c, child) ∈ kids' := by simp [whole]
  obtain ⟨child', member', -⟩ := same.symm.same_kid here' here mem
  exact absent_kid here.here.shape missing _ member' rfl

theorem kid_like {c : UInt8} {i : Nat} (found : n.indices.findIdx? (· == c) = some i) :
    (n.pass (n.path ++ c :: rest)).Like (m.pass (n.path ++ c :: rest)) := by
  have paths := same.path_eq here here'
  have found' : ∃ j, m.indices.findIdx? (· == c) = some j := by
    refine ne_none_iff_exists'.mp fun missing => ?_
    rw [same.symm.missing here' here c missing] at found
    cases found
  obtain ⟨j, found'⟩ := found'
  obtain ⟨child, mem, passed⟩ := @pass_kid H n c rest kids wild i here.here found
  obtain ⟨child', member', passed'⟩ := @pass_kid H m c rest kids' wild' j here'.here found'
  obtain ⟨other, inside, below⟩ := same.same_kid here here' mem
  obtain rfl := here'.here.kid_unique member' inside
  have alike : Alike child child' (c :: rest) := by
    refine below.alike (here.here.kid_kind mem) (here'.here.kid_kind member') ?_
    rintro (catchAll | catchAll)
    · rw [here.here.catchAll_slash mem catchAll]
      rfl
    · rw [here'.here.catchAll_slash member' catchAll]
      rfl
  have whole : m.path ++ c :: rest = n.path ++ c :: rest := by rw [paths]
  rw [whole] at passed'
  rw [passed, passed']
  rcases same.wild_cases here here' with ⟨rfl, rfl⟩ | ⟨w, w', rfl, rfl, -⟩
  · rw [if_neg (by simp [here.here.wildChild]), if_neg (by simp [here'.here.wildChild])]
    exact .go (.walk alike)
  · have isWild : n.wildChild = true := here.here.wildChild
    have isWild' : m.wildChild = true := here'.here.wildChild
    rw [if_pos isWild, if_pos isWild']
    exact .branch (.copy same here here' _) alike

theorem wild_like {c : UInt8} (missing : n.indices.findIdx? (· == c) = none) :
    (n.pass (n.path ++ c :: rest)).Like (m.pass (n.path ++ c :: rest)) := by
  have paths := same.path_eq here here'
  have missing' := same.missing here here' c missing
  rcases same.wild_cases here here' with ⟨rfl, rfl⟩ | ⟨w, w', rfl, rfl, below⟩
  · rw [pass_inside, paths, pass_inside, missing, missing', here.here.wildChild,
      here'.here.wildChild, same.handlers_eq here here']
    simp only [isSome_none, Bool.not_false, ↓reduceIte]
    split
    · exact .rollBack _ _ _
    · exact .go (.ret _ _ _ _ _)
  · rw [pass_wild missing here.here.wildChild here.here.getLast, paths,
      pass_wild missing' here'.here.wildChild here'.here.getLast]
    exact capture_like below (here.here.named w rfl) (here'.here.named w' rfl) _

theorem text_like (path : Str) : (n.pass path).Like (m.pass path) := by
  by_cases inside : ∃ c rest, path = n.path ++ c :: rest
  · obtain ⟨c, rest, rfl⟩ := inside
    cases found : n.indices.findIdx? (· == c) with
    | some i => exact kid_like same here here' found
    | none => exact wild_like same here here' found
  · exact ends_like (same.path_eq here here') (same.handlers_eq here here')
      fun c rest whole => inside ⟨c, rest, whole⟩

end

theorem copy_like {n m w w' : Node H} {kids' : List (UInt8 × Node H)} (same : Same n m)
    (here : Text n kids (some w)) (here' : Text m kids' (some w')) (path : Str) :
    (Node.pass { n with indices := [] } path).Like (Node.pass { m with indices := [] } path) := by
  have paths := same.path_eq here here'
  by_cases inside : ∃ c rest, path = n.path ++ c :: rest
  · obtain ⟨c, rest, rfl⟩ := inside
    obtain ⟨other, ⟨⟩, below⟩ := same.same_wild here here' rfl
    rw [pass_copy here.here, paths, pass_copy here'.here]
    exact capture_like below (here.here.named w rfl) (here'.here.named w' rfl) _
  · have handlers := same.handlers_eq here here'
    exact ends_like paths handlers fun c rest whole => inside ⟨c, rest, whole⟩

theorem holder_like {n m leaf leaf' : Node H} (same : Same n m) (held : Holder n leaf)
    (held' : Holder m leaf') (rest : Str) :
    (n.pass (slash :: rest)).Like (m.pass (slash :: rest)) := by
  obtain ⟨path, handlers⟩ := same.leaf held held'
  rw [pass_holder held, pass_holder held', path, handlers]
  exact .save _ _ _ (.ret _ _ _ _ _)

/-- The answers of the two lookups; where they recommend a redirect does not count. -/
def SameAnswer (answer other : Answer H) : Prop :=
  answer.handler = other.handler ∧ answer.params = other.params

structure Follows (p q : Place H) : Prop where
  alike : Alike p.node q.node p.path
  path : p.path = q.path
  params : p.params = q.params

variable {caps : Option UInt16} {unescape : Bool} {calls : List (Call H)}

theorem take_like (p q : Place H) {place place' : Place H} (params : place.params = place'.params)
    {turn turn' : Turn H} (like : turn.Like turn') :
    Move.Like Follows SameAnswer p q (place.take turn) (place'.take turn') := by
  cases like with
  | walk alike => exact .enter ⟨alike, rfl, params⟩
  | ret handler fullPath fullPath' tsr tsr' => exact .done ⟨rfl, params⟩

theorem visit_like (n m : Node H) (path : Str) (params : List Param)
    (like : (n.pass path).Like (m.pass path)) :
    Move.Like Follows SameAnswer ⟨n, path, params⟩ ⟨m, path, params⟩
      (Place.visit caps unescape ⟨n, path, params⟩)
      (Place.visit caps unescape ⟨m, path, params⟩) := by
  rw [Place.visit, Place.visit]
  generalize n.pass path = exit at like
  generalize m.pass path = exit' at like
  cases like with
  | go like => exact take_like _ _ rfl like
  | branch later first => exact .fork _ _ ⟨first, rfl, rfl⟩ ⟨later, rfl, rfl⟩
  | rollBack rest tsr tsr' => exact .fail _ ⟨rfl, rfl⟩
  | save skip wildcard piece like =>
    dsimp only
    split
    · exact take_like _ _ rfl like
    · exact .crash

/-- The empty node before a catch-all hands the path on. -/
theorem bare_visit {n m leaf : Node H} (same : Same n m) (here : Text n kids wild)
    (held : Holder m leaf) (rest : Str) (params : List Param) :
    ∃ holder, Place.visit caps unescape ⟨n, slash :: rest, params⟩ =
      .enter ⟨holder, slash :: rest, params⟩ ∧ Same holder m ∧ ∃ leaf, Holder holder leaf := by
  obtain ⟨empty, rfl, holder, rfl, below⟩ := same.bare here held
  obtain ⟨-, -, other, only, kind⟩ := here.here.bare empty
  obtain rfl : holder = other := by simpa using only
  have found : n.indices.findIdx? (· == slash) = some 0 := by
    rw [here.here.shape]
    rfl
  obtain ⟨child, mem, passed⟩ := @pass_kid H n slash rest _ _ 0 here.here found
  obtain rfl : child = holder := by simpa using mem
  rw [empty, nil_append, here.here.wildChild] at passed
  refine ⟨child, ?_, below, below.wf.holderNode kind⟩
  rw [Place.visit, passed]
  rfl

theorem follows_visit (p q : Place H) (follows : Follows p q) :
    Move.Like Follows SameAnswer p q (Place.visit caps unescape p)
      (Place.visit caps unescape q) := by
  obtain ⟨n, path, params⟩ := p
  obtain ⟨m, path', params'⟩ := q
  obtain ⟨alike, rfl, rfl⟩ := follows
  cases alike with
  | text same here here' => exact visit_like n m path params (text_like same here here' path)
  | copy same here here' => exact visit_like _ _ path params (copy_like same here here' path)
  | holder same held held' rest =>
    exact visit_like n m _ params (holder_like same held held' rest)
  | bareLeft same here held rest =>
    obtain ⟨holder, moved, below, leaf, held'⟩ := bare_visit same here held rest params
    rw [moved]
    exact .left ⟨.holder below held' held rest, rfl, rfl⟩
  | bareRight same held here rest =>
    obtain ⟨holder, moved, below, leaf, held'⟩ := bare_visit same.symm here held rest params
    rw [moved]
    exact .right ⟨.holder below.symm held held' rest, rfl, rfl⟩

/-- Lookups in trees of the same patterns go the same way. -/
theorem search_like {n m : Node H} (alike : Alike n m path) (caps : Option UInt16) (unescape : Bool)
    : (n.search path caps unescape).Like SameAnswer (m.search path caps unescape) :=
  (lookup caps unescape).like_rule Follows follows_visit ⟨n, path, []⟩ ⟨m, path, []⟩
    ⟨alike, rfl, rfl⟩

theorem Router.get_setRoot (trees : List (MethodTree H)) (method other : Str) (root : Node H) :
    Router.get (Router.setRoot trees method root) other =
      if other = method then some root else Router.get trees other := by
  unfold Router.setRoot
  split
  · rename_i present
    have unchanged : ((fun tree : MethodTree H => tree.method == other) ∘ fun tree =>
        if tree.method == method then { tree with root := root } else tree) =
          fun tree => tree.method == other := by
      funext tree
      dsimp only [Function.comp]
      split <;> rfl
    rw [Router.get, find?_map, unchanged, Option.map_map]
    split
    · rename_i same
      obtain ⟨old, found⟩ := isSome_iff_exists.mp present
      obtain ⟨tree, first, -⟩ := map_eq_some_iff.mp found
      have named := find?_some first
      rw [same, first]
      simp [eq_of_beq named]
    · rename_i differs
      apply Option.map_congr
      intro tree first
      have named := find?_some first
      simp [eq_of_beq named, differs]
  · rename_i absent
    rw [Bool.not_eq_true, isSome_eq_false_iff, isNone_iff_eq_none] at absent
    rw [Router.get, find?_append, map_or]
    split
    · rename_i same
      rw [same]
      change (Router.get trees method).or _ = _
      rw [absent]
      simp
    · rename_i differs
      simp [Ne.symm differs, Router.get]

theorem Router.trim_congr {r r' : Router H} (flag : r'.removeExtraSlash = r.removeExtraSlash) :
    r'.trim = r.trim := by
  funext path
  rw [Router.trim, Router.trim, flag]

/-- The trees of a router hold exactly the routes of the calls, by their methods. -/
structure Holding (r : Router H) (calls : List (Call H)) : Prop where
  grown : ∀ method root, Router.get r.trees method = some root →
    Wf root ∧ root.nType = .root ∧ Leads slash root ∧ Tight root
  reg : ∀ method q g, (∃ root, Router.get r.trees method = some root ∧ Reg root q g) ↔
    ∃ call ∈ calls, call.method = method ∧ r.trim call.path = q ∧ call.handler = g

section

variable {r : Router H} {calls : List (Call H)} (holding : Holding r calls) (method : Str)

include holding

theorem Holding.root : Root ((Router.get r.trees method).getD newRoot) := by
  cases found : Router.get r.trees method with
  | none => exact root_newRoot
  | some root =>
    obtain ⟨wf, kind, leads, -⟩ := holding.grown _ _ found
    exact .grown wf kind leads

theorem Holding.tight (kind : ((Router.get r.trees method).getD newRoot).nType = .root) :
    Tight ((Router.get r.trees method).getD newRoot) := by
  cases found : Router.get r.trees method with
  | none =>
    rw [found] at kind
    cases kind
  | some root => exact (holding.grown _ _ found).2.2.2

theorem Holding.reg_root (q : Str) (g : H) :
    Reg ((Router.get r.trees method).getD newRoot) q g ↔
      ∃ call ∈ calls, call.method = method ∧ r.trim call.path = q ∧ call.handler = g := by
  rw [← holding.reg]
  cases found : Router.get r.trees method with
  | none =>
    rw [getD_none, reg_iff]
    simp [newRoot]
  | some root => simp

end

theorem Holding.handle {r r' : Router H} (holding : Holding r calls) (call : Call H)
    (registered : r.handle call.method call.path (some call.handler) = .ok r') :
    Holding r' (calls ++ [call]) := by
  obtain ⟨h, root, ⟨⟩, rooted, added, trees, flag⟩ := Router.handle_ok registered
  have trim : r'.trim = r.trim := Router.trim_congr flag
  let route : Route H := ⟨r.trim call.path, call.handler, r.head?_trim rooted⟩
  obtain ⟨grows, adds⟩ := addRoute_adds (holding.root call.method) route added
  have tight := addRoute_tight (holding.root call.method) (holding.tight call.method) route added
  constructor
  · intro method found present
    rw [trees, Router.get_setRoot] at present
    split at present
    · cases present
      cases grows with
      | fresh new =>
        rcases tight.crowded.content with set | some
        · rw [new.unset] at set
          cases set
        · exact absurd new.children some
      | grown wf kind leads => exact ⟨wf, kind, leads, tight⟩
    · exact holding.grown _ _ present
  · intro method q g
    simp only [trees, Router.get_setRoot, trim, mem_append, mem_singleton, or_and_right,
      exists_or, exists_eq_left]
    by_cases same : method = call.method
    · subst same
      simp only [if_true, some.injEq, exists_eq_left']
      rw [adds q g, holding.reg_root]
      simp [route, eq_comm]
    · rw [if_neg same, holding.reg]
      simp [Ne.symm same]

theorem Holding.register {start r : Router H} (empty : start.trees = [])
    (registered : start.register calls = .ok r) : Holding r calls ∧ r.trim = start.trim := by
  refine Router.register_induction
    (motive := fun r calls => Holding r calls ∧ r.trim = start.trim) ?_ ?_ registered
  · rintro r next done call ⟨holding, trim⟩ handled
    obtain ⟨h, root, -, -, -, -, flag⟩ := Router.handle_ok handled
    exact ⟨holding.handle call handled, (Router.trim_congr flag).trans trim⟩
  · exact ⟨⟨by simp [empty, Router.get], by simp [empty, Router.get]⟩, rfl⟩

/-- Two routers have the same patterns for each method. -/
theorem Holding.same {r r' : Router H} {calls' : List (Call H)} (holding : Holding r calls)
    (holding' : Holding r' calls') (trim : r.trim = r'.trim) (perm : calls.Perm calls')
    (method : Str) : (Router.get r.trees method = none ∧ Router.get r'.trees method = none) ∨
    ∃ root root', Router.get r.trees method = some root ∧ Router.get r'.trees method = some root' ∧
      ∀ path, Alike root root' path := by
  have reg : ∀ q g, (∃ root, Router.get r.trees method = some root ∧ Reg root q g) ↔
      ∃ root, Router.get r'.trees method = some root ∧ Reg root q g := by
    intro q g
    rw [holding.reg, holding'.reg, trim]
    simp only [perm.mem_iff]
  cases found : Router.get r.trees method with
  | none =>
    refine Or.inl ⟨rfl, ?_⟩
    by_contra present
    obtain ⟨root', found'⟩ := ne_none_iff_exists'.mp present
    obtain ⟨q, g, below⟩ := exists_reg (holding'.grown _ _ found').2.2.2
    obtain ⟨root, isSome, -⟩ := (reg q g).mpr ⟨root', found', below⟩
    rw [found] at isSome
    cases isSome
  | some root =>
    obtain ⟨wf, kind, -, tight⟩ := holding.grown _ _ found
    obtain ⟨q, g, below⟩ := exists_reg tight
    obtain ⟨root', found', -⟩ := (reg q g).mp ⟨root, found, below⟩
    obtain ⟨wf', kind', -, tight'⟩ := holding'.grown _ _ found'
    refine Or.inr ⟨root, root', rfl, found', fun path => ?_⟩
    have same : Same root root' := by
      refine ⟨wf, wf', tight, tight', fun q g => ?_⟩
      have both := reg q g
      simpa only [found, found', some.injEq, exists_eq_left'] using both
    exact same.alike (by simp [kind]) (by simp [kind']) (by simp [kind, kind'])

theorem returns_iff (root : Node H) (path : Str) (params : Option UInt16) (unescape : Bool)
    (room : Nat) :
    (∃ found, root.getValue path params [] room unescape = .ok found) ↔
      (root.search path params unescape).FitsOn room [] := by
  constructor
  · rintro ⟨found, returned⟩
    exact (getValue_ok root .nil trivial returned).1
  · intro fits
    obtain ⟨value, left, -, -, returned, -⟩ := getValue_returns root .nil trivial fits
    exact ⟨(value, left), returned⟩

/-- Whatever order the routes are registered in, a lookup finds the same handler and the same
parameters, where a nil slice has none. If there is room for every skipped node, one lookup returns
exactly if the other does. -/
theorem getValue_order_independent {start r r' : Router H} {calls calls' : List (Call H)}
    (empty : start.trees = []) (perm : calls.Perm calls')
    (registered : start.register calls = .ok r) (registered' : start.register calls' = .ok r')
    (method path : Str) (params : Option UInt16) (unescape : Bool) :
    (Router.get r.trees method = none ∧ Router.get r'.trees method = none) ∨
    ∃ root root', Router.get r.trees method = some root ∧ Router.get r'.trees method = some root' ∧
      (∀ room room', root.size ≤ room → root'.size ≤ room' →
        ((∃ found, root.getValue path params [] room unescape = .ok found) ↔
          ∃ found, root'.getValue path params [] room' unescape = .ok found)) ∧
      ∀ room room' value value' left left',
        root.getValue path params [] room unescape = .ok (value, left) →
        root'.getValue path params [] room' unescape = .ok (value', left') →
          value.handler = value'.handler ∧ value.params.getD [] = value'.params.getD [] := by
  obtain ⟨holding, trim⟩ := Holding.register empty registered
  obtain ⟨holding', trim'⟩ := Holding.register empty registered'
  refine (holding.same holding' (trim.trans trim'.symm) perm method).imp_right ?_
  rintro ⟨root, root', found, found', alike⟩
  have like := search_like (alike path) params unescape
  refine ⟨root, root', found, found', ?_, ?_⟩
  · intro room room' large large'
    rw [returns_iff, returns_iff, search_fits_iff _ _ _ _ large, search_fits_iff _ _ _ _ large']
    exact like.safe_iff
  · intro room room' value value' left left' returned returned'
    obtain ⟨-, answer, _, returns, -, ran⟩ := getValue_ok root .nil trivial returned
    obtain ⟨-, answer', _, returns', -, ran'⟩ := getValue_ok root' .nil trivial returned'
    obtain ⟨handler, saved⟩ : SameAnswer answer answer' := like.run ran ran'
    rw [returns.handler, returns'.handler, returns.params, returns'.params]
    exact ⟨handler, saved⟩

/-- In the two trees the children stand in different orders. -/
theorem getValue_order_independent_reversed :
    ∃ r r' root root', Router.register {} [(⟨say "GET", say "/a", 0⟩ : Call Nat),
        ⟨say "GET", say "/b", 1⟩, ⟨say "GET", say "/:x", 2⟩] = .ok r ∧
      Router.register {} [(⟨say "GET", say "/:x", 2⟩ : Call Nat), ⟨say "GET", say "/b", 1⟩,
        ⟨say "GET", say "/a", 0⟩] = .ok r' ∧
      Router.get r.trees (say "GET") = some root ∧ Router.get r'.trees (say "GET") = some root' ∧
      root.indices = say "ab" ∧ root'.indices = say "ba" ∧
      ∃ value value' left left',
        root.getValue (say "/c") (some 1) [] 9 false = .ok (value, left) ∧
        root'.getValue (say "/c") (some 1) [] 9 false = .ok (value', left') ∧
        value.handler = some 2 ∧ value.handler = value'.handler ∧
          value.params.getD [] = value'.params.getD [] := by
  have checked : (Router.register {} [(⟨say "GET", say "/a", 0⟩ : Call Nat),
      ⟨say "GET", say "/b", 1⟩, ⟨say "GET", say "/:x", 2⟩]).toOption.any (fun r =>
        (Router.get r.trees (say "GET")).any fun root => root.indices == say "ab" &&
          (root.getValue (say "/c") (some 1) [] 9 false).toOption.any
            fun found => found.1.handler == some 2) = true := by
    decide +kernel
  have checked' : (Router.register {} [(⟨say "GET", say "/:x", 2⟩ : Call Nat),
      ⟨say "GET", say "/b", 1⟩, ⟨say "GET", say "/a", 0⟩]).toOption.any (fun r =>
        (Router.get r.trees (say "GET")).any fun root => root.indices == say "ba" &&
          (root.getValue (say "/c") (some 1) [] 9 false).toOption.any
            fun found => found.1.handler == some 2) = true := by
    decide +kernel
  obtain ⟨r, registered, facts⟩ := exists_ok_of_any checked
  obtain ⟨r', registered', facts'⟩ := exists_ok_of_any checked'
  obtain ⟨root, own, indexed⟩ := (any_eq_true _ _).mp facts
  obtain ⟨root', own', indexed'⟩ := (any_eq_true _ _).mp facts'
  rw [Bool.and_eq_true, beq_iff_eq] at indexed indexed'
  obtain ⟨⟨value, left⟩, returned, handler⟩ := exists_ok_of_any indexed.2
  obtain ⟨⟨value', left'⟩, returned', -⟩ := exists_ok_of_any indexed'.2
  rcases getValue_order_independent rfl (reverse_perm _).symm registered registered'
    (say "GET") (say "/c") (some 1) false with ⟨none, -⟩ | ⟨_, _, found, found', -, agree⟩
  · rw [own] at none
    cases none
  · cases own.symm.trans found
    cases own'.symm.trans found'
    exact ⟨r, r', root, root', registered, registered', own, own', indexed.1, indexed'.1, value,
      value', left, left', returned, returned', by simpa using handler,
      agree _ _ _ _ _ _ returned returned'⟩

end FastGoZero.HttpRouter
