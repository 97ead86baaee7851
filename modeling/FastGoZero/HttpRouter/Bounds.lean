import FastGoZero.HttpRouter.Soundness

/-!
# Parameters stay within bounds

A lookup in a tree that was built panics only for lack of room: there is no node that the
walk cannot take, and a path of at most 32767 bytes gives no more parameters than an
`int16` counts.
-/

namespace FastGoZero.HttpRouter

open Lib Lib.Backtracking List

universe u

variable {H : Type u}

/-- Saving a parameter takes something off the path. -/
def Exit.Shortens (path : Str) : Exit H → Prop
  | .save _ _ _ (.walk _ rest) => rest.length < path.length
  | .save _ _ _ (.ret _ _ _) => path ≠ []
  | _ => True

variable {path : Str} {n root : Node H} {params : Option UInt16} {kids : List (UInt8 × Node H)}
  {room : Nat}

theorem capture_shortens {text rest : Str} (w : Node H) (nonempty : text ≠ []) :
    (w.capture rest).Shortens (text ++ rest) := by
  have positive := length_pos_iff.mpr nonempty
  have whole : text ++ rest ≠ [] := by simp [nonempty]
  fun_cases Node.capture w rest with
  | case1 kind stop =>
    split
    · split
      · simp only [Exit.Shortens, length_drop, length_append]
        omega
      · exact whole
    · split
      · exact whole
      · split <;> exact whole
  | case2 => exact whole
  | case3 => trivial

theorem TextNode.nonempty {w : Node H} (here : TextNode n kids (some w)) : n.path ≠ [] := by
  intro empty
  cases (here.bare empty).2.1

-- Only the wildcard child saves a parameter, and a node that has one has text, or is a holder.
theorem pass_shortens (walkable : Walkable n path) : (n.pass path).Shortens path := by
  fun_cases Node.pass n path with
  | case7 inside rest unlisted isWild w last =>
    have taken : n.path ++ rest = path := by
      obtain ⟨tail, rfl⟩ := isPrefixOf_iff_prefix.mp inside.2
      simp [rest]
    cases walkable with
    | empty new => exact absurd new.wildChild (by simpa using isWild)
    | copy here wf =>
      rw [← taken]
      exact capture_shortens w here.nonempty
    | node wf kind behind =>
      cases wf with
      | @text _ _ wild here _ _ =>
        cases wild with
        | none => exact absurd here.wildChild (by simpa using isWild)
        | some other =>
          rw [← taken]
          exact capture_shortens w here.nonempty
      | param here _ => exact absurd here.kind kind
      | @holder _ leaf here =>
        obtain rfl : leaf = w := by simpa [here.children] using last
        rw [Node.capture, here.leafKind]
        exact length_pos_iff.mp (Nat.zero_lt_of_lt inside.1)
  | _ => trivial

/-- The parameters so far, with one for every byte that is left, are not too many. -/
def Within (params : Option UInt16) (place : Place H) : Prop :=
  Walkable place.node place.path ∧
    (params.isSome → place.params.length + place.path.length ≤ 32767)

-- A wildcard that saves a parameter takes at least one byte, with the text before it.
theorem visit_secure {unescape : Bool} (place : Place H) (within : Within params place) :
    (place.visit params unescape).Secure (Within params) := by
  obtain ⟨walkable, bounded⟩ := within
  have sound := pass_sound walkable
  have below := place.node.pass_below place.path
  have shortens := pass_shortens walkable
  unfold Place.visit
  generalize place.node.pass place.path = exit at sound below shortens ⊢
  cases exit with
  | go turn =>
    cases turn with
    | walk m rest =>
      have shorter := below.2.length_le
      exact ⟨sound.1, fun tracked => (Nat.add_le_add_left shorter _).trans (bounded tracked)⟩
    | ret handler fullPath tsr => trivial
  | branch whole skipped child rest =>
    obtain ⟨rfl, down, aside⟩ := sound
    have shorter := below.2.2.2.length_le
    refine ⟨?_, ⟨down.1, fun tracked => ?_⟩, aside.1, bounded⟩
    · cases params with
      | none => rfl
      | some cap =>
        have few := bounded rfl
        have counted : place.params.length ≤ 32767 := by omega
        exact decide_eq_true counted
    · exact (Nat.add_le_add_left shorter _).trans (bounded tracked)
  | rollBack path tsr => trivial
  | save skip wildcard piece turn =>
    have nonempty : 0 < place.path.length := by
      cases turn with
      | walk m rest => exact Nat.zero_lt_of_lt shortens
      | ret handler fullPath tsr => exact length_pos_iff.mpr shortens
    have fits : CanSave params place.params.length := by
      rintro cap rfl
      have few := bounded rfl
      omega
    dsimp only
    rw [if_pos ⟨fits, fun _ => sound.1⟩]
    cases turn with
    | walk m rest =>
      have shorter : rest.length < place.path.length := shortens
      refine ⟨sound.2.1, fun tracked => ?_⟩
      have few := bounded tracked
      simp only [savedParams, tracked, ↓reduceIte, length_append, length_singleton]
      omega
    | ret handler fullPath tsr => trivial
  | panic reason =>
    exact sound.elim

theorem Node.size_pos (n : Node H) : 0 < n.size := by
  cases n
  rw [Node.size]
  omega

/-- The nodes of the tree are room enough for those that a lookup skips. -/
theorem search_fits_iff (root : Node H) (path : Str) (params : Option UInt16) (unescape : Bool)
    (large : root.size ≤ room) : (root.search path params unescape).FitsOn room [] ↔
      (root.search path params unescape).Safe := by
  have enough : 0 + (lookup params unescape).rank ⟨root, path, []⟩ ≤ room := by
    rwa [Nat.zero_add]
  rw [Search.fitsOn_nil]
  exact (lookup params unescape).fits_iff_safe (Nat.lt_of_lt_of_le root.size_pos large) _ 0 enough

/-- With room for every node of the tree the lookup returns. -/
theorem getValue_of_room (start : Root root) (short : params.isSome → path.length ≤ 32767)
    (large : root.size ≤ room) (unescape : Bool) :
    ∃ found, root.getValue path params [] room unescape = .ok found := by
  have safe : (root.search path params unescape).Safe := by
    apply (lookup params unescape).safe_rule (Within params) visit_secure
    exact ⟨start.walkable path, by simpa using short⟩
  obtain ⟨value, left, _, _, found, _⟩ := getValue_returns root .nil trivial
    ((search_fits_iff root path params unescape large).mpr safe)
  exact ⟨(value, left), found⟩

end FastGoZero.HttpRouter
