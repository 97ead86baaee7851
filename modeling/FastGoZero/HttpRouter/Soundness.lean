import FastGoZero.HttpRouter.Matching
import FastGoZero.HttpRouter.Refinement
import FastGoZero.Lib.SearchAnswers

/-!
# Soundness of the lookup

Whatever the search answers, on whichever branch, was registered with a pattern that
matches the path, and the parameters are the pieces that the wildcards of the pattern
cover. The lookup answers what the search answers.
-/

namespace FastGoZero.HttpRouter

open Lib Lib.Backtracking

universe u

variable {H : Type u} (params : Option UInt16) (unescape : Bool)

/-- The parameters for the pieces of a path, if there is a slice for them. -/
def shown (pieces : List Param) : List Param :=
  if params.isSome then pieces.map fun p => ⟨p.key, paramValue unescape p.value⟩ else []

theorem shown_append (pieces more : List Param) : shown params unescape (pieces ++ more) =
      shown params unescape pieces ++ shown params unescape more := by
  cases params with
  | none => rfl
  | some cap => exact List.map_append

/-- The answer, if it has a handler, is found from the position. -/
def Good (place : Place H) (answer : Answer H) : Prop :=
  ∀ h ∈ answer.handler, ∃ pieces, Finds place.node place.path h pieces ∧
    answer.params = place.params ++ shown params unescape pieces

theorem take_good {place : Place H} {pieces : List Param} {turn : Turn H}
    (sound : turn.Sound place.node place.path pieces) :
    (({ place with params := place.params ++ shown params unescape pieces } : Place H).take
      turn).Sound (fun place => Walkable place.node place.path) (Good params unescape) place := by
  cases turn with
  | walk node rest =>
    refine ⟨sound.1, ?_⟩
    intro answer good h set
    obtain ⟨more, found, listed⟩ := good h set
    refine ⟨pieces ++ more, sound.2 h more found, ?_⟩
    rwa [shown_append, ← List.append_assoc]
  | ret handler fullPath tsr =>
    intro h set
    exact ⟨pieces, sound h set, rfl⟩

theorem search_good {params : Option UInt16} {unescape : Bool} (place : Place H)
    (walkable : Walkable place.node place.path) :
    ∀ answer ∈ ((lookup params unescape).search place).results,
      Good params unescape place answer := by
  refine (lookup params unescape).results_rule (fun place => Walkable place.node place.path)
    (Good params unescape) (fun place walkable => ?_) place walkable
  have sound := pass_sound walkable
  simp only [lookup, Place.visit]
  generalize place.node.pass place.path = exit at sound ⊢
  cases exit with
  | go turn =>
    have moved := take_good params unescape sound
    have nothing : shown params unescape [] = [] := by cases params <;> rfl
    rwa [nothing, List.append_nil] at moved
  | branch whole skipped child rest =>
    obtain ⟨rfl, ⟨below, finds⟩, copy, findsCopy⟩ := sound
    refine ⟨below, copy, ?_⟩
    rintro answer (good | good) h set
    · obtain ⟨pieces, found, listed⟩ := good h set
      exact ⟨pieces, finds h pieces found, listed⟩
    · obtain ⟨pieces, found, listed⟩ := good h set
      exact ⟨pieces, findsCopy h pieces found, listed⟩
  | rollBack path tsr =>
    rintro h ⟨⟩
  | save skip wildcard piece turn =>
    dsimp only
    split
    · exact take_good params unescape sound.2
    · trivial
  | panic reason => trivial

theorem exists_ok_of_any {α : Type u} {ε : Type} {x : Except ε α} {p : α → Bool}
    (checked : x.toOption.any p = true) : ∃ a, x = .ok a ∧ p a = true := by
  cases x with
  | error reason => cases checked
  | ok a => exact ⟨a, rfl, checked⟩

/-- A handler that the lookup returns was registered with a pattern that matches the path,
and the parameters are the pieces under the names of its wildcards. -/
theorem getValue_sound {routes : List (Route H)} {root : Node H} (built : build routes = .ok root)
    {path : Str} {params : Option UInt16} {room : Nat} {unescape : Bool} {value : NodeValue H}
    {left : List (SkippedNode H)} {h : H}
    (found : root.getValue path params [] room unescape = .ok (value, left))
    (handler : value.handler = some h) :
    ∃ route ∈ routes, route.handlers = h ∧ ∃ pieces, Matches route.path path pieces ∧
      value.params.getD [] = shown params unescape pieces := by
  have holds := build_holds built
  obtain ⟨_, answer, rest, returned, _, ran⟩ := getValue_ok root .nil trivial found
  have good := search_good ⟨root, path, []⟩ (holds.start.walkable path) answer
    (Search.run_results ran)
  obtain ⟨pieces, ⟨pattern, reg, matched⟩, listed⟩ := good h (returned.handler ▸ handler)
  obtain ⟨route, mem, rfl, rfl⟩ := (holds.reg pattern h).mp reg
  exact ⟨route, mem, rfl, pieces, matched, returned.params.trans listed⟩

/-- A lookup that follows the text first and then rolls back to the parameter. -/
theorem getValue_sound_rolledBack :
    let routes : List (Route Nat) := [⟨say "/abc", 0, by decide⟩, ⟨say "/:x/d", 1, by decide⟩]
    ∃ root value left, build routes = .ok root ∧
      root.getValue (say "/abe/d") (some 1) [] 1 false = .ok (value, left) ∧
      value.handler = some 1 ∧ ∃ route ∈ routes, route.handlers = 1 ∧
        ∃ pieces, Matches route.path (say "/abe/d") pieces ∧
          value.params.getD [] = shown (some 1) false pieces := by
  intro routes
  have checked : (build routes).toOption.any (fun root =>
      (root.getValue (say "/abe/d") (some 1) [] 1 false).toOption.any fun found =>
        found.1.handler == some 1) = true := by decide +kernel
  obtain ⟨root, built, looked⟩ := exists_ok_of_any checked
  obtain ⟨⟨value, left⟩, found, handler⟩ := exists_ok_of_any looked
  have handler : value.handler = some 1 := by simpa using handler
  exact ⟨root, value, left, built, found, handler, getValue_sound built found handler⟩

end FastGoZero.HttpRouter
