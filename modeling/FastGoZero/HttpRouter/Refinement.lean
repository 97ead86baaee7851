import FastGoZero.HttpRouter.SearchTree
import Mathlib.Data.List.Forall2

/-!
# The loop does what the search does

A pass of the loop is a move of the search. The slice of parameters holds the parameters
of the position, its `int16` count is their number, and each skipped node stands for the
alternative of a branch.
-/

namespace FastGoZero.HttpRouter

open Lib Lib.Backtracking List

universe u

variable {H : Type u} {stack : List (Entry (Place H))} {params : List Param} {slice : ParamSlice}
  {count : Int16} {request : Str} {unescape saved : Bool} {cap : UInt16}

/-- The slice and the count of a walk, for the parameters of a position. -/
structure Sliced (cap : UInt16) (params : List Param) (slice : ParamSlice) (count : Int16)
    (saved : Bool) : Prop where
  items : slice.items = params
  grown : cap.toNat ≤ slice.cap
  bounded : slice.cap ≤ max cap.toNat 32767
  inside : params.length ≤ slice.cap
  counted : count = Int16.ofNat params.length
  unsaved : saved = false → params = []

theorem count_toInt {k : Nat} (small : k ≤ 65536) :
    (Int16.ofNat k).toInt = if k ≤ 32767 then (k : Int) else k - 65536 := by
  have size : ((Int16.size : Nat) : Int) = 65536 := rfl
  rw [Int16.toInt_ofNat', Int.bmod_def, size]
  omega

/-- The slice has room for another parameter exactly when the search can save. -/
theorem Sliced.capFor (sliced : Sliced cap params slice count saved) :
    (slice.items.length + 1 ≤ slice.capFor (count + 1) ↔
      params.length + 1 ≤ max cap.toNat 32767) ∧
    cap.toNat ≤ slice.capFor (count + 1) ∧ slice.capFor (count + 1) ≤ max cap.toNat 32767 := by
  obtain ⟨rfl, grown, bounded, inside, rfl, _⟩ := sliced
  have small : cap.toNat ≤ 65535 := Nat.le_of_lt_succ cap.toNat_lt
  generalize slice.items.length = k at inside
  have counted : Int16.ofNat k + 1 = Int16.ofNat (k + 1) := (Int16.ofNat_add k 1).symm
  rw [counted, ParamSlice.capFor, count_toInt (by omega)]
  by_cases fits : k + 1 ≤ 32767
  · rw [if_pos fits]
    split
    · omega
    · omega
  · rw [if_neg fits, if_neg (by omega)]
    omega

theorem Sliced.save (sliced : Sliced cap params slice count saved) (param : Param)
    (room : params.length + 1 ≤ max cap.toNat 32767) :
    Sliced cap (params ++ [param]) ⟨slice.items ++ [param], slice.capFor (count + 1)⟩ (count + 1)
      true := by
  obtain ⟨fits, larger, limited⟩ := sliced.capFor
  have enough := fits.mpr room
  obtain ⟨rfl, _, _, _, rfl, _⟩ := sliced
  refine ⟨rfl, larger, limited, ?_, ?_, nofun⟩
  · rwa [length_append]
  · rw [length_append]
    exact (Int16.ofNat_add _ 1).symm

/-- A skipped node, for an alternative of the search. -/
structure Skips (request : Str) (params : Option UInt16) (entry : SkippedNode H)
    (alternative : Entry (Place H)) : Prop where
  level : alternative.level = entry.path.length
  safe : alternative.safe = canRestore params alternative.body.params.length
  node : alternative.body.node = entry.node
  path : alternative.body.path = entry.path
  suffix : entry.path <:+ request
  counted : params.isSome → entry.paramsCount = Int16.ofNat alternative.body.params.length
  untracked : params = none → alternative.body.params = []

/-- Each alternative was put down with parameters that those above it only add to. -/
def Chained : List Param → List (Entry (Place H)) → Prop
  | _, [] => True
  | params, alternative :: rest =>
    alternative.body.params <+: params ∧ Chained alternative.body.params rest

theorem Chained.mono {small large : List Param} (chained : Chained small stack)
    (more : small <+: large) : Chained large stack := by
  cases stack with
  | nil => trivial
  | cons alternative rest => exact ⟨chained.1.trans more, chained.2⟩

theorem Chained.dropWhile (chained : Chained params stack) (p : Entry (Place H) → Bool) :
    Chained params (stack.dropWhile p) := by
  induction stack with
  | nil => trivial
  | cons alternative rest ih =>
    rw [dropWhile_cons]
    split
    · exact ih (chained.2.mono chained.1)
    · exact chained

theorem forall₂_dropWhile {α β : Type u} {R : α → β → Prop} {as : List α} {bs : List β}
    {p : α → Bool} {q : β → Bool} (related : Forall₂ R as bs)
    (same : ∀ a b, R a b → p a = q b) : Forall₂ R (as.dropWhile p) (bs.dropWhile q) := by
  induction related with
  | nil => exact .nil
  | cons first rest ih =>
    rw [dropWhile_cons, dropWhile_cons, same _ _ first]
    split
    · exact ih
    · exact .cons first rest

/-- A walk, for a position and a stack of the search. -/
structure Simulates (request : Str) (params : Option UInt16) (w : Walk H) (place : Place H)
    (stack : List (Entry (Place H))) : Prop where
  node : w.node = place.node
  path : w.path = place.path
  suffix : w.path <:+ request
  tracked : ∀ cap ∈ params, ∃ slice, w.params = some slice ∧
    Sliced cap place.params slice w.globalParamsCount w.saved
  untracked : params = none → w.params = none ∧ place.params = []
  skipped : List.Forall₂ (Skips request params) w.skipped stack
  chained : Chained place.params stack

/-- The value of the loop, for the answer of the search. -/
structure Returns (value : NodeValue H) (answer : Answer H) : Prop where
  handler : value.handler = answer.handler
  fullPath : value.fullPath = answer.fullPath
  tsr : value.tsr = answer.tsr
  params : value.params.getD [] = answer.params

section

variable {request : Str} {params : Option UInt16} {w : Walk H} {place : Place H}
  {stack : List (Entry (Place H))} (simulates : Simulates request params w place stack)
  {alternative : Entry (Place H)} {rest : List (SkippedNode H)} {entry : SkippedNode H}

include simulates

theorem Simulates.value (handler : Option H) (fullPath : Str) (tsr : Bool) :
    Returns (w.value handler fullPath tsr) ⟨handler, fullPath, tsr, place.params⟩ := by
  refine ⟨rfl, rfl, rfl, ?_⟩
  cases params with
  | none =>
    obtain ⟨noSlice, noParams⟩ := simulates.untracked rfl
    simp [Walk.value, Walk.valueParams, noSlice, noParams]
  | some cap =>
    obtain ⟨slice, isSlice, sliced⟩ := simulates.tracked cap rfl
    cases saved : w.saved with
    | true => simp [Walk.value, Walk.valueParams, saved, isSlice, sliced.items]
    | false => simp [Walk.value, Walk.valueParams, saved, sliced.unsaved saved]

theorem Simulates.walk (node : Node H) {rest : Str} (suffix : rest <:+ w.path) :
    Simulates request params { w with node := node, path := rest } ⟨node, rest, place.params⟩
      stack :=
  ⟨rfl, rfl, suffix.trans simulates.suffix, simulates.tracked, simulates.untracked,
    simulates.skipped, simulates.chained⟩

/-- The parameter of a wildcard is saved where the search can save it. -/
theorem Simulates.save (unescape : Bool) (skip : Nat) (wildcard piece : Str)
    (room : CanSave params place.params.length ∧ (params.isSome → skip ≤ wildcard.length)) :
    ∃ w', w.save unescape skip wildcard piece = .ok w' ∧ w'.path = w.path ∧
      Simulates request params w' { place with
        params := place.params ++ savedParams params unescape skip wildcard piece } stack := by
  cases params with
  | none =>
    obtain ⟨noSlice, noParams⟩ := simulates.untracked rfl
    refine ⟨{ w with globalParamsCount := w.globalParamsCount + 1 }, ?_, rfl, ?_⟩
    · simp [Walk.save, noSlice]
    · have nothing : place.params ++ savedParams none unescape skip wildcard piece =
          place.params := append_nil _
      rw [nothing]
      exact ⟨simulates.node, simulates.path, simulates.suffix, by simp, simulates.untracked,
        simulates.skipped, simulates.chained⟩
  | some cap =>
    obtain ⟨slice, isSlice, sliced⟩ := simulates.tracked cap rfl
    let param : Param := ⟨wildcard.drop skip, paramValue unescape piece⟩
    have enough := sliced.capFor.1.mpr (room.1 cap rfl)
    have bounded : ¬ (slice.capFor (w.globalParamsCount + 1) < slice.items.length + 1 ∨
        wildcard.length < skip) := by
      rintro (short | short)
      · omega
      · have long := room.2 rfl
        omega
    refine ⟨{ w with
      params := some ⟨slice.items ++ [param], slice.capFor (w.globalParamsCount + 1)⟩
      saved := true
      globalParamsCount := w.globalParamsCount + 1 }, ?_, rfl, ?_⟩
    · simp only [Walk.save, isSlice, bounded, ↓reduceIte, param]
    · refine ⟨simulates.node, simulates.path, simulates.suffix, ?_, by simp, simulates.skipped,
        simulates.chained.mono (prefix_append _ _)⟩
      rintro _ ⟨⟩
      exact ⟨_, rfl, sliced.save param (room.1 cap rfl)⟩

theorem Simulates.save_full (unescape : Bool) (skip : Nat) (wildcard piece : Str)
    (full : ¬ (CanSave params place.params.length ∧ (params.isSome → skip ≤ wildcard.length))) :
    w.save unescape skip wildcard piece = .error .sliceBounds := by
  cases params with
  | none => exact absurd ⟨by simp [CanSave], by simp⟩ full
  | some cap =>
    obtain ⟨slice, isSlice, sliced⟩ := simulates.tracked cap rfl
    have short : slice.capFor (w.globalParamsCount + 1) < slice.items.length + 1 ∨
        wildcard.length < skip := by
      by_contra long
      rw [not_or, Nat.not_lt, Nat.not_lt] at long
      refine full ⟨?_, fun _ => long.2⟩
      rintro _ ⟨⟩
      exact sliced.capFor.1.mp long.1
    simp only [Walk.save, isSlice, short, ↓reduceIte]

theorem Simulates.restore {others : List (Entry (Place H))}
    (skips : Skips request params entry alternative)
    (skipped : Forall₂ (Skips request params) rest others)
    (chained : Chained place.params (alternative :: others)) (safe : alternative.safe = true) :
    ∃ w', w.restore entry rest = .ok w' ∧ Simulates request params w' alternative.body others := by
  let next : Walk H := { w with
    node := entry.node
    path := entry.path
    globalParamsCount := entry.paramsCount
    skipped := rest }
  cases params with
  | none =>
    obtain ⟨noSlice, _⟩ := simulates.untracked rfl
    refine ⟨next, ?_, skips.node.symm, skips.path.symm, skips.suffix, by simp,
      fun _ => ⟨noSlice, skips.untracked rfl⟩, skipped, chained.2⟩
    have unset : w.valueParams = none := by simp [Walk.valueParams, noSlice]
    simp only [Walk.restore, unset, next]
  | some cap =>
    obtain ⟨slice, isSlice, sliced⟩ := simulates.tracked cap rfl
    obtain ⟨kept, chained⟩ := chained
    cases saved : w.saved with
    | false =>
      have unset : w.valueParams = none := by simp [Walk.valueParams, saved]
      have nothing : alternative.body.params = [] := by
        rw [sliced.unsaved saved] at kept
        exact prefix_nil.mp kept
      refine ⟨next, ?_, skips.node.symm, skips.path.symm, skips.suffix, ?_, by simp, skipped, chained⟩
      · simp only [Walk.restore, unset, next]
      · rintro _ ⟨⟩
        rw [nothing]
        refine ⟨slice, isSlice, ?_, sliced.grown, sliced.bounded, Nat.zero_le _, ?_, fun _ => rfl⟩
        · rw [sliced.items, sliced.unsaved saved]
        · rw [← nothing]
          exact skips.counted rfl
    | true =>
      have set : w.valueParams = some slice := by simp [Walk.valueParams, saved, isSlice]
      have few : alternative.body.params.length ≤ 32767 := by
        rw [skips.safe] at safe
        simpa [canRestore] using safe
      have counted : entry.paramsCount.toInt = alternative.body.params.length := by
        rw [skips.counted rfl, count_toInt (by omega), if_pos few]
      have within := Nat.le_trans kept.length_le sliced.inside
      have allowed : ¬ (entry.paramsCount.toInt < 0 ∨
          (slice.cap : Int) < entry.paramsCount.toInt) := by omega
      have cut : slice.items.take entry.paramsCount.toInt.toNat = alternative.body.params := by
        rw [counted, Int.toNat_natCast, sliced.items]
        exact (prefix_iff_eq_take.mp kept).symm
      refine ⟨{ next with params := some ⟨alternative.body.params, slice.cap⟩ }, ?_,
        skips.node.symm, skips.path.symm, skips.suffix, ?_, by simp, skipped, chained⟩
      · simp only [Walk.restore, set, allowed, ↓reduceIte, cut, next]
      · rintro _ ⟨⟩
        refine ⟨_, rfl, rfl, sliced.grown, sliced.bounded, within, skips.counted rfl, ?_⟩
        intro unsaved
        have unsaved : w.saved = false := unsaved
        rw [saved] at unsaved
        cases unsaved

/-- A rollback to a count that has become negative. -/
theorem Simulates.restore_negative (skips : Skips request params entry alternative)
    (kept : alternative.body.params <+: place.params) (refused : alternative.safe = false) :
    w.restore entry rest = .error .sliceBounds := by
  rw [skips.safe, canRestore] at refused
  cases params with
  | none => cases refused
  | some cap =>
    obtain ⟨slice, isSlice, sliced⟩ := simulates.tracked cap rfl
    have many : ¬ alternative.body.params.length ≤ 32767 := by simpa using refused
    have saved : w.saved = true := by
      cases saved : w.saved with
      | true => rfl
      | false =>
        rw [sliced.unsaved saved, prefix_nil] at kept
        simp [kept] at many
    have set : w.valueParams = some slice := by simp [Walk.valueParams, saved, isSlice]
    have few : alternative.body.params.length ≤ 65535 := by
      have small := cap.toNat_lt
      have within := Nat.le_trans kept.length_le sliced.inside
      have bounded := sliced.bounded
      omega
    have negative : entry.paramsCount.toInt < 0 := by
      rw [skips.counted rfl, count_toInt (by omega), if_neg many]
      omega
    simp only [Walk.restore, set, negative, true_or, ↓reduceIte]

end

/-- The loop ends as the driven search ends. -/
def EndsAs (request : Str) (params : Option UInt16) (ended : Except Panic (Found H)) :
    Except Failure (Answer H × List (Entry (Place H))) → Prop
  | .ok (answer, left) => ∃ value skipped, ended = .ok (value, skipped) ∧ Returns value answer ∧
      List.Forall₂ (Skips request params) skipped left
  | .error failure => ∃ reason, ended = .error reason ∧ (reason = .outOfFuel → failure = .outOfFuel)

theorem loop_endsAs {params : Option UInt16} {room : Nat} {fuel : Nat} {w : Walk H}
    {place : Place H} (simulates : Simulates request params w place stack) :
    EndsAs request params (w.loop room unescape fuel)
      ((lookup params unescape).drive room fuel place stack) := by
  induction fuel generalizing w place stack with
  | zero => exact ⟨.outOfFuel, rfl, fun _ => rfl⟩
  | succ fuel ih =>
    have below := place.node.pass_below place.path
    rw [Machine.drive, Walk.loop]
    simp only [lookup, Place.visit, Walk.step, simulates.node, simulates.path]
    generalize place.node.pass place.path = exit at below ⊢
    cases exit with
    | go turn =>
      cases turn with
      | walk node rest =>
        exact ih (simulates.walk node (simulates.path ▸ below.2))
      | ret handler fullPath tsr =>
        exact ⟨_, _, rfl, simulates.value handler fullPath tsr, simulates.skipped⟩
    | branch whole skipped child rest =>
      obtain ⟨rfl, _, _, suffix⟩ := below
      have depth := simulates.skipped.length_eq
      dsimp only
      by_cases inside : stack.length < room
      · rw [if_neg (by omega), if_neg (by omega), if_pos inside]
        apply ih
        refine ⟨rfl, rfl, (simulates.path ▸ suffix).trans simulates.suffix, simulates.tracked,
          simulates.untracked, .cons ?_ simulates.skipped, prefix_rfl, simulates.chained⟩
        refine ⟨rfl, rfl, rfl, rfl, simulates.path ▸ simulates.suffix, fun isSome => ?_,
          fun none => (simulates.untracked none).2⟩
        obtain ⟨cap, rfl⟩ := Option.isSome_iff_exists.mp isSome
        obtain ⟨slice, _, sliced⟩ := simulates.tracked cap rfl
        exact sliced.counted
      · rw [if_neg inside]
        by_cases empty : room = 0
        · exact ⟨.nilPointer, by rw [if_pos empty], by simp⟩
        · exact ⟨.sliceBounds, by rw [if_neg empty, if_pos (by omega)], by simp⟩
    | rollBack path tsr =>
      have suffix : path <:+ request := (simulates.path ▸ below).trans simulates.suffix
      dsimp only
      by_cases empty : room = 0
      · rw [if_pos empty, if_pos empty]
        exact ⟨.nilPointer, rfl, by simp⟩
      · rw [if_neg empty, if_neg empty]
        have dropped := forall₂_dropWhile (p := fun entry => !path.isSuffixOf entry.path)
          (q := fun alternative => decide (alternative.level < path.length)) simulates.skipped (by
            intro entry alternative skips
            have shorter := Str.suffix_iff_length_le suffix skips.suffix
            rw [skips.level, Bool.eq_iff_iff, decide_eq_true_eq, Bool.not_eq_true',
              ← Bool.not_eq_true, isSuffixOf_iff_suffix, shorter, Nat.not_le])
        have chained := simulates.chained.dropWhile
          fun alternative => decide (alternative.level < path.length)
        generalize w.skipped.dropWhile (fun entry => !path.isSuffixOf entry.path) = entries
          at dropped
        generalize stack.dropWhile (fun alternative => decide (alternative.level < path.length)) =
          alternatives at dropped chained
        cases dropped with
        | nil => exact ⟨_, [], rfl, simulates.value none [] tsr, .nil⟩
        | @cons entry alternative rest others skips skipped =>
          dsimp only
          cases safe : alternative.safe with
          | true =>
            obtain ⟨w', restored, next⟩ := simulates.restore skips skipped chained safe
            rw [restored]
            exact ih next
          | false =>
            rw [simulates.restore_negative skips chained.1 safe]
            exact ⟨.sliceBounds, rfl, by simp⟩
    | save skip wildcard piece turn =>
      dsimp only
      by_cases room : CanSave params place.params.length ∧
          (params.isSome → skip ≤ wildcard.length)
      · obtain ⟨w', saved, samePath, next⟩ := simulates.save unescape skip wildcard piece room
        rw [saved, if_pos room]
        cases turn with
        | walk node rest =>
          exact ih (next.walk node (samePath ▸ simulates.path ▸ below.2))
        | ret handler fullPath tsr =>
          exact ⟨_, _, rfl, next.value handler fullPath tsr, next.skipped⟩
      · rw [simulates.save_full unescape skip wildcard piece room, if_neg room]
        exact ⟨.sliceBounds, rfl, by simp⟩
    | panic reason =>
      exact ⟨reason, rfl, fun stopped => absurd stopped below⟩

theorem enough_fuel {params : Option UInt16} {skipped : List (SkippedNode H)}
    (skips : Forall₂ (Skips request params) skipped stack) (n : Node H) (path : Str) :
    (n.search path params unescape).work +
      stackWork ((lookup params unescape).searches stack) ≤ lookupFuel n skipped := by
  have first := (lookup params unescape).work_lt ⟨n, path, []⟩
  have rest : stackWork ((lookup params unescape).searches stack) ≤
      skipped.foldr (fun entry fuel => 2 ^ (entry.node.size + 1) + fuel) 0 := by
    induction skips with
    | nil => exact Nat.le_refl _
    | @cons entry alternative _ _ skip _ ih =>
      have here := (lookup params unescape).work_lt alternative.body
      simp only [lookup, skip.node] at here
      exact Nat.add_le_add (Nat.le_of_lt here) ih
  exact Nat.add_le_add (Nat.le_of_lt first) rest

section

variable {path : Str} {params : Option UInt16} {unescape : Bool} {room : Nat}
  {skipped : List (SkippedNode H)} {stack : List (Entry (Place H))} (n : Node H)
  (skips : List.Forall₂ (Skips path params) skipped stack) (chained : Chained [] stack)

include skips chained

theorem getValue_endsAs :
    EndsAs path params (n.getValue path params skipped room unescape)
      ((lookup params unescape).drive room (lookupFuel n skipped) ⟨n, path, []⟩ stack) := by
  apply loop_endsAs
  refine ⟨rfl, rfl, suffix_refl _, ?_, ?_, skips, chained⟩
  · rintro cap ⟨⟩
    exact ⟨_, rfl, rfl, Nat.le_refl _, Nat.le_max_left _ _, Nat.zero_le _, rfl, fun _ => rfl⟩
  · rintro rfl
    exact ⟨rfl, rfl⟩

/-- Where the search fits on the skipped nodes, the lookup returns its answer and leaves
its alternatives. -/
theorem getValue_returns (fits : (n.search path params unescape).FitsOn room
      ((lookup params unescape).searches stack)) :
    ∃ value left answer rest, n.getValue path params skipped room unescape = .ok (value, left) ∧
      Returns value answer ∧ Forall₂ (Skips path params) left rest ∧
      (n.search path params unescape).run ((lookup params unescape).searches stack) =
        some (answer, (lookup params unescape).searches rest) := by
  have drives := (lookup params unescape).drive_spec room (lookupFuel n skipped) ⟨n, path, []⟩
    stack (enough_fuel skips n path)
  obtain ⟨answer, rest, driven, ran⟩ := drives.returns fits
  have ends : EndsAs path params (n.getValue path params skipped room unescape) _ :=
    getValue_endsAs n skips chained
  rw [driven] at ends
  obtain ⟨value, left, found, returned, leaves⟩ := ends
  exact ⟨value, left, answer, rest, found, returned, leaves, ran⟩

/-- Where the search does not fit, the lookup panics. -/
theorem getValue_panics (misfit : ¬ (n.search path params unescape).FitsOn room
      ((lookup params unescape).searches stack)) :
    ∃ reason, n.getValue path params skipped room unescape = .error reason ∧
      reason ≠ .outOfFuel := by
  have drives := (lookup params unescape).drive_spec room (lookupFuel n skipped) ⟨n, path, []⟩
    stack (enough_fuel skips n path)
  obtain ⟨failure, driven, notFuel⟩ := drives.fails misfit
  have ends : EndsAs path params (n.getValue path params skipped room unescape) _ :=
    getValue_endsAs n skips chained
  rw [driven] at ends
  obtain ⟨reason, found, same⟩ := ends
  exact ⟨reason, found, fun fuel => notFuel (same fuel)⟩

/-- A lookup that returned had room for its search. -/
theorem getValue_ok {value : NodeValue H} {left : List (SkippedNode H)}
    (found : n.getValue path params skipped room unescape = .ok (value, left)) :
    (n.search path params unescape).FitsOn room ((lookup params unescape).searches stack) ∧
      ∃ answer rest, Returns value answer ∧ Forall₂ (Skips path params) left rest ∧
        (n.search path params unescape).run ((lookup params unescape).searches stack) =
          some (answer, (lookup params unescape).searches rest) := by
  by_cases fits : (n.search path params unescape).FitsOn room
      ((lookup params unescape).searches stack)
  · obtain ⟨_, _, answer, rest, same, returned, leaves, ran⟩ := getValue_returns n skips chained fits
    rw [found, Except.ok.injEq, Prod.mk.injEq] at same
    obtain ⟨rfl, rfl⟩ := same
    exact ⟨fits, answer, rest, returned, leaves, ran⟩
  · obtain ⟨reason, failed, -⟩ := getValue_panics n skips chained fits
    rw [found] at failed
    cases failed

end

end FastGoZero.HttpRouter
