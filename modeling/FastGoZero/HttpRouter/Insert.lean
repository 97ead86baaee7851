import FastGoZero.HttpRouter.Compressed
import FastGoZero.HttpRouter.WellFormed
import FastGoZero.Lib.Fallible
import Mathlib.Data.List.TakeWhile

/-!
# Inserting new nodes

What `insertChild` makes of a path: the part before the first wildcard stays text, a
parameter takes the rest of its segment, and a catch-all ends the path.
-/

namespace FastGoZero.HttpRouter

open Lib List

universe u

variable {H : Type u}

/-- The text after a segment. -/
def Segment (rest : Str) : Prop := rest = [] ∨ ∃ tail, rest = slash :: tail

variable {path : Str} {fuel : Nat} {n m : Node H} {fullPath : Str} {h : H}

theorem findWildcard_none (nothing : findWildcard path = none) : ∀ c ∈ path, isWild c = false := by
  cases found : path.findIdx? isWild with
  | none =>
    intro c mem
    exact findIdx?_eq_none_iff.mp found c mem
  | some start => simp [findWildcard, found] at nothing

/-- The first wildcard of a path: what stands before, in and after it. -/
theorem findWildcard_some {wildcard : Str} {i : Nat} {valid : Bool}
    (found : findWildcard path = some (wildcard, i, valid)) :
    ∃ c name rest, wildcard = c :: name ∧ isWild c = true ∧
      path = path.take i ++ (c :: name ++ rest) ∧
      (∀ d ∈ path.take i, isWild d = false) ∧ i < path.length ∧ (∀ d ∈ name, d ≠ slash) ∧
      Segment rest ∧ valid = name.all fun d => !isWild d := by
  unfold findWildcard at found
  cases place : path.findIdx? isWild with
  | none => simp [place] at found
  | some start =>
    rw [place] at found
    cases found
    obtain ⟨inside, wild, earlier⟩ := findIdx?_eq_some_iff_getElem.mp place
    have opened : path.drop i = path[i] :: path.drop (i + 1) :=
      drop_eq_getElem_cons inside
    have notSlash : decide (path[i] ≠ slash) = true := by
      rw [decide_eq_true_eq]
      intro same
      rw [same] at wild
      exact absurd wild (by decide)
    have cut : Str.before slash (path.drop i) =
        path[i] :: (path.drop (i + 1)).takeWhile (· ≠ slash) := by
      rw [opened, Str.before, takeWhile_cons, if_pos notSlash]
    refine ⟨path[i], (path.drop (i + 1)).takeWhile (· ≠ slash),
      (path.drop (i + 1)).dropWhile (· ≠ slash), cut, wild, ?_, ?_, inside, ?_, ?_, ?_⟩
    · rw [cons_append, takeWhile_append_dropWhile, ← opened, take_append_drop]
    · intro d mem
      obtain ⟨j, small, rfl⟩ := mem_take_iff_getElem.mp mem
      simpa using earlier j (by omega)
    · intro d mem
      simpa using mem_takeWhile_imp mem
    · cases rest : (path.drop (i + 1)).dropWhile (· ≠ slash) with
      | nil => exact Or.inl rfl
      | cons d tail =>
        have stops := head?_dropWhile_not (· ≠ slash) (path.drop (i + 1))
        rw [rest] at stops
        refine Or.inr ⟨tail, ?_⟩
        simpa using stops
    · rw [cut]
      rfl

/-- A new node, as the callers of `insertChild` make it. -/
structure Fresh (n : Node H) : Prop where
  path : n.path = []
  indices : n.indices = []
  wildChild : n.wildChild = false
  kind : n.nType = .static
  children : n.children = []
  unset : n.handlers = none

/-- What `insertChild` does when it does not panic. -/
theorem insertChild_ok (inserted : Node.insertChild (fuel + 1) n path fullPath h = .ok m) :
    ((∀ c ∈ path, isWild c = false) ∧
      m = { n with path := path, handlers := some h, fullPath := fullPath }) ∨
    (∃ text name rest child, path = text ++ (colon :: name ++ rest) ∧
      (∀ c ∈ text, isWild c = false) ∧ Name name ∧ Segment rest ∧
      Node.paramChild (fun below path => Node.insertChild fuel below path fullPath h)
        (colon :: name) (colon :: name ++ rest) fullPath h = .ok child ∧
      m = { ({ n with path := if text = [] then n.path else text } : Node H).addChild child with
        wildChild := true }) ∨
    (∃ text name, path = text ++ (slash :: star :: name) ∧ (∀ c ∈ text, isWild c = false) ∧
      Name name ∧ m = { ({ n with path := text } : Node H).addChild
        (Node.catchAllChild (slash :: star :: name) fullPath h) with indices := [slash] }) := by
  rw [Node.insertChild] at inserted
  cases found : findWildcard path with
  | none =>
    rw [found] at inserted
    simp only [Except.ok.injEq] at inserted
    exact Or.inl ⟨findWildcard_none found, inserted.symm⟩
  | some place =>
    obtain ⟨wildcard, i, valid⟩ := place
    obtain ⟨c, name, rest, rfl, wild, whole, plain, inside, noSlash, segment, rfl⟩ :=
      findWildcard_some found
    have dropped : path.drop i = c :: name ++ rest := by
      have split : path.take i ++ path.drop i = path.take i ++ (c :: name ++ rest) := by
        rwa [take_append_drop]
      exact append_cancel_left split
    rw [found] at inserted
    dsimp only at inserted
    split at inserted
    · cases inserted
    split at inserted
    · cases inserted
    rename_i validName long
    have named : Name name := by
      refine ⟨?_, noSlash, ?_⟩
      · rintro rfl
        simp at long
      · simpa using validName
    split at inserted
    · rename_i isParam
      obtain rfl : c = colon := by simpa using isParam
      refine Or.inr (Or.inl ⟨path.take i, name, rest, ?_⟩)
      rw [dropped] at inserted
      obtain ⟨child, made, inserted⟩ := bind_eq_ok.mp inserted
      refine ⟨child, whole, plain, named, segment, made, ?_⟩
      have start : path.take i = [] ↔ ¬ 0 < i := by
        rw [take_eq_nil_iff]
        constructor
        · rintro (zero | empty)
          · omega
          · simp [empty] at inside
        · intro zero
          exact Or.inl (by omega)
      have renamed : (if 0 < i then { n with path := path.take i } else n) =
          { n with path := if path.take i = [] then n.path else path.take i } := by
        by_cases zero : 0 < i
        · simp [zero, start]
        · cases n
          simp [zero, start]
      simp only [pure, Except.pure, Except.ok.injEq, renamed] at inserted
      exact inserted.symm
    · rename_i notParam
      split at inserted
      · cases inserted
      split at inserted
      · cases inserted
      rename_i atEnd _
      have ended : rest = [] := by
        have total := congrArg length dropped
        simp only [length_drop, length_append, length_cons] at total atEnd
        exact length_eq_zero_iff.mp (by omega)
      obtain rfl : c = star := by
        simp only [isWild, Bool.or_eq_true, decide_eq_true_eq] at wild
        exact wild.resolve_left (by simpa using notParam)
      subst ended
      cases i with
      | zero => cases inserted
      | succ i =>
        dsimp only at inserted
        split at inserted
        · cases inserted
        rename_i behindSlash
        have before : path[i] = slash := by
          simpa [getElem?_eq_getElem (Nat.lt_of_succ_lt inside)] using behindSlash
        have tail : path.drop i = slash :: star :: name := by
          rw [drop_eq_getElem_cons (Nat.lt_of_succ_lt inside), before, dropped]
          simp
        refine Or.inr (Or.inr ⟨path.take i, name, ?_, ?_, named, ?_⟩)
        · rw [← tail, take_append_drop]
        · intro d mem
          exact plain d (take_subset_take_left _ (Nat.le_succ i) mem)
        · simp only [Except.ok.injEq] at inserted
          rw [← inserted, tail]

/-- What is made of a path: a compressed tree with this one pattern. -/
structure Made (kind : NodeType) (m : Node H) (path : Str) (h : H) : Prop where
  wf : Wf m
  kind : m.nType = kind
  only : Only m path h
  tight : Tight m

/-- A parameter node, given what its caller inserts below it. -/
theorem paramChild_ok {insert : Node H → Str → Except Panic (Node H)}
    {name rest : Str} {w : Node H} (named : Name name) (segment : Segment rest)
    (made : Node.paramChild insert (colon :: name) (colon :: name ++ rest) fullPath h = .ok w)
    (below : ∀ n m, Fresh n → insert n rest = .ok m → rest.head? = some slash →
      Made .static m rest h ∧ Leads slash m) : Made .param w (colon :: name ++ rest) h := by
  have tail : (colon :: name ++ rest).drop (colon :: name).length = rest := drop_left
  rw [Node.paramChild, tail] at made
  rcases segment with rfl | ⟨more, rfl⟩
  · simp only [append_nil, Nat.lt_irrefl, ↓reduceIte, Except.ok.injEq] at made
    subst made
    rw [append_nil]
    exact ⟨.param ⟨rfl, ⟨name, rfl, named⟩, Or.inl ⟨rfl, rfl⟩, rfl, nofun, nofun⟩ nofun, rfl,
      only_leaf rfl rfl, .leaf rfl rfl⟩
  · have longer : (colon :: name).length < (colon :: name ++ slash :: more).length := by
      simp
    rw [if_pos longer] at made
    obtain ⟨child, inserted, ⟨⟩⟩ := bind_eq_ok.mp made
    obtain ⟨⟨wf, kind, only, tight⟩, leads⟩ :=
      below _ child ⟨rfl, rfl, rfl, rfl, rfl, rfl⟩ inserted rfl
    refine ⟨.param ⟨rfl, ⟨name, rfl, named⟩, Or.inr ⟨child, rfl⟩, rfl, ?_, ?_⟩ ?_, rfl, ?_, ?_⟩
    · exact forall_mem_singleton.mpr kind
    · exact forall_mem_singleton.mpr leads
    · exact forall_mem_singleton.mpr wf
    · exact only_holder rfl rfl only
    · exact .single rfl (Or.inr (Or.inl rfl)) tight

theorem insertChild_fresh {b : UInt8}
    (fresh : Fresh n) (first : path.head? = some b) (text : isWild b = false)
    (inserted : Node.insertChild fuel n path fullPath h = .ok m) :
    Made .static m path h ∧ Leads b m := by
  induction fuel generalizing n m path b with
  | zero => cases inserted
  | succ fuel ih =>
    obtain ⟨here, indices, wildChild, nType, priority, children, handlers, full⟩ := n
    obtain ⟨rfl, rfl, rfl, rfl, rfl, rfl⟩ := fresh
    have nonempty : path ≠ [] := by
      rintro rfl
      cases first
    rcases insertChild_ok inserted with ⟨plain, rfl⟩ |
      ⟨before, name, rest, w, rfl, plain, named, segment, made, rfl⟩ |
      ⟨before, name, rfl, plain, named, rfl⟩
    · let leaf : Node H :=
        { path := path, priority := priority, handlers := some h, fullPath := fullPath }
      have here : TextNode leaf [] none := by
        refine ⟨rfl, Or.inl rfl, plain, nodup_nil, nofun, nofun, nofun, ?_⟩
        intro empty
        exact absurd empty nonempty
      exact ⟨⟨.text here nofun nofun, rfl, only_leaf rfl rfl, .leaf rfl rfl⟩, Or.inl first⟩
    · have started : before ≠ [] := by
        rintro rfl
        obtain rfl : colon = b := by simpa using first
        cases text
      obtain ⟨wf, isParam, only, tight⟩ := paramChild_ok named segment made
        fun n m fresh made starts => ih fresh starts (by decide) made
      simp only [started, ↓reduceIte]
      let base : Node H := { path := before, priority := priority, fullPath := full }
      have here : TextNode (base.withKids [] (some w)) [] (some w) := by
        refine ⟨rfl, Or.inl rfl, plain, nodup_nil, nofun, nofun, ?_, ?_⟩
        · rintro _ ⟨⟩
          exact isParam
        · intro empty
          exact absurd empty started
      refine ⟨⟨.text here nofun ?_, rfl, only_holder rfl rfl only, .single rfl (Or.inl rfl) tight⟩,
        Or.inl ?_⟩
      · rintro _ ⟨⟩
        exact wf
      · rwa [head?_append_of_ne_nil _ started] at first
    · let holder := Node.catchAllChild (slash :: star :: name) fullPath h
      let base : Node H := { path := before, priority := priority, fullPath := full }
      have held : Holder holder _ :=
        ⟨rfl, rfl, rfl, rfl, rfl, rfl, rfl, ⟨name, rfl, named⟩, nofun, rfl⟩
      have here : TextNode (base.withKids [(slash, holder)] none) [(slash, holder)] none := by
        refine ⟨rfl, Or.inl rfl, plain, by simp, ?_, ?_, nofun, ?_⟩
        · exact forall_mem_singleton.mpr (Or.inr ⟨rfl, rfl⟩)
        · exact forall_mem_singleton.mpr (Or.inr ⟨rfl, rfl⟩)
        · intro _
          exact ⟨rfl, rfl, holder, rfl, rfl⟩
      refine ⟨⟨.text here ?_ nofun, rfl, ?_, ?_⟩, ?_⟩
      · exact forall_mem_singleton.mpr (.holder held)
      · exact only_holder rfl rfl (only_holder rfl rfl (only_leaf rfl rfl))
      · exact .single rfl (Or.inr (Or.inr rfl)) (.single rfl (Or.inl rfl) (.leaf rfl rfl))
      · cases before with
        | nil => exact Or.inr ⟨rfl, by simpa using first.symm⟩
        | cons c before => exact Or.inl first

theorem insertChild_param
    {kids : List (UInt8 × Node H)} {c : UInt8} (here : n = n.withKids kids none)
    (wild : isWild c = true) (inserted : Node.insertChild fuel n (c :: path) fullPath h = .ok m) :
    ∃ w, m = n.withKids kids (some w) ∧ Made .param w (c :: path) h := by
  have atStart : ∀ text rest : Str, c :: path = text ++ rest →
      (∀ d ∈ text, isWild d = false) → text = [] := by
    rintro (_ | ⟨d, text⟩) rest same plain
    · rfl
    · obtain ⟨rfl, _⟩ := cons_eq_cons.mp same
      rw [plain c mem_cons_self] at wild
      cases wild
  cases fuel with
  | zero => cases inserted
  | succ fuel =>
    rcases insertChild_ok inserted with ⟨plain, _⟩ |
      ⟨text, name, rest, w, whole, plain, named, segment, made, rfl⟩ |
      ⟨text, name, whole, plain, named, _⟩
    · rw [plain c mem_cons_self] at wild
      cases wild
    · obtain rfl := atStart _ _ whole plain
      have made := paramChild_ok named segment made
        fun n m fresh made starts => insertChild_fresh fresh starts (by decide) made
      rw [nil_append] at whole
      refine ⟨w, ?_, whole ▸ made⟩
      obtain ⟨here, indices, wildChild, nType, priority, children, handlers, full⟩ := n
      simp only [Node.withKids, Node.mk.injEq, true_and, Option.isSome_none, Option.toList_none,
        append_nil, and_true] at here
      obtain ⟨rfl, rfl, rfl⟩ := here
      rfl
    · obtain rfl := atStart _ _ whole plain
      obtain ⟨rfl, _⟩ := cons_eq_cons.mp whole
      cases wild

/-- The model of a loop ran to its end. -/
def Ran {α : Type u} (result : Except Panic α) : Prop := result ≠ .error .outOfFuel

variable {α : Type u}

theorem Ran.ok (a : α) : Ran (.ok a) := nofun

theorem Ran.error {reason : Panic} (other : reason ≠ .outOfFuel) :
    Ran (.error reason : Except Panic α) := by
  intro failed
  exact other (Except.error.inj failed)

theorem Ran.map {β : Type u} {f : α → β} {x : Except Panic α} (ran : Ran x) : Ran (x.map f) := by
  cases x with
  | error panic =>
    intro failed
    exact ran (by simpa [Except.map] using failed)
  | ok a => exact .ok _

theorem insertChild_ran {fuel : Nat} (n : Node H) (path fullPath : Str) (h : H)
    (enough : path.length < fuel) : Ran (n.insertChild fuel path fullPath h) := by
  fun_induction Node.insertChild fuel n path fullPath h with
  | case1 => omega
  | case5 fuel n path fullPath h wildcard i valid found _ long _ _ rest ih =>
    rw [Node.paramChild]
    split_ifs with longer
    · have shorter : (rest.drop wildcard.length).length < fuel := by
        simp only [length_drop, rest] at longer ⊢
        omega
      have ran := ih { priority := 1, fullPath := fullPath } _ shorter
      cases inserted : Node.insertChild fuel { priority := 1, fullPath := fullPath }
          (rest.drop wildcard.length) fullPath h with
      | error panic =>
        rw [inserted] at ran
        intro failed
        exact ran (by simpa [bind, Except.bind] using failed)
      | ok below => exact .ok _
    · exact .ok _
  | case2 | case10 => exact .ok _
  | _ => exact .error (by simp)

end FastGoZero.HttpRouter
