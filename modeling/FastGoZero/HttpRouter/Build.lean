import FastGoZero.HttpRouter.AddRoute

/-!
# Trees built from routes

A tree that `addRoute` has built from a list of routes holds exactly those routes. The
length of a path is enough fuel for adding it.
-/

namespace FastGoZero.HttpRouter

open Lib

universe u

variable {H : Type u} {n : Node H}

/-- What `Handle` passes on to `addRoute`: a path that begins with '/'. -/
structure Route (H : Type u) where
  path : Str
  handlers : H
  rooted : path.head? = some slash

/-- The root that `Handle` makes for a method. -/
def newRoot : Node H := { fullPath := say "/" }

def build (routes : List (Route H)) : Except Panic (Node H) :=
  routes.foldlM (fun root route => root.addRoute route.path route.handlers) newRoot

/-- The root of a tree, before its first route and after it. -/
inductive Root (n : Node H) : Prop
  | fresh (new : Fresh n)
  | grown (wf : Wf n) (kind : n.nType = .root) (leads : Leads slash n)

theorem root_newRoot : Root (newRoot : Node H) := .fresh ⟨rfl, rfl, rfl, rfl, rfl, rfl⟩

structure Holds (root : Node H) (routes : List (Route H)) : Prop where
  start : Root root
  reg : ∀ q g, Reg root q g ↔ ∃ route ∈ routes, route.path = q ∧ route.handlers = g

theorem Wf.setRoot (wf : Wf n) (kind : n.nType = .static) : Wf { n with nType := .root } := by
  cases wf with
  | text here kidsWf wildWf =>
    refine .text ⟨?_, Or.inr rfl, here.plain, here.distinct, here.kinds, here.leads, here.named,
      here.bare⟩ kidsWf wildWf
    exact congrArg (fun m : Node H => { m with nType := .root }) here.shape
  | param here _ | holder here =>
    rw [here.kind] at kind
    cases kind

theorem root_nonempty (wf : Wf n) (kind : n.nType = .root) : ¬ (n.path = [] ∧ n.children = []) := by
  rintro ⟨empty, leaf⟩
  cases wf with
  | text here _ _ =>
    obtain ⟨_, _, holder, rfl, _⟩ := here.bare empty
    rw [here.shape] at leaf
    cases leaf
  | param here _ | holder here =>
    rw [here.kind] at kind
    cases kind

variable {root root' : Node H} {routes : List (Route H)}

/-- What `addRoute` gives at a root. -/
structure Rooted (root : Node H) (route : Route H) (result : Except Panic (Node H)) : Prop where
  ran : Ran result
  adds : ∀ root', result = .ok root' → Root root' ∧ Adds root root' route.path route.handlers
  tight : (root.nType = .root → Tight root) → ∀ root', result = .ok root' → Tight root'

theorem addRoute_rooted (start : Root root) (route : Route H) :
    Rooted root route (root.addRoute route.path route.handlers) := by
  simp only [Node.addRoute]
  cases start with
  | fresh new =>
    have ran := insertChild_ran root.bump route.path route.path route.handlers
      (Nat.lt_succ_self route.path.length)
    have fresh : Fresh root.bump :=
      ⟨new.path, new.indices, new.wildChild, new.kind, new.children, new.unset⟩
    rw [if_pos ⟨new.path, new.children⟩]
    cases inserted : root.bump.insertChild (route.path.length + 1) route.path route.path
        route.handlers with
    | error panic =>
      rw [inserted] at ran
      refine ⟨fun failed => ran (by simpa [bind, Except.bind] using failed), ?_, ?_⟩
      · rintro _ ⟨⟩
      · rintro _ _ ⟨⟩
    | ok n =>
      obtain ⟨⟨wf, kind, only, tight⟩, leads⟩ :=
        insertChild_fresh fresh route.rooted (by decide) inserted
      refine ⟨.ok _, ?_, ?_⟩
      · rintro _ ⟨⟩
        refine ⟨.grown (wf.setRoot kind) rfl leads, fun q g => ?_⟩
        have empty : ¬ Reg root q g := by
          rw [reg_iff, new.unset, new.children]
          simp
        have retyped : Reg { n with nType := .root } q g ↔ Reg n q g := by
          apply reg_congr
          · rfl
          · rfl
          · exact List.Perm.refl _
        rw [retyped, only q g]
        exact (or_iff_right empty).symm
      · rintro _ _ ⟨⟩
        exact tight.retype rfl rfl rfl (by simp [kind])
  | grown wf kind leads =>
    rw [if_neg (root_nonempty wf.bump kind)]
    have enters : Enters root.bump route.path :=
      ⟨fun _ => ⟨slash, route.rooted, leads⟩, fun isParam => by
        rw [show root.bump.nType = .root from kind] at isParam
        cases isParam⟩
    obtain ⟨ran, extended, tight⟩ :=
      addWalk_walked wf.bump enters (Or.inl (Nat.lt_succ_self _))
    refine ⟨ran, fun root' added => ?_, fun whole => tight (whole kind).bump⟩
    have extended := extended root' added
    refine ⟨.grown extended.wf (extended.kind.trans kind)
      (extended.leads slash route.rooted leads), fun q g => ?_⟩
    rw [extended.adds q g, reg_bump]

/-- Adding a route keeps the tree a tree, which then holds that route too. -/
theorem addRoute_adds (start : Root root) (route : Route H)
    (added : root.addRoute route.path route.handlers = .ok root') :
    Root root' ∧ Adds root root' route.path route.handlers :=
  (addRoute_rooted start route).adds root' added

/-- The model never stops a route for lack of fuel. -/
theorem addRoute_tight (start : Root root) (tight : root.nType = .root → Tight root)
    (route : Route H) (added : root.addRoute route.path route.handlers = .ok root') : Tight root' :=
  (addRoute_rooted start route).tight tight root' added

theorem addRoute_holds (holds : Holds root routes)
    (route : Route H) (added : root.addRoute route.path route.handlers = .ok root') :
    Holds root' (routes ++ [route]) := by
  obtain ⟨start, adds⟩ := addRoute_adds holds.start route added
  refine ⟨start, fun q g => ?_⟩
  rw [adds q g, holds.reg q g]
  simp only [List.mem_append, List.mem_singleton, or_and_right, exists_or, exists_eq_left]
  rw [eq_comm (a := q), eq_comm (a := g)]

theorem foldlM_holds {done : List (Route H)} (holds : Holds root done)
    (built : routes.foldlM (fun root route => root.addRoute route.path route.handlers) root =
      .ok root') : Holds root' (done ++ routes) := by
  induction routes generalizing root done with
  | nil =>
    cases built
    rwa [List.append_nil]
  | cons route routes ih =>
    rw [List.foldlM_cons] at built
    obtain ⟨next, added, built⟩ := bind_eq_ok.mp built
    have later := ih (addRoute_holds holds route added) built
    rwa [List.append_assoc] at later

/-- A tree that was built holds the routes it was built from. -/
theorem build_holds (built : build routes = .ok root) : Holds root routes := by
  have empty : Holds (newRoot : Node H) [] := by
    refine ⟨root_newRoot, fun q g => ?_⟩
    rw [reg_iff]
    simp [newRoot]
  exact foldlM_holds empty built

end FastGoZero.HttpRouter
