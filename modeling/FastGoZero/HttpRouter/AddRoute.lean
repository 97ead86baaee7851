import FastGoZero.HttpRouter.Insert

/-!
# Adding a route keeps the tree

A successful `addRoute` leaves a well-formed tree that holds one pattern more and is compressed if
it was. The walk is by the kind of the node: a text node may be split, a parameter node is passed
through as a whole, and nothing is added behind a catch-all. The length of a path is enough fuel
for it.
-/

namespace FastGoZero.HttpRouter

open Lib List

universe u

variable {H : Type u}

section

variable {n c : Node H} {kids : List (UInt8 × Node H)} {wild : Option (Node H)} {b : UInt8}

/-- A list without one of its elements and with a new one. -/
theorem forall_mem_exchanged {α : Type u} {p : α → Prop} {left right back : List α} {a a' : α}
    (old : ∀ e ∈ left ++ right ++ a :: back, p e) (new : p a') :
    ∀ e ∈ left ++ a' :: (right ++ back), p e := by
  simp only [forall_mem_append, forall_mem_cons] at old ⊢
  exact ⟨old.1.1, new, old.1.2, old.2.2⟩

theorem forall_mem_inserted {α : Type u} {p : α → Prop} {left right : List α} {a : α}
    (old : ∀ e ∈ left ++ right, p e) (new : p a) : ∀ e ∈ left ++ a :: right, p e := by
  simp only [forall_mem_append, forall_mem_cons] at old ⊢
  exact ⟨old.1, new, old.2⟩

theorem TextNode.setKid {left right back : List (UInt8 × Node H)} {c' : Node H}
    (here : TextNode n (left ++ right ++ (b, c) :: back) wild) (kind : c'.nType = c.nType)
    (leads : Leads b c') : TextNode (n.withKids (left ++ (b, c') :: (right ++ back)) wild)
      (left ++ (b, c') :: (right ++ back)) wild := by
  have kinds : c'.nType = .static ∨ c'.nType = .catchAll ∧ b = slash :=
    kind ▸ here.kinds (b, c) (by simp)
  refine ⟨rfl, here.kind, here.plain, ?_, forall_mem_exchanged here.kinds kinds,
    forall_mem_exchanged here.leads leads, here.named, ?_⟩
  · have same : ((left ++ (b, c') :: (right ++ back)).map Prod.fst).Perm
        ((left ++ right ++ (b, c) :: back).map Prod.fst) := by
      simp only [map_append, map_cons, append_assoc]
      apply Perm.append_left
      exact perm_middle.symm
    exact same.nodup_iff.mpr here.distinct
  · intro empty
    obtain ⟨unset, noWild, holder, single, isHolder⟩ := here.bare empty
    obtain ⟨rfl, rfl, ⟨rfl, rfl⟩, rfl⟩ : left = [] ∧ right = [] ∧ (b = slash ∧ c = holder) ∧
        back = [] := by
      simpa [append_eq_singleton_iff] using single
    exact ⟨unset, noWild, c', rfl, kind.trans isHolder⟩

theorem TextNode.newKid {left right : List (UInt8 × Node H)}
    (here : TextNode n (left ++ right) wild) (absent : ∀ e ∈ left ++ right, e.1 ≠ b)
    (notBare : n.path ≠ []) (kind : c.nType = .static) (leads : Leads b c) :
    TextNode (n.withKids (left ++ (b, c) :: right) wild) (left ++ (b, c) :: right) wild := by
  refine ⟨rfl, here.kind, here.plain, ?_, forall_mem_inserted here.kinds (Or.inl kind),
    forall_mem_inserted here.leads leads, here.named, fun empty => absurd empty notBare⟩
  · have same : ((left ++ (b, c) :: right).map Prod.fst).Perm
        (b :: (left ++ right).map Prod.fst) := by
      simp only [map_append, map_cons]
      exact perm_middle
    rw [same.nodup_iff, nodup_cons]
    refine ⟨?_, here.distinct⟩
    intro mem
    obtain ⟨e, inside, first⟩ := mem_map.mp mem
    exact absent e inside first

theorem TextNode.wildChild (here : TextNode n kids wild) : n.wildChild = wild.isSome :=
  congrArg Node.wildChild here.shape

theorem TextNode.setWild {w : Node H} (here : TextNode n kids wild) (notBare : n.path ≠ [])
    (kind : w.nType = .param) : TextNode (n.withKids kids (some w)) kids (some w) := by
  refine { here with shape := rfl, named := ?_, bare := fun empty => absurd empty notBare }
  rintro _ ⟨⟩
  exact kind

theorem TextNode.setHandler (here : TextNode n kids wild) (notBare : n.path ≠ []) (h : Option H)
    (fullPath : Str) : TextNode { n with handlers := h, fullPath := fullPath } kids wild := by
  refine { here with shape := ?_, bare := fun empty => absurd empty notBare }
  exact congrArg (fun m : Node H => { m with handlers := h, fullPath := fullPath }) here.shape

end

/-- The path goes through the node. -/
structure Enters (n : Node H) (path : Str) : Prop where
  text : n.nType ≠ .param → ∃ b, path.head? = some b ∧ Leads b n
  param : n.nType = .param → ∃ rest, path = n.path ++ rest ∧ Segment rest

/-- What the walk makes of a node. -/
structure Extends (n m : Node H) (path : Str) (h : H) : Prop where
  wf : Wf m
  kind : m.nType = n.nType
  leads : ∀ b, path.head? = some b → Leads b n → Leads b m
  adds : Adds n m path h

variable {n child w : Node H} {kids : List (UInt8 × Node H)} {wild : Option (Node H)} {c : UInt8}
  {rest : Str} {pos : Nat}

open Node

theorem exists_kid (shape : n = n.withKids kids wild)
    (found : n.indices.findIdx? (· == c) = some pos) :
    ∃ front child back, kids = front ++ (c, child) :: back ∧ front.length = pos := by
  rw [shape] at found
  obtain ⟨inside, same, _⟩ := findIdx?_eq_some_iff_getElem.mp found
  have small : pos < kids.length := by simpa [withKids] using inside
  refine ⟨kids.take pos, kids[pos].2, kids.drop (pos + 1), ?_, ?_⟩
  · have first : kids[pos].1 = c := by simpa [withKids] using same
    rw [← first]
    exact (take_append_drop pos kids).symm.trans (congrArg _ (drop_eq_getElem_cons small))
  · rw [length_take]
    omega

theorem absent_kid
    (shape : n = n.withKids kids wild) (missing : n.indices.findIdx? (· == c) = none) :
    ∀ e ∈ kids, e.1 ≠ c := by
  rw [shape] at missing
  intro e mem same
  have differs := findIdx?_eq_none_iff.mp missing e.1 (mem_map_of_mem mem)
  simp [same] at differs

theorem enters_text (leads : Leads c child) (other : child.nType ≠ .param) :
    Enters child.bump (c :: rest) :=
  ⟨fun _ => ⟨c, rfl, leads⟩, fun isParam => absurd isParam other⟩

theorem Wf.bump (wf : Wf n) : Wf n.bump := by
  cases wf with
  | text here kidsWf wildWf =>
    exact .text { here with shape := congrArg Node.bump here.shape } kidsWf wildWf
  | param here below => exact .param { here with } below
  | holder here => exact .holder { here with }

theorem continuesWild_split {path : Str} (continues : continuesWild path w = true) :
    ∃ rest, path = w.path ++ rest ∧ Segment rest := by
  simp only [continuesWild, Bool.and_eq_true, isPrefixOf_iff_prefix, Bool.or_eq_true,
    decide_eq_true_eq] at continues
  obtain ⟨⟨⟨rest, rfl⟩, _⟩, ended | goesOn⟩ := continues
  · refine ⟨rest, rfl, Or.inl ?_⟩
    rw [length_append] at ended
    exact length_eq_zero_iff.mp (by omega)
  · refine ⟨rest, rfl, Or.inr ?_⟩
    rw [getElem?_append_right (Nat.le_refl _), Nat.sub_self] at goesOn
    cases rest with
    | nil => cases goesOn
    | cons c tail => exact ⟨tail, by simpa using goesOn⟩

variable {result : Except Panic (Node H)}

section

variable {walk : Node H → Nat → Except Panic (Node H)} {n : Node H} {path fullPath : Str}
  {index : Nat} {h : H} {condition : Prop}

/-- What a walk from a node gives: the node extended, and compressed if it was, or a panic of the
source. -/
structure Walked (n : Node H) (path : Str) (h : H) (result : Except Panic (Node H)) :
    Prop where
  ran : Ran result
  extended : ∀ m, result = .ok m → Extends n m path h
  tight : Tight n → ∀ m, result = .ok m → Tight m

/-- The walk below the node, as the induction gives it. Below a node with an empty path there is
only a catch-all. -/
def Walks (walk : Node H → Nat → Except Panic (Node H)) (n : Node H) (path : Str) (h : H) : Prop :=
  ∀ child index, Wf child → Enters child path → (n.path = [] → child.nType = .catchAll) →
    Walked child path h (walk child index)

/-- The pattern is added behind the path of the node. -/
structure Grown (n m : Node H) (path : Str) (h : H) : Prop where
  wf : Wf m
  kind : m.nType = n.nType
  path_eq : m.path = n.path
  adds : Adds n m (n.path ++ path) h

/-- What the rest of a path gives at a node: the node grown, and compressed under a condition. -/
structure Added (n : Node H) (path : Str) (h : H) (condition : Prop)
    (result : Except Panic (Node H)) : Prop where
  ran : Ran result
  grown : ∀ m, result = .ok m → Grown n m path h
  tight : condition → ∀ m, result = .ok m → Tight m

theorem Added.error {panic : Panic} (other : panic ≠ .outOfFuel) :
    Added n path h condition (.error panic) where
  ran := .error other
  grown := nofun
  tight := nofun

theorem Added.ok {m : Node H} (grown : Grown n m path h) (tight : condition → Tight m) :
    Added n path h condition (.ok m) where
  ran := .ok m
  grown := by
    rintro _ ⟨⟩
    exact grown
  tight := by
    rintro all _ ⟨⟩
    exact tight all

/-- The node is grown in what a walk gives for one of its children. -/
theorem Added.map {f : Node H → Node H} {x : Except Panic (Node H)} (ran : Ran x)
    (grown : ∀ c, x = .ok c → Grown n (f c) path h) (tight : condition → ∀ c, x = .ok c → Tight (f c)) :
    Added n path h condition (x.map f) := by
  refine ⟨ran.map, ?_, ?_⟩
  · intro m mapped
    obtain ⟨c, isOk, rfl⟩ := map_eq_ok.mp mapped
    exact grown c isOk
  · intro all m mapped
    obtain ⟨c, isOk, rfl⟩ := map_eq_ok.mp mapped
    exact tight all c isOk

theorem Added.conflict (w : Node H) :
    Added n path h condition (.error (wildcardConflict path fullPath w)) := by
  rw [wildcardConflict]
  split
  · exact .error (by simp)
  · exact .error (by simp)

section

variable {kids : List (UInt8 × Node H)} {wild : Option (Node H)} {c : UInt8} {rest : Str}

/-- Everything below is compressed and there is something. A node that was just split has an only
child, which the path does not enter. -/
structure Fits (n : Node H) (wild : Option (Node H)) (path : Str) : Prop where
  below : ∀ c ∈ n.children, Tight c
  content : n.handlers.isSome = true ∨ n.children ≠ []
  crowded : n.Crowded ∨ wild = none ∧ ∀ c ∈ path.head?, n.indices.findIdx? (· == c) = none

theorem Tight.fits (tight : Tight n) : Fits n wild path :=
  ⟨fun _ => tight.child, tight.crowded.content, Or.inl tight.crowded⟩

/-- The walk goes on in a child. -/
theorem Added.inChild {f : Node H → Node H} {others : List (Node H)}
    (walked : Walked child.bump path h result) (before : n.children.Perm (child :: others))
    (after : ∀ c, (f c).children.Perm (c :: others))
    (same : ∀ c, (f c).nType = n.nType ∧ (f c).path = n.path ∧ (f c).handlers = n.handlers ∧
      (f c).wildChild = n.wildChild)
    (wf : ∀ c, Extends child.bump c path h → Wf (f c)) (whole : condition → Tight n) :
    Added n path h condition (result.map f) := by
  refine .map walked.ran (fun c isOk => ?_) fun all c isOk => ?_
  · have below := walked.extended c isOk
    obtain ⟨kind, path_eq, handlers, _⟩ := same c
    exact ⟨wf c below, kind, path_eq, adds_inChild path_eq handlers before (after c)
      (below.adds.congr fun q g => reg_bump.symm)⟩
  · have inside := (whole all).child (before.mem_iff.mpr mem_cons_self)
    obtain ⟨kind, _, handlers, wildChild⟩ := same c
    exact (whole all).setChild handlers wildChild kind before (after c)
      (walked.extended c isOk).kind (walked.tight inside.bump c isOk)

/-- The rest of the path goes to a new child. -/
theorem addRest_newKid (shape : n = n.withKids kids wild) (text : isWild c = false)
    (wf : ∀ left right child, kids = left ++ right → Made .static child (c :: rest) h →
      Leads c child → Wf (n.withKids (left ++ (c, child) :: right) wild))
    (fits : condition → Fits n wild (c :: rest)) :
    let m := { n with indices := n.indices ++ [c] }.addChild { fullPath := fullPath }
    Added n (c :: rest) h condition
      ((m.incrementChildPrio (m.indices.length - 1)).1.atChild
        (m.incrementChildPrio (m.indices.length - 1)).2
        fun child => insertChild ((c :: rest).length + 1) child (c :: rest) fullPath h) := by
  have grown := addChild_withKids n kids wild c { fullPath := fullPath }
  rw [← shape] at grown
  have last : (n.withKids (kids ++ [(c, { fullPath := fullPath })]) wild).indices.length - 1 =
      kids.length := by
    simp [withKids]
  obtain ⟨left, right, rfl, moved⟩ := incrementChildPrio_spec n kids [] wild c
    { fullPath := fullPath }
  dsimp only
  rw [grown, last, moved, atChild_withKids, append_nil]
  have after child := withKids_children_perm n left right wild c child
  rw [← shape] at after
  have made child : insertChild ((c :: rest).length + 1)
      (bump { fullPath := fullPath }) (c :: rest) fullPath h = .ok child →
      Made .static child (c :: rest) h ∧ Leads c child :=
    insertChild_fresh ⟨rfl, rfl, rfl, rfl, rfl, rfl⟩ rfl text
  refine .map (insertChild_ran _ _ _ _ (Nat.lt_succ_self _)) (fun child inserted => ?_)
    fun all child inserted => ?_
  · obtain ⟨made, leads⟩ := made child inserted
    exact ⟨wf left right child rfl made leads, rfl, rfl,
      adds_newChild rfl rfl (after child) made.only⟩
  · exact @Tight.newChild _ n _ child rfl (after child) (fits all).below (fits all).content
      (made child inserted).1.tight

variable (here : TextNode n kids wild) (kidsWf : ∀ e ∈ kids, Wf e.2) (wildWf : ∀ w ∈ wild, Wf w)

include here kidsWf wildWf

theorem addRest_kid (walks : Walks walk n (c :: rest) h)
    (found : n.indices.findIdx? (· == c) = some pos) :
    Added n (c :: rest) h (Fits n wild (c :: rest))
      ((n.incrementChildPrio pos).1.atChild (n.incrementChildPrio pos).2 fun child =>
        walk child index) := by
  have whole : Fits n wild (c :: rest) → Tight n := by
    intro fits
    refine .node (fits.crowded.resolve_right fun split => ?_) fits.below
    rw [split.2 c rfl] at found
    cases found
  obtain ⟨front, child, back, rfl, rfl⟩ := exists_kid here.shape found
  obtain ⟨left, right, rfl, moved⟩ := incrementChildPrio_spec n front back wild c child
  rw [← here.shape] at moved
  rw [moved, atChild_withKids]
  have old : (c, child) ∈ left ++ right ++ (c, child) :: back := by simp
  have before := withKids_children_perm n (left ++ right) back wild c child
  rw [← here.shape, append_assoc] at before
  have other : child.nType ≠ .param := by
    intro isParam
    simpa [isParam] using here.kinds _ old
  have walked := walks child.bump index (kidsWf _ old).bump (enters_text (here.leads _ old) other)
    fun empty => by
      obtain ⟨_, _, holder, single, isHolder⟩ := here.bare empty
      rw [single, mem_singleton, Prod.mk.injEq] at old
      exact old.2 ▸ isHolder
  refine .inChild walked before (withKids_children_perm n left (right ++ back) wild c)
    (fun _ => ⟨rfl, rfl, rfl, here.wildChild.symm⟩) (fun child' below => ?_) whole
  exact .text (here.setKid below.kind (below.leads c rfl (here.leads _ old)))
    (forall_mem_exchanged kidsWf below.wf) wildWf

theorem addRest_wild (isWild : wild = some w) (notBare : n.path ≠ [])
    (walks : Walks walk n (c :: rest) h) : Added n (c :: rest) h (Fits n wild (c :: rest))
      (n.atChild (n.children.length - 1) fun w =>
        if continuesWild (c :: rest) w then walk w.bump index
        else .error (wildcardConflict (c :: rest) fullPath w)) := by
  subst isWild
  have step := atChild_wild n kids w fun w =>
    if continuesWild (c :: rest) w then walk w.bump index
    else .error (wildcardConflict (c :: rest) fullPath w)
  rw [← here.shape] at step
  rw [step]
  split
  case isFalse => exact .conflict w
  case isTrue continues =>
    have kind := here.named w rfl
    have before : n.children.Perm (w :: kids.map Prod.snd) := by
      rw [here.shape]
      exact perm_append_singleton w _
    have walked := walks w.bump index (wildWf w rfl).bump
      ⟨fun other => absurd kind other, fun _ => continuesWild_split continues⟩
      fun empty => absurd empty notBare
    refine .inChild walked before (fun w' => perm_append_singleton w' _)
      (fun _ => ⟨rfl, rfl, rfl, here.wildChild.symm⟩) (fun w' below => ?_)
      fun fits => .node (fits.crowded.resolve_right (by simp)) fits.below
    refine .text (here.setWild notBare (below.kind.trans kind)) kidsWf ?_
    rintro _ ⟨⟩
    exact below.wf

theorem addRest_text (next : n.path = [] → path.head? = some slash) (walks : Walks walk n path h) :
    Added n path h (Fits n wild path) (n.addRest walk path fullPath index h) := by
  cases path with
  | nil =>
    have notBare : n.path ≠ [] := fun empty => by cases next empty
    simp only [addRest]
    split_ifs with unset
    · exact .error (by simp)
    · refine .ok ⟨.text (here.setHandler notBare _ _) kidsWf wildWf, rfl, rfl, ?_⟩ fun fits =>
        .node (Or.inl rfl) fits.below
      rw [append_nil]
      exact adds_here (by simpa using unset) rfl rfl rfl
  | cons c rest =>
    simp only [addRest, here.ne_param, false_and, ↓reduceIte]
    cases found : n.indices.findIdx? (· == c) with
    | some pos => exact addRest_kid here kidsWf wildWf walks found
    | none =>
      have notBare : n.path ≠ [] := by
        intro empty
        obtain ⟨_, _, holder, single, _⟩ := here.bare empty
        obtain rfl : c = slash := by simpa using next empty
        exact absent_kid here.shape found (slash, holder) (by simp [single]) rfl
      by_cases text : isWild c = false
      · rw [if_pos ⟨text, here.ne_catchAll⟩]
        refine addRest_newKid here.shape text (fun left right child parted made leads => ?_) id
        subst parted
        exact .text (here.newKid (absent_kid here.shape found) notBare made.kind leads)
          (forall_mem_inserted kidsWf made.wf) wildWf
      · have isWild : isWild c = true := by simpa using text
        rw [if_neg (by simp [text])]
        cases wild with
        | some w =>
          rw [here.wildChild]
          exact addRest_wild here kidsWf wildWf rfl notBare walks
        | none =>
          have before : n.children = kids.map Prod.snd := by
            rw [here.shape]
            simp [withKids]
          have after : ∀ w, (n.withKids kids (some w)).children.Perm (w :: n.children) := by
            intro w
            rw [before]
            exact perm_append_singleton w _
          rw [here.wildChild]
          refine ⟨insertChild_ran _ _ _ _ (Nat.lt_succ_self _), fun m inserted => ?_,
            fun fits m inserted => ?_⟩
          · obtain ⟨w, rfl, made⟩ := insertChild_param here.shape isWild inserted
            refine ⟨.text (here.setWild notBare made.kind) kidsWf ?_, rfl, rfl,
              adds_newChild rfl rfl (after w) made.only⟩
            rintro _ ⟨⟩
            exact made.wf
          · obtain ⟨w, rfl, made⟩ := insertChild_param here.shape isWild inserted
            exact @Tight.newChild _ n _ w rfl (after w) fits.below fits.content made.tight

end

theorem atChild_single (single : n.children = [child]) (f : Node H → Except Panic (Node H)) :
    n.atChild 0 f = (f child).map fun child' => { n with children := [child'] } := by
  simp only [atChild, single, getElem?_cons_zero, set_cons_zero]
  cases f child with
  | error panic | ok child' => rfl

theorem addRest_param (here : ParamNode n) (wfBelow : ∀ c ∈ n.children, Wf c)
    (segment : Segment path) (walks : Walks walk n path h) :
    Added n path h (Tight n) (n.addRest walk path fullPath index h) := by
  rcases segment with rfl | ⟨rest, rfl⟩
  · simp only [addRest]
    split_ifs with unset
    · exact .error (by simp)
    · refine .ok ⟨.param { here with } wfBelow, rfl, rfl, ?_⟩ fun tight =>
        .node (Or.inl rfl) fun _ => tight.child
      rw [append_nil]
      exact adds_here (by simpa using unset) rfl rfl rfl
  · simp only [addRest]
    rcases here.single with ⟨noChild, noIndex⟩ | ⟨child, single⟩
    · have shape : n = n.withKids [] none := by
        obtain ⟨own, indices, wildChild, nType, priority, children, handlers, full⟩ := n
        obtain rfl : children = [] := noChild
        obtain rfl : indices = [] := noIndex
        obtain rfl : wildChild = false := here.wildChild
        rfl
      have text : isWild slash = false ∧ n.nType ≠ .catchAll := by
        rw [here.kind]
        decide
      have missing : n.indices.findIdx? (· == slash) = none := by
        rw [noIndex]
        rfl
      rw [if_neg (by simp [noChild]), missing]
      rw [if_pos text]
      refine addRest_newKid shape text.1 (fun left right child parted made leads => ?_) Tight.fits
      obtain ⟨rfl, rfl⟩ := append_eq_nil_iff.mp parted.symm
      exact .param ⟨here.kind, here.path, Or.inr ⟨child, rfl⟩, rfl,
        forall_mem_singleton.mpr made.kind, forall_mem_singleton.mpr leads⟩
        (forall_mem_singleton.mpr made.wf)
    · have mem : child ∈ n.children := by simp [single]
      have kind := here.kinds child mem
      rw [if_pos ⟨here.kind, trivial, by simp [single]⟩, atChild_single single]
      have walked := walks child.bump (index + n.path.length)
        (wfBelow child mem).bump (enters_text (here.leads child mem) (by simp [kind])) fun empty => by
          obtain ⟨name, named, _⟩ := here.path
          rw [empty] at named
          cases named
      refine .inChild walked (single ▸ Perm.refl _) (fun _ => Perm.refl _)
        (fun _ => ⟨rfl, rfl, rfl, rfl⟩) (fun child' below => ?_) id
      exact .param ⟨here.kind, here.path, Or.inr ⟨child', rfl⟩, here.wildChild,
        forall_mem_singleton.mpr (below.kind.trans kind),
        forall_mem_singleton.mpr (below.leads slash rfl (here.leads child mem))⟩
        (forall_mem_singleton.mpr below.wf)

theorem addRest_holder {leaf : Node H} (here : Holder n leaf) (next : path.head? = some slash) :
    Added n path h (Tight n) (n.addRest walk path fullPath index h) := by
  cases path with
  | nil => cases next
  | cons c rest =>
    obtain rfl : c = slash := by simpa using next
    have conflict : n.addRest walk (slash :: rest) fullPath index h =
        .error (wildcardConflict (slash :: rest) fullPath leaf) := by
      simp [addRest, here.kind, here.indices, here.wildChild, here.children, atChild,
        continuesWild, here.leafKind, bind, Except.bind]
    rw [conflict]
    exact .conflict leaf

end

variable {n : Node H} {path fullPath : Str} {i : Nat}

theorem reg_splitEdge (common : path.take i = n.path.take i) {q : Str} {g : H} :
    Reg (n.splitEdge path i fullPath) q g ↔ Reg n q g := by
  have whole : n.path = path.take i ++ n.path.drop i := by
    rw [common, take_append_drop]
  constructor
  · intro reg
    rcases reg_iff.mp reg with ⟨set, _⟩ | ⟨child, mem, rest, rfl, below⟩
    · cases set
    · obtain rfl := mem_singleton.mp mem
      rcases reg_iff.mp below with ⟨set, rfl⟩ | ⟨c, inside, more, rfl, deeper⟩
      · exact reg_iff.mpr (Or.inl ⟨set, whole.symm⟩)
      · refine reg_iff.mpr (Or.inr ⟨c, inside, more, ?_, deeper⟩)
        rw [← append_assoc]
        exact congrArg (· ++ more) whole.symm
  · intro reg
    refine reg_iff.mpr (Or.inr ⟨_, mem_singleton_self _, ?_⟩)
    rcases reg_iff.mp reg with ⟨set, rfl⟩ | ⟨c, inside, more, rfl, deeper⟩
    · exact ⟨n.path.drop i, whole, .here set⟩
    · refine ⟨n.path.drop i ++ more, ?_, .child inside deeper⟩
      rw [← append_assoc]
      exact congrArg (· ++ more) whole

theorem splitEdge_text {kids : List (UInt8 × Node H)} {wild : Option (Node H)}
    (here : TextNode n kids wild) (kidsWf : ∀ e ∈ kids, Wf e.2) (wildWf : ∀ w ∈ wild, Wf w)
    (positive : 0 < i) (inside : i < n.path.length) (common : path.take i = n.path.take i) :
    ∃ child, TextNode (n.splitEdge path i fullPath) [(n.path[i], child)] none ∧ Wf child := by
  have opened : n.path.drop i = n.path[i] :: n.path.drop (i + 1) := drop_eq_getElem_cons inside
  let child : Node H :=
    { path := n.path.drop i, wildChild := n.wildChild, nType := .static, indices := n.indices,
      children := n.children, handlers := n.handlers, priority := n.priority - 1,
      fullPath := n.fullPath }
  refine ⟨child, ⟨?_, here.kind, ?_, by simp, ?_, ?_, nofun, ?_⟩, ?_⟩
  · have first : (n.path.drop i).take 1 = [n.path[i]] := by
      rw [opened]
      rfl
    simp only [splitEdge, first]
    rfl
  · intro c mem
    apply here.plain
    exact take_subset i n.path (common ▸ mem)
  · exact forall_mem_singleton.mpr (Or.inl rfl)
  · refine forall_mem_singleton.mpr (Or.inl ?_)
    exact congrArg head? opened
  · intro empty
    have short : (n.path.take i).length = 0 := by
      rw [← common]
      exact congrArg length empty
    rw [length_take] at short
    omega
  · have below : TextNode child kids wild := by
      refine ⟨?_, Or.inl rfl, ?_, here.distinct, here.kinds, here.leads, here.named, ?_⟩
      · exact congrArg (fun m : Node H => { m with
          path := n.path.drop i, nType := .static, priority := n.priority - 1 }) here.shape
      · intro c mem
        exact here.plain c (drop_subset i n.path mem)
      · intro empty
        have short := congrArg length empty
        simp only [child, length_drop, length_nil] at short
        omega
    exact .text below kidsWf wildWf

theorem Leads.slash {b : UInt8} (leads : Leads b n) (empty : n.path = []) : b = slash := by
  rcases leads with head | ⟨_, same⟩
  · rw [empty] at head
    cases head
  · exact same

theorem Added.walked {h : H} {condition : Prop} (added : Added n rest h condition result)
    (met : Tight n → condition) (whole : n.path ++ rest = path) : Walked n path h result where
  ran := added.ran
  extended m isOk := by
    obtain ⟨wf, kind, path_eq, adds⟩ := added.grown m isOk
    refine ⟨wf, kind, ?_, whole ▸ adds⟩
    intro c _ leads
    rwa [Leads, path_eq]
  tight tight := added.tight (met tight)

theorem addWalk_walked {fuel : Nat} {index : Nat} {h : H} (wf : Wf n) (enters : Enters n path)
    (enough : path.length < fuel ∨ n.nType = .catchAll ∧ 0 < fuel) :
    Walked n path h (n.addWalk fuel path fullPath index h) := by
  induction fuel generalizing n path index with
  | zero => omega
  | succ fuel ih =>
    have common := Str.take_longestCommonPrefix path n.path
    rw [addWalk]
    cases wf with
    | text here kidsWf wildWf =>
      obtain ⟨b, first, leads⟩ := enters.text here.ne_param
      have started : 0 < path.length := length_pos_iff.mpr (by
        rintro rfl
        cases first)
      have enough := enough.resolve_right fun other => here.ne_catchAll other.1
      have positive : n.path ≠ [] → 0 < Str.longestCommonPrefix path n.path := by
        intro nonempty
        exact Str.longestCommonPrefix_pos first (leads.resolve_right fun empty => nonempty empty.1)
      generalize place : Str.longestCommonPrefix path n.path = i at common positive
      by_cases inside : i < n.path.length
      · have positive := positive (by
          rintro empty
          simp [empty] at inside)
        have head : (path.take i).head? = some b := by
          rw [head?_take, if_neg (by omega), first]
        obtain ⟨child, split, childWf⟩ :=
          splitEdge_text here kidsWf wildWf positive inside common
        simp only [inside, ↓reduceIte]
        have walks : Walks (fun child index => child.addWalk fuel (path.drop i) fullPath index h)
            (n.splitEdge path i (fullPath.take (index + i))) (path.drop i) h := by
          intro child index wf enters _
          refine ih wf enters (Or.inl ?_)
          rw [length_drop]
          omega
        obtain ⟨ran, grown, tightened⟩ := addRest_text split
          (forall_mem_singleton.mpr childWf) (by simp) (fun empty => by
            have nothing : path.take i = [] := empty
            rw [nothing] at head
            cases head) walks
        refine ⟨ran, fun m isOk => ?_, fun tight => tightened ⟨?_, Or.inr (by simp [splitEdge]),
          Or.inr ⟨rfl, ?_⟩⟩⟩
        · obtain ⟨wf, kind, path_eq, adds⟩ := grown m isOk
          refine ⟨wf, kind, ?_, ?_⟩
          · intro c starts _
            refine Or.inl ?_
            rwa [path_eq, ← starts, first]
          · have whole :
                (n.splitEdge path i (fullPath.take (index + i))).path ++ path.drop i = path :=
              take_append_drop i path
            intro q g
            rw [adds q g, reg_splitEdge common, whole]
        · exact forall_mem_singleton.mpr (tight.retype rfl rfl rfl here.ne_param)
        · intro c next
          obtain ⟨rest, opened⟩ := head?_eq_some_iff.mp next
          have differs : c ≠ n.path[i] := Str.longestCommonPrefix_split
            (by rw [place, opened]) (by rw [place, drop_eq_getElem_cons inside])
          rw [split.shape, findIdx?_eq_none_iff]
          intro d mem
          rw [mem_singleton.mp mem]
          exact beq_eq_false_iff_ne.mpr differs.symm
      · have whole : n.path ++ path.drop i = path := by
          rw [take_of_length_le (Nat.not_lt.mp inside)] at common
          rw [← common, take_append_drop]
        simp only [inside, ↓reduceIte]
        refine (addRest_text here kidsWf wildWf (fun empty => ?_)
          fun child index wf enters bare => ih wf enters ?_).walked (fun tight => tight.fits) whole
        · rw [empty, nil_append] at whole
          rw [whole, first, leads.slash empty]
        · by_cases empty : n.path = []
          · exact Or.inr ⟨bare empty, by omega⟩
          · have positive := positive empty
            refine Or.inl ?_
            rw [length_drop]
            omega
    | param here below =>
      obtain ⟨rest, rfl, segment⟩ := enters.param here.kind
      have place := Str.longestCommonPrefix_append n.path rest
      have tail : (n.path ++ rest).drop n.path.length = rest := drop_left
      have positive : 0 < n.path.length := by
        obtain ⟨name, named, _⟩ := here.path
        simp [named]
      simp only [place, Nat.lt_irrefl, ↓reduceIte, tail]
      refine (addRest_param here below segment
        fun child index wf enters _ => ih wf enters (Or.inl ?_)).walked id rfl
      simp only [length_append, here.kind, reduceCtorEq, false_and, or_false] at enough
      omega
    | holder here =>
      have notParam : n.nType ≠ .param := by simp [here.kind]
      obtain ⟨b, first, leads⟩ := enters.text notParam
      have place : Str.longestCommonPrefix path n.path = 0 :=
        Nat.le_zero.mp (here.path ▸ Str.longestCommonPrefix_le_right path n.path)
      have short : ¬ 0 < n.path.length := by simp [here.path]
      simp only [place, short, ↓reduceIte, drop_zero]
      exact (addRest_holder here (leads.slash here.path ▸ first)).walked id (by rw [here.path]; rfl)

end FastGoZero.HttpRouter
