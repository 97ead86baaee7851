import FastGoZero.Search.Items

/-!
# Correctness of `Search`

A search finds an item below a node exactly if the keys of some item match the segments of the
path. Of the routes that match it prefers plain segments to named ones from the left on, and the
parameters are those of the route it returns: a branch that fails leaves none behind.
-/

namespace FastGoZero.Search

open Lib List Option

universe u
variable {I : Type u}

/-- A `:name` segment matches every segment, a plain one its equals. -/
def segmentMatches (pat token : Str) : Bool := Node.isNamed pat || pat == token

def matchesAll : List Str → List Str → Bool
  | [], [] => true
  | pat :: pats, token :: tokens => segmentMatches pat token && matchesAll pats tokens
  | _, _ => false

/-- Keys match a path with or without the empty segment after a slash at its end. -/
def matchesPath (keys : List Str) (token : Str) (rest : List Str) : Bool :=
  matchesAll keys (token :: rest) || matchesAll keys (trim token rest)

/-- The names of the keys, with the segments that they match. -/
def bindings : List Str → List Str → List (Str × Str)
  | pat :: pats, token :: tokens =>
    if Node.isNamed pat then (pat.tail, token) :: bindings pats tokens else bindings pats tokens
  | _, _ => []

/-- The keys agree up to a position at which the first have a plain segment and the second a
named one. -/
def Preferred (first second : List Str) : Prop :=
  ∃ common plain named rest rest', first = common ++ plain :: rest ∧
    second = common ++ named :: rest' ∧ Node.isNamed plain = false ∧ Node.isNamed named = true

theorem not_preferred_nil (first : List Str) : ¬ Preferred first [] := by
  rintro ⟨common, plain, named, rest, rest', -, second, -, -⟩
  exact absurd second (by simp)

variable {keys : List Str} {k : Str}

theorem Preferred.cons_cases {k' : Str} {keys' : List Str}
    (preferred : Preferred (k :: keys) (k' :: keys')) :
    (Node.isNamed k = false ∧ Node.isNamed k' = true) ∨ (k = k' ∧ Preferred keys keys') := by
  obtain ⟨common, plain, named, rest, rest', first, second, isPlain, isNamed⟩ := preferred
  cases common with
  | nil =>
    left
    rw [(cons.inj first).1, (cons.inj second).1]
    exact ⟨isPlain, isNamed⟩
  | cons c common =>
    right
    obtain ⟨rfl, firstTail⟩ := cons.inj first
    obtain ⟨rfl, secondTail⟩ := cons.inj second
    exact ⟨rfl, common, plain, named, rest, rest', firstTail, secondTail, isPlain, isNamed⟩

theorem not_nil_preferred (second : List Str) : ¬ Preferred [] second := by
  rintro ⟨common, plain, named, rest, rest', first, -, -, -⟩
  exact absurd first (by simp)

theorem matchesPath_nil (token : Str) : matchesPath [] token [] = (token == []) := by
  by_cases empty : token = []
  · subst empty
    rfl
  · simp [matchesPath, matchesAll, trim, empty]

theorem matchesPath_nil_cons (token next : Str) (rest : List Str) :
    matchesPath [] token (next :: rest) = false := rfl

theorem matchesPath_last (k : Str) (keys : List Str) (token : Str) :
    matchesPath (k :: keys) token [] = (segmentMatches k token && matchesAll keys []) := by
  by_cases empty : token = [] <;> simp [matchesPath, matchesAll, trim, empty]

theorem matchesPath_cons (k : Str) (keys : List Str) (token next : Str) (rest : List Str) :
    matchesPath (k :: keys) token (next :: rest) =
      (segmentMatches k token && matchesPath keys next rest) := by
  rw [matchesPath, matchesAll, trim, matchesAll, matchesPath, Bool.and_or_distrib_left]

/-- What `match` returns for a key that is not empty. -/
theorem matchToken_eq (nonempty : k ≠ []) (token : Str) :
    ∃ r, matchToken k token = some r ∧ r.found = segmentMatches k token ∧
      ∀ result : Result I, r.addTo result =
        if Node.isNamed k then addParam result k.tail token else result := by
  cases k with
  | nil => exact absurd rfl nonempty
  | cons b name =>
    by_cases named : b = colon
    · refine ⟨_, by rw [matchToken, if_pos named], ?_, ?_⟩
      · simp [segmentMatches, Node.isNamed, named]
      · intro result
        simp [InnerResult.addTo, Node.isNamed, named]
    · refine ⟨_, by rw [matchToken, if_neg named], ?_, ?_⟩
      · simp [segmentMatches, Node.isNamed, named]
      · intro result
        simp [InnerResult.addTo, Node.isNamed, named]

variable {fn : Str → Node I → Result I → Option (Bool × Result I)} {result : Result I}

/-- A loop in which no child panics, and a child that fails leaves the result as it is. -/
theorem forEachLoop_cases (children : Children I)
    (each : ∀ c ∈ children, (∃ found, fn c.1 c.2 result = some (true, found)) ∨
      fn c.1 c.2 result = some (false, result)) :
    (∃ before c after found, children = before ++ c :: after ∧
        (∀ c ∈ before, fn c.1 c.2 result = some (false, result)) ∧
        fn c.1 c.2 result = some (true, found) ∧
        forEachLoop fn children result = some (true, found)) ∨
      ((∀ c ∈ children, fn c.1 c.2 result = some (false, result)) ∧
        forEachLoop fn children result = some (false, result)) := by
  induction children with
  | nil =>
    right
    exact ⟨by simp, rfl⟩
  | cons c children ih =>
    rcases each c mem_cons_self with ⟨found, hit⟩ | miss
    · left
      refine ⟨[], c, children, found, rfl, by simp, hit, ?_⟩
      rw [forEachLoop, hit]
    · have loop : forEachLoop fn (c :: children) result = forEachLoop fn children result := by
        rw [forEachLoop, miss]
      rw [loop]
      rcases ih fun c mem => each c (mem_cons_of_mem _ mem) with
        ⟨before, hit, after, found, split, missed, isHit, answer⟩ | ⟨missed, answer⟩
      · left
        exact ⟨c :: before, hit, after, found, by rw [split, cons_append],
          forall_mem_cons.mpr ⟨miss, missed⟩, isHit, answer⟩
      · right
        exact ⟨forall_mem_cons.mpr ⟨miss, missed⟩, answer⟩

namespace Node

/-- The keys of an item that matches, and that no other match is preferred to. -/
structure Hit (nd : Node I) (matching : List Str → Bool) (keys : List Str) (item : I) :
    Prop where
  found : nd.itemAt keys = some item
  isMatch : matching keys = true
  best : ∀ other, (nd.itemAt other).isSome → matching other = true → ¬ Preferred other keys

/-- Nothing below the node matches. -/
def Miss (nd : Node I) (matching : List Str → Bool) : Prop :=
  ∀ keys, (nd.itemAt keys).isSome → matching keys = false

section

variable {nd : Node I} {matching matching' : List Str → Bool}
  (same : ∀ keys, (nd.itemAt keys).isSome → matching keys = matching' keys)

include same

theorem Hit.of_same {item : I} (hit : nd.Hit matching keys item) : nd.Hit matching' keys item where
  found := hit.found
  isMatch := by
    rw [← same keys (by rw [hit.found]; rfl)]
    exact hit.isMatch
  best other present isMatch :=
    hit.best other present ((same other present).trans isMatch)

theorem Miss.of_same (miss : nd.Miss matching) : nd.Miss matching' := by
  intro keys present
  rw [← same keys present]
  exact miss keys present

end

/-- Matching one segment with the key of a child and the others below it. -/
def under (token : Str) (matching : List Str → Bool) : List Str → Bool
  | [] => false
  | k :: keys => segmentMatches k token && matching keys

variable {c : Sigma fun _ : Str => Node I} {nd : Node I}

theorem Valid.mem_statics (valid : nd.Valid) (mem : c ∈ nd.statics) :
    c.1 ≠ [] ∧ isNamed c.1 = false ∧ (nd.getChildren c.1).dlookup c.1 = some c.2 := by
  cases valid with
  | mk distinctStatics distinctNamed statics named staticsValid namedValid =>
    obtain ⟨nonempty, isStatic⟩ := statics c mem
    refine ⟨nonempty, isStatic, ?_⟩
    rw [getChildren, if_neg (Bool.eq_false_iff.mp isStatic)]
    exact mem_dlookup distinctStatics mem

theorem Valid.mem_named (valid : nd.Valid) (mem : c ∈ nd.named) :
    c.1 ≠ [] ∧ isNamed c.1 = true ∧ (nd.getChildren c.1).dlookup c.1 = some c.2 := by
  cases valid with
  | mk distinctStatics distinctNamed statics named staticsValid namedValid =>
    have isNamed := named c mem
    refine ⟨ne_nil_of_isNamed isNamed, isNamed, ?_⟩
    rw [getChildren, if_pos isNamed]
    exact mem_dlookup distinctNamed mem

theorem exists_child (found : (nd.itemAt (k :: keys)).isSome) :
    ∃ v, (nd.getChildren k).dlookup k = some v ∧ (v.itemAt keys).isSome := by
  cases child : (nd.getChildren k).dlookup k with
  | none =>
    rw [itemAt_cons_of_none keys child] at found
    exact absurd found (by simp)
  | some v =>
    rw [itemAt_cons_of_some keys child] at found
    exact ⟨v, rfl, found⟩

def visited (nd : Node I) (visits : Visits I) (place : List Str) : Children I :=
  visits.order place false nd.statics ++ visits.order place true nd.named

section

variable {nd : Node I} (valid : nd.Valid) (visits : Visits I) (place : List Str)

include valid

theorem Valid.mem_visited :
    c ∈ nd.visited visits place ↔ (nd.getChildren c.1).dlookup c.1 = some c.2 := by
  rw [visited, mem_append, (visits.perm ..).mem_iff, (visits.perm ..).mem_iff]
  constructor
  · rintro (plain | named)
    · exact (valid.mem_statics plain).2.2
    · exact (valid.mem_named named).2.2
  · intro found
    rw [getChildren] at found
    split at found
    · exact Or.inr (of_mem_dlookup found)
    · exact Or.inl (of_mem_dlookup found)

theorem Valid.visited_ne_nil (mem : c ∈ nd.visited visits place) : c.1 ≠ [] := by
  rw [visited, mem_append, (visits.perm ..).mem_iff, (visits.perm ..).mem_iff] at mem
  rcases mem with plain | named
  · exact (valid.mem_statics plain).1
  · exact (valid.mem_named named).1

/-- The plain children are visited before every named one. -/
theorem Valid.plain_before {before after : Children I} {other : Sigma fun _ : Str => Node I}
    (split : nd.visited visits place = before ++ c :: after) (named : isNamed c.1 = true)
    (mem : other ∈ nd.visited visits place) (plain : isNamed other.1 = false) : other ∈ before := by
  have statics : other ∈ visits.order place false nd.statics := by
    rw [visited, mem_append] at mem
    rcases mem with isStatic | isNamed
    · exact isStatic
    · have contrary := (valid.mem_named ((visits.perm ..).mem_iff.mp isNamed)).2.1
      rw [plain] at contrary
      exact absurd contrary Bool.false_ne_true
  rw [visited] at split
  rcases append_eq_append_iff.mp split with ⟨more, front, -⟩ | ⟨more, front, back⟩
  · rw [front]
    exact mem_append_left _ statics
  · cases more with
    | nil =>
      rw [append_nil] at front
      rwa [← front]
    | cons d more =>
      -- the named child would be a plain one
      obtain ⟨rfl, -⟩ := cons.inj back
      have among : c ∈ nd.statics := (visits.perm ..).mem_iff.mp (by rw [front]; simp)
      have contrary := (valid.mem_statics among).2.1
      rw [named] at contrary
      exact absurd contrary.symm Bool.false_ne_true

/-- The loop over the children of a node finds the best match below them. -/
theorem Valid.forEach_cases (token : Str) (matching : List Str → Bool)
    {outcome : Option (Bool × Result I)} (answer : Str → List Str → I → Result I)
    (run : nd.forEach visits place fn result = outcome)
    (each : ∀ k v, (nd.getChildren k).dlookup k = some v → k ≠ [] →
      (∃ keys item, segmentMatches k token = true ∧ v.Hit matching keys item ∧
          fn k v result = some (true, answer k keys item)) ∨
        ((segmentMatches k token = true → v.Miss matching) ∧
          fn k v result = some (false, result))) :
    (∃ k keys item, nd.Hit (under token matching) (k :: keys) item ∧
        outcome = some (true, answer k keys item)) ∨
      (nd.Miss (under token matching) ∧ outcome = some (false, result)) := by
  subst run
  have eachVisited : ∀ c ∈ nd.visited visits place,
      (∃ keys item, segmentMatches c.1 token = true ∧ c.2.Hit matching keys item ∧
          fn c.1 c.2 result = some (true, answer c.1 keys item)) ∨
        ((segmentMatches c.1 token = true → c.2.Miss matching) ∧
          fn c.1 c.2 result = some (false, result)) := by
    intro c mem
    exact each c.1 c.2 ((valid.mem_visited visits place).mp mem)
      (valid.visited_ne_nil visits place mem)
  have missed {k : Str} {v : Node I} {keys : List Str}
      (mem : (⟨k, v⟩ : Sigma fun _ : Str => Node I) ∈ nd.visited visits place)
      (miss : fn k v result = some (false, result)) (found : (v.itemAt keys).isSome) :
      under token matching (k :: keys) = false := by
    rcases eachVisited _ mem with ⟨keys, item, -, -, hit⟩ | ⟨none, -⟩
    · rw [miss] at hit
      exact absurd hit (by simp)
    · rw [under]
      cases same : segmentMatches k token with
      | false => rfl
      | true => exact none same keys found
  have eachAnswers : ∀ c ∈ nd.visited visits place,
      (∃ found, fn c.1 c.2 result = some (true, found)) ∨
        fn c.1 c.2 result = some (false, result) := by
    intro c mem
    rcases eachVisited c mem with ⟨keys, item, -, -, answered⟩ | ⟨-, failed⟩
    · exact Or.inl ⟨_, answered⟩
    · exact Or.inr failed
  rcases forEachLoop_cases (nd.visited visits place) eachAnswers with
    ⟨before, c, after, found, split, beforeMissed, isHit, loop⟩ | ⟨allMissed, loop⟩
  · left
    have mem : c ∈ nd.visited visits place := by
      rw [split]
      simp
    have child := (valid.mem_visited visits place).mp mem
    rcases eachVisited c mem with ⟨keys, item, same, hit, answered⟩ | ⟨-, failed⟩
    · rw [answered] at isHit
      obtain rfl := (Prod.mk.inj (some.inj isHit)).2
      refine ⟨c.1, keys, item, ⟨?_, ?_, ?_⟩, loop⟩
      · rw [itemAt_cons_of_some keys child]
        exact hit.found
      · rw [under, same, hit.isMatch]
        rfl
      · intro other present isMatch preferred
        cases other with
        | nil => exact not_nil_preferred _ preferred
        | cons k others =>
          obtain ⟨v, stored, below⟩ := exists_child present
          have visitedToo := (valid.mem_visited visits place (c := ⟨k, v⟩)).mpr stored
          rcases preferred.cons_cases with ⟨plain, named⟩ | ⟨rfl, preferredBelow⟩
          · -- a plain child was tried before
            have earlier := valid.plain_before visits place split named visitedToo plain
            rw [missed visitedToo (beforeMissed _ earlier) below] at isMatch
            exact absurd isMatch Bool.false_ne_true
          · cases stored.symm.trans child
            rw [under, same, Bool.true_and] at isMatch
            exact hit.best others below isMatch preferredBelow
    · rw [failed] at isHit
      exact absurd isHit (by simp)
  · right
    refine ⟨?_, loop⟩
    intro keys present
    cases keys with
    | nil => rfl
    | cons k keys =>
      obtain ⟨v, stored, below⟩ := exists_child present
      have visitedToo := (valid.mem_visited visits place (c := ⟨k, v⟩)).mpr stored
      exact missed visitedToo (allMissed _ visitedToo) below

end

end Node

/-- The parameters are added from the last one on. -/
def addBindings (pairs : List (Str × Str)) (params : GoMap Str Str) : GoMap Str Str :=
  pairs.foldr (fun pair params => params.insert pair.1 pair.2) params

theorem addBindings_bindings_cons (k token : Str) (keys rest : List Str) (params : GoMap Str Str) :
    addBindings (bindings (k :: keys) (token :: rest)) params =
      if Node.isNamed k then (addBindings (bindings keys rest) params).insert k.tail token
      else addBindings (bindings keys rest) params := by
  rw [bindings]
  split <;> rfl

namespace Node

/-- A search below a node never panics. It finds the best match and adds its parameters, or there
is no match and it leaves the result as it is. -/
theorem Valid.next_cases {nd : Node I} (valid : nd.Valid) (visits : Visits I)
    (place : List Str) (token : Str) (rest : List Str) (result : Result I) :
    (∃ keys item, nd.Hit (fun keys => matchesPath keys token rest) keys item ∧
        nd.next visits place token rest result =
          some (true, ⟨some item, addBindings (bindings keys (token :: rest)) result.params⟩)) ∨
      (nd.Miss (fun keys => matchesPath keys token rest) ∧
        nd.next visits place token rest result = some (false, result)) := by
  induction rest generalizing nd place token result with
  | nil =>
    unfold next
    split
    · rename_i here
      obtain ⟨rfl, present⟩ := here
      obtain ⟨item, found⟩ := isSome_iff_exists.mp present
      left
      refine ⟨[], item, ⟨found, rfl, ?_⟩, ?_⟩
      · intro other _ _
        exact not_preferred_nil other
      · rw [found]
        rfl
    · rename_i below
      have same : ∀ keys, (nd.itemAt keys).isSome →
          under token (fun keys => matchesAll keys []) keys = matchesPath keys token [] := by
        intro keys present
        cases keys with
        | nil =>
          have other : token ≠ [] := fun empty => below ⟨empty, present⟩
          rw [matchesPath_nil]
          exact (beq_eq_false_iff_ne.mpr other).symm
        | cons k keys => exact (matchesPath_last k keys token).symm
      generalize run : nd.forEach visits place _ result = outcome
      refine Or.imp ?_ ?_ (valid.forEach_cases visits place token (fun keys => matchesAll keys [])
        (fun k keys item =>
          ⟨some item, addBindings (bindings (k :: keys) [token]) result.params⟩) run ?_)
      · rintro ⟨k, keys, item, hit, answer⟩
        exact ⟨k :: keys, item, hit.of_same same, answer⟩
      · rintro ⟨miss, answer⟩
        exact ⟨miss.of_same same, answer⟩
      · intro k v stored nonempty
        obtain ⟨r, matched, found, adds⟩ := matchToken_eq (I := I) nonempty token
        simp only [matched]
        by_cases hit : r.found = true ∧ v.item.isSome = true
        · left
          obtain ⟨item, isItem⟩ := isSome_iff_exists.mp hit.2
          refine ⟨[], item, by rw [← found, hit.1], ⟨isItem, rfl, ?_⟩, ?_⟩
          · intro other _ _
            exact not_preferred_nil other
          · rw [if_pos hit, adds, addBindings_bindings_cons, isItem]
            split <;> rfl
        · right
          refine ⟨?_, by rw [if_neg hit]⟩
          intro same keys present
          cases keys with
          | nil => exact absurd ⟨found.trans same, present⟩ hit
          | cons k' keys => rfl
  | cons follow rest ih =>
    have same : (fun keys => matchesPath keys token (follow :: rest)) =
        under token fun keys => matchesPath keys follow rest := by
      funext keys
      cases keys with
      | nil => exact matchesPath_nil_cons token follow rest
      | cons k keys => exact matchesPath_cons k keys token follow rest
    rw [same]
    unfold next
    generalize run : nd.forEach visits place _ result = outcome
    refine Or.imp ?_ id (valid.forEach_cases visits place token
      (fun keys => matchesPath keys follow rest)
      (fun k keys item =>
        ⟨some item, addBindings (bindings (k :: keys) (token :: follow :: rest)) result.params⟩)
      run ?_)
    · rintro ⟨k, keys, item, hit, answer⟩
      exact ⟨k :: keys, item, hit, answer⟩
    · intro k v stored nonempty
      obtain ⟨r, matched, found, adds⟩ := matchToken_eq (I := I) nonempty token
      simp only [matched]
      by_cases hit : r.found = true
      · rw [if_pos hit]
        rcases ih (valid.child stored) (place ++ [k]) follow result with
          ⟨keys, item, isHit, answer⟩ | ⟨miss, answer⟩
        · left
          refine ⟨keys, item, by rw [← found, hit], isHit, ?_⟩
          rw [answer]
          simp only
          rw [adds, addBindings_bindings_cons]
          split <;> rfl
        · right
          exact ⟨fun _ => miss, by rw [answer]⟩
      · right
        refine ⟨?_, by rw [if_neg hit]⟩
        intro same
        exact absurd (found.trans same) hit

end Node

/-- The route matches the path segment by segment; an empty segment after a slash at the end of
the route does not count, and one at the end of the path need not. -/
def routeMatches (route path : Str) : Bool :=
  matchesPath (segments route) (split path.tail).1 (split path.tail).2

def pathSegments (path : Str) : List Str :=
  (split path.tail).1 :: (split path.tail).2

def names (route : Str) : List Str :=
  ((segments route).filter Node.isNamed).map List.tail

theorem lookup_addBindings {pairs : List (Str × Str)}
    (distinct : (pairs.map Prod.fst).Nodup) (name value : Str) :
    (addBindings pairs ∅).lookup name = some value ↔ (name, value) ∈ pairs := by
  induction pairs with
  | nil => simp [addBindings]
  | cons pair pairs ih =>
    obtain ⟨fresh, rest⟩ := nodup_cons.mp distinct
    have step : addBindings (pair :: pairs) ∅ = (addBindings pairs ∅).insert pair.1 pair.2 := rfl
    rw [step, GoMap.lookup_insert_if, mem_cons]
    by_cases same : name = pair.1
    · subst same
      rw [if_pos rfl]
      constructor
      · intro here
        left
        rw [← some.inj here]
      · rintro (here | later)
        · rw [← here]
        · exact absurd (mem_map.mpr ⟨_, later, rfl⟩) fresh
    · rw [if_neg same, ih rest]
      constructor
      · exact Or.inr
      · rintro (here | later)
        · exact absurd (congrArg Prod.fst here) same
        · exact later

theorem bindings_of_matchesAll {tokens : List Str} (more : List Str)
    (isMatch : matchesAll keys tokens = true) : (bindings keys (tokens ++ more)).map Prod.fst =
      (keys.filter Node.isNamed).map tail := by
  induction keys generalizing tokens with
  | nil => rfl
  | cons k keys ih =>
    cases tokens with
    | nil => exact absurd isMatch Bool.false_ne_true
    | cons token tokens =>
      rw [matchesAll, Bool.and_eq_true] at isMatch
      have below := ih isMatch.2
      rw [cons_append, bindings, filter_cons]
      split
      · rw [map_cons, map_cons, below]
      · exact below

theorem trim_append (token : Str) (rest : List Str) :
    ∃ more, token :: rest = trim token rest ++ more := by
  induction rest generalizing token with
  | nil =>
    rw [trim]
    split
    · exact ⟨[token], rfl⟩
    · exact ⟨[], rfl⟩
  | cons next rest ih =>
    obtain ⟨more, same⟩ := ih next
    exact ⟨more, congrArg (cons token) same⟩

theorem bindings_fst {route path : Str} (isMatch : routeMatches route path = true) :
    (bindings (segments route) (pathSegments path)).map Prod.fst = names route := by
  rw [routeMatches, matchesPath, Bool.or_eq_true] at isMatch
  rcases isMatch with whole | trimmed
  · have bound := bindings_of_matchesAll [] whole
    rwa [append_nil] at bound
  · obtain ⟨more, same⟩ := trim_append (split path.tail).1 (split path.tail).2
    rw [pathSegments, same]
    exact bindings_of_matchesAll more trimmed

/-- A search in a tree that holds some routes: it finds the best of those that match, or none of
them matches. -/
theorem Tree.Holds.search_cases {t : Tree I} {routes : List (Str × I)}
    (holds : t.Holds routes) (visits : Visits I) (path : Str) :
    (∃ route item, (route, item) ∈ routes ∧ path.head? = some slash ∧
        routeMatches route path = true ∧
        (∀ other ∈ routes, routeMatches other.1 path = true →
          ¬ Preferred (segments other.1) (segments route)) ∧
        t.search visits path = some
          (⟨some item, addBindings (bindings (segments route) (pathSegments path)) ∅⟩, true)) ∨
      ((path.head? = some slash → ∀ entry ∈ routes, routeMatches entry.1 path = false) ∧
        t.search visits path = some (notFound, false)) := by
  have present {entry : Str × I} (mem : entry ∈ routes) :
      (t.root.itemAt (segments entry.1)).isSome := by
    rw [(holds.itemAt_iff _ entry.2).mpr ⟨entry.1, mem, rfl⟩]
    rfl
  unfold search
  split
  · right
    exact ⟨by simp, rfl⟩
  · rename_i b text
    split
    · rename_i unrooted
      right
      refine ⟨?_, rfl⟩
      intro rooted
      exact absurd (some.inj rooted) unrooted
    · rename_i rooted
      obtain rfl := not_not.mp rooted
      rcases holds.valid.next_cases visits [] (split text).1 (split text).2 notFound with
        ⟨keys, item, hit, answer⟩ | ⟨miss, answer⟩
      · left
        obtain ⟨route, mem, rfl⟩ := (holds.itemAt_iff keys item).mp hit.found
        refine ⟨route, item, mem, rfl, hit.isMatch, ?_, ?_⟩
        · intro other otherMember isMatch
          exact hit.best _ (present otherMember) isMatch
        · rw [answer]
          rfl
      · right
        refine ⟨?_, by rw [answer]⟩
        intro _ entry mem
        exact miss _ (present mem)

theorem Tree.search_newTree (visits : Visits I) (path : Str) :
    (newTree : Tree I).search visits path = some (notFound, false) := by
  rcases holds_newTree.search_cases visits path with ⟨route, item, mem, -⟩ | ⟨-, answer⟩
  · exact absurd mem (by simp)
  · exact answer

/-- A search for a path never panics. It succeeds exactly if an added route matches the path, and
returns the item of one that matches, to which no other match is preferred. The parameters are the
names of that route with the segments they match. -/
theorem Tree.search_correct (calls : List (Str × Option I)) (visits : Visits I)
    (path : Str) (rooted : path.head? = some slash) :
    ∃ result ok, ((newTree : Tree I).after calls).search visits path = some (result, ok) ∧
      (ok = true ↔ ∃ entry ∈ (newTree : Tree I).added calls, routeMatches entry.1 path = true) ∧
      (ok = true → ∃ route item, (route, item) ∈ (newTree : Tree I).added calls ∧
        result.item = some item ∧ routeMatches route path = true ∧
        (∀ other ∈ (newTree : Tree I).added calls, routeMatches other.1 path = true →
          ¬ Preferred (segments other.1) (segments route)) ∧
        ((names route).Nodup →
          (bindings (segments route) (pathSegments path)).map Prod.fst = names route ∧
          ∀ name value, result.params.lookup name = some value ↔
            (name, value) ∈ bindings (segments route) (pathSegments path))) := by
  rcases (holds_after calls).search_cases visits path with
    ⟨route, item, mem, -, isMatch, best, answer⟩ | ⟨none, answer⟩
  · refine ⟨_, true, answer, iff_of_true rfl ⟨(route, item), mem, isMatch⟩, fun _ => ?_⟩
    refine ⟨route, item, mem, rfl, isMatch, best, ?_⟩
    intro distinct
    have bound := bindings_fst isMatch
    rw [← bound] at distinct
    exact ⟨bound, fun name value => lookup_addBindings distinct name value⟩
  · refine ⟨_, false, answer, iff_of_false Bool.false_ne_true ?_, by simp⟩
    rintro ⟨entry, mem, isMatch⟩
    rw [none rooted entry mem] at isMatch
    exact Bool.false_ne_true isMatch

def Visits.stored : Visits I := ⟨fun _ _ children => children, fun _ _ children => .refl children⟩

open Str (bytes)

/-- The search leaves the plain segment `a` again. -/
theorem Tree.search_correct_backtracks :
    ∃ result : Result Nat,
      ((newTree : Tree Nat).after [(bytes "/a/:x/c", some 1), (bytes "/:y/b/d", some 2)]).search
        .stored (bytes "/a/b/d") = some (result, true) ∧
      result.item = some 2 ∧ result.params.lookup (bytes "y") = some (bytes "a") := by
  obtain ⟨result, ok, run, success, answer⟩ := search_correct
    [(bytes "/a/:x/c", some 1), (bytes "/:y/b/d", some 2)] Visits.stored (bytes "/a/b/d")
    (by decide)
  have added : (newTree : Tree Nat).added
      [(bytes "/a/:x/c", some 1), (bytes "/:y/b/d", some 2)] =
        [(bytes "/a/:x/c", 1), (bytes "/:y/b/d", 2)] := by decide
  rw [added] at success answer
  have found : ok = true := success.mpr ⟨(bytes "/:y/b/d", 2), by simp, by decide⟩
  subst found
  obtain ⟨route, item, mem, isItem, isMatch, -, params⟩ := answer rfl
  rcases mem_pair.mp mem with first | second
  · rw [(Prod.mk.inj first).1] at isMatch
    exact absurd isMatch (by decide)
  · obtain ⟨rfl, rfl⟩ := Prod.mk.inj second
    exact ⟨result, run, isItem, ((params (by decide)).2 _ _).mpr (by decide)⟩

/-- A slash at the end of a route is not stored, so the path with one more slash is not found,
although it is the route with a slash after it. -/
theorem Tree.search_misses_doubled_slash :
    (newTree.added [(bytes "/a/", some 1)] = [(bytes "/a/", 1)]) ∧
      bytes "/a//" = bytes "/a/" ++ [slash] ∧
      matchesAll (pathSegments (bytes "/a/")) (segments (bytes "/a//")) = true ∧
      (((newTree.after [(bytes "/a/", some 1)]).search .stored (bytes "/a//")).map fun answer =>
        answer.2) = some false := by
  decide

end FastGoZero.Search
