import FastGoZero.Api.Imports

/-!
# The graph of the imports

The files are the nodes of a graph, known by their paths, and an import is an edge. The traversal
is a depth-first search of that graph: it ends, it reports a cycle only if there is one, and when
it succeeds there is none and every file that can be reached was loaded and merged once.
-/

namespace FastGoZero.Api

open Lib Lib.DepthFirst Relation List
open Lib.Str (bytes)

variable (load : Str → Except LoadFailure API) (root : API) (path : Str)

/-- The api of the file at a path. That of the root is given. -/
def fileAt : Option API :=
  if path = root.filename then some root else (load path).toOption

def API.importPaths (api : API) : List Str :=
  (api.importStmt.flatMap ImportStmt.values).map fun value =>
    importPath (FilePath.dir api.filename) (importText value)

/-- The file at the first path imports the second path. -/
def Imports (imported : Str) : Prop :=
  ∃ api, fileAt load root path = some api ∧ imported ∈ api.importPaths

def Reachable : Prop := ReflTransGen (Imports load root) root.filename path

def typesAt : List TypeStmt :=
  ((fileAt load root path).map API.typeStmt).getD []

def servicesAt : List ServiceStmt :=
  ((fileAt load root path).map API.serviceStmts).getD []

/-- What a failure of the traversal says about the files. -/
def Explained : ImportFailure → Prop
  | .load path failure =>
    Reachable load root path ∧ path ≠ root.filename ∧ load path = .error failure
  | .importCycle _ => Cyclic (Imports load root) root.filename
  | .multipleSyntaxValue _ _ _ => ∃ p q a b, Reachable load root p ∧ Reachable load root q ∧
      fileAt load root p = some a ∧ fileAt load root q = some b ∧ a.syntaxValue ≠ b.syntaxValue
  | .outOfFuel => False

variable {load root}

theorem lookup_insertAll (values : List TokenNode) (set : GoMap Str Token) (text : Str) :
    (∃ tok, (values.foldl (fun set value => set.insert (importText value) value.token) set).lookup
      text = some tok) ↔ text ∈ values.map importText ∨ ∃ tok, set.lookup text = some tok := by
  induction values generalizing set with
  | nil => simp
  | cons value values ih =>
    rw [foldl_cons, ih, map_cons, mem_cons, GoMap.lookup_insert_if]
    by_cases same : text = importText value <;> simp [same]

theorem mem_importValueSet (imports : List ImportStmt) (text : Str) :
    (∃ tok, (importValueSet imports).lookup text = some tok) ↔
      text ∈ (imports.flatMap ImportStmt.values).map importText := by
  rw [importValueSet, lookup_insertAll]
  simp

/-- The loop over the import values takes the paths that the api imports. -/
theorem mem_importPaths (api : API) (order : GoMap.RangeOrder Str Token) (path : Str) :
    path ∈ api.importPaths ↔ ∃ entry ∈ (importValueSet api.importStmt).range order,
      importPath (FilePath.dir api.filename) entry.1 = path := by
  have texts := mem_importValueSet api.importStmt
  constructor
  · intro mem
    obtain ⟨value, present, rfl⟩ := mem_map.mp mem
    obtain ⟨tok, found⟩ := (texts (importText value)).mpr (mem_map_of_mem present)
    exact ⟨(importText value, tok), (GoMap.mem_range _ _ _ _).mpr found, rfl⟩
  · rintro ⟨⟨text, tok⟩, present, rfl⟩
    have found := (GoMap.mem_range _ _ _ _).mp present
    obtain ⟨value, isValue, rfl⟩ := mem_map.mp ((texts text).mp ⟨tok, found⟩)
    exact mem_map_of_mem isValue

theorem mergeAPI_cases (api imported : API) :
    api.syntaxValue = imported.syntaxValue ∧ mergeAPI api imported = .ok { api with
      typeStmt := api.typeStmt ++ imported.typeStmt
      serviceStmts := api.serviceStmts ++ imported.serviceStmts } ∨
    api.syntaxValue ≠ imported.syntaxValue ∧ mergeAPI api imported =
      .error (.multipleSyntaxValue imported.syntaxStmt.value.pos api.syntaxValue
        imported.syntaxValue) := by
  by_cases same : api.syntaxValue = imported.syntaxValue
  · exact Or.inl ⟨same, if_neg (not_not_intro same)⟩
  · exact Or.inr ⟨same, if_pos same⟩

def API.extend (api : API) (types : List TypeStmt) (services : List ServiceStmt) : API :=
  { api with typeStmt := api.typeStmt ++ types, serviceStmts := api.serviceStmts ++ services }

theorem foldlM_mergeAPI (list : List API) (api : API) :
    ((∀ imported ∈ list, api.syntaxValue = imported.syntaxValue) ∧ list.foldlM mergeAPI api =
        .ok (api.extend (list.flatMap API.typeStmt) (list.flatMap API.serviceStmts))) ∨
      ∃ imported ∈ list, api.syntaxValue ≠ imported.syntaxValue ∧ list.foldlM mergeAPI api =
        .error (.multipleSyntaxValue imported.syntaxStmt.value.pos api.syntaxValue
          imported.syntaxValue) := by
  induction list generalizing api with
  | nil => exact Or.inl ⟨by simp, by simp [API.extend, pure, Except.pure]⟩
  | cons imported list ih =>
    rw [foldlM_cons]
    rcases mergeAPI_cases api imported with ⟨same, merged⟩ | ⟨different, failed⟩
    · rw [merged]
      rcases ih { api with
          typeStmt := api.typeStmt ++ imported.typeStmt
          serviceStmts := api.serviceStmts ++ imported.serviceStmts } with
        ⟨alike, all⟩ | ⟨other, mem, different, failed⟩
      · refine Or.inl ⟨forall_mem_cons.mpr ⟨same, alike⟩, all.trans ?_⟩
        simp [API.extend]
      · exact Or.inr ⟨other, mem_cons_of_mem _ mem, different, failed⟩
    · rw [failed]
      exact Or.inr ⟨imported, mem_cons_self .., different, rfl⟩

def unloaded (files : List Str) (s : Importing) : Nat :=
  (files.filter fun path => !s.seen.contains path).length

variable {s s₁ : Importing} {path : Str} {s' : Importing} {paths files : List Str}
  {reverse : API → Importing → Except ImportFailure (API × Importing)} {failure : ImportFailure}
  {api merged : API} {list : List API} {α : Type}

theorem unloaded_enter (mem : path ∈ files) (newPath : path ∉ s.seen) :
    unloaded files (s.enter path) < unloaded files s := by
  have fewer : (files.filter fun other => !(s.enter path).seen.contains other) =
      (files.filter fun other => !s.seen.contains other).filter fun other => other ≠ path := by
    rw [filter_filter]
    apply filter_congr
    intro other _
    simp only [Progress.enter, contains_eq_mem, mem_append, mem_singleton]
    by_cases same : other = path <;> by_cases seen : other ∈ s.seen <;> simp [same, seen]
  rw [unloaded, unloaded, fewer, length_filter_lt_length_iff_exists]
  exact ⟨path, mem_filter.mpr ⟨mem, by simpa using newPath⟩, by simp⟩

theorem unloaded_append {more : List Str} (grown : s'.seen = s.seen ++ more) :
    unloaded files s' ≤ unloaded files s := by
  rw [unloaded, unloaded, ← countP_eq_length_filter, ← countP_eq_length_filter]
  apply countP_mono_left
  intro path _ isNew
  simp_all

/-- What a successful traversal from a file has done. -/
structure Finished (load : Str → Except LoadFailure API) (root : API) (path : Str)
    (api : API) (s : Importing) (merged : API) (s' : Importing) : Prop where
  searching : Searching (Imports load root) root.filename s'
  stack : s'.stack = s.stack
  done : ∀ imported, Imports load root path imported → s'.Done imported
  grows : ∀ other, s.Done other → s'.Done other
  merged : ∃ more, s'.seen = s.seen ++ more ∧
    merged = api.extend (more.flatMap (typesAt load root)) (more.flatMap (servicesAt load root)) ∧
    ∀ other ∈ more, ∃ own, fileAt load root other = some own ∧
      own.syntaxValue = api.syntaxValue

/-- What the loop over some of the imports of a file has done. -/
structure Passed (load : Str → Except LoadFailure API) (root : API) (paths : List Str)
    (s : Importing) (list : List API) (s' : Importing) : Prop where
  searching : Searching (Imports load root) root.filename s'
  stack : s'.stack = s.stack
  done : ∀ imported ∈ paths, s'.Done imported
  grows : ∀ other, s.Done other → s'.Done other
  known : ∀ nested ∈ list, ∃ path own, Reachable load root path ∧
    fileAt load root path = some own ∧ nested.syntaxValue = own.syntaxValue
  merged : ∃ more, s'.seen = s.seen ++ more ∧
    list.flatMap API.typeStmt = more.flatMap (typesAt load root) ∧
    list.flatMap API.serviceStmts = more.flatMap (servicesAt load root) ∧
    ∀ other ∈ more, ∃ own, fileAt load root other = some own ∧
      ∃ nested ∈ list, own.syntaxValue = nested.syntaxValue

/-- The traversal from a file has done what it has to, or there is a reason why not. -/
def ReverseSound (load : Str → Except LoadFailure API) (root : API) (path : Str)
    (api : API) (s : Importing) (result : Except ImportFailure (API × Importing)) : Prop :=
  (∀ merged s', result = .ok (merged, s') → Finished load root path api s merged s') ∧
    ∀ failure, result = .error failure → Explained load root failure

def ImportsSound (load : Str → Except LoadFailure API) (root : API) (paths : List Str)
    (s : Importing) (result : Except ImportFailure (List API × Importing)) : Prop :=
  (∀ list s', result = .ok (list, s') → Passed load root paths s list s') ∧
    ∀ failure, result = .error failure → Explained load root failure

theorem ImportsSound.of_failure (explained : Explained load root failure) :
    ImportsSound load root paths s (.error failure) := by
  refine ⟨by simp, ?_⟩
  rintro _ ⟨⟩
  exact explained

theorem ReverseSound.of_failure (explained : Explained load root failure) :
    ReverseSound load root path api s (.error failure) := by
  refine ⟨by simp, ?_⟩
  rintro _ ⟨⟩
  exact explained

theorem ImportsSound.of_passed (passed : Passed load root paths s list s') :
    ImportsSound load root paths s (.ok (list, s')) := by
  refine ⟨?_, by simp⟩
  rintro _ _ ⟨⟩
  exact passed

/-- One round of the loop over the imports. -/
inductive Round (load : Str → Except LoadFailure API)
    (reverse : API → Importing → Except ImportFailure (API × Importing)) (dir path : Str)
    (tok : Token) (rest : List (Str × Token)) (s : Importing) :
    Except ImportFailure (List API × Importing) → Prop
  | cycle (onPath : path ∈ s.stack) :
      Round load reverse dir path tok rest s (.error (.importCycle tok.position))
  | seen (offPath : path ∉ s.stack) (seen : path ∈ s.seen) :
      Round load reverse dir path tok rest s (parseImports load reverse dir rest s)
  | unloadable (offPath : path ∉ s.stack) (unseen : path ∉ s.seen) (failure : LoadFailure)
      (failed : load path = .error failure) :
      Round load reverse dir path tok rest s (.error (.load path failure))
  | nested (offPath : path ∉ s.stack) (unseen : path ∉ s.seen) (api : API)
      (loaded : load path = .ok api) (failure : ImportFailure)
      (failed : reverse api (s.enter path) = .error failure) :
      Round load reverse dir path tok rest s (.error failure)
  | last (offPath : path ∉ s.stack) (unseen : path ∉ s.seen) (api : API)
      (loaded : load path = .ok api) (merged : API) (s₁ : Importing)
      (reversed : reverse api (s.enter path) = .ok (merged, s₁)) (failure : ImportFailure)
      (failed : parseImports load reverse dir rest s₁.leave = .error failure) :
      Round load reverse dir path tok rest s (.error failure)
  | parsed (offPath : path ∉ s.stack) (unseen : path ∉ s.seen) (api : API)
      (loaded : load path = .ok api) (merged : API) (s₁ : Importing)
      (reversed : reverse api (s.enter path) = .ok (merged, s₁)) (list : List API)
      (s' : Importing) (passed : parseImports load reverse dir rest s₁.leave = .ok (list, s')) :
      Round load reverse dir path tok rest s (.ok (merged :: list, s'))

theorem round_of_cons (dir impPath : Str) (tok : Token) (rest : List (Str × Token))
    (s : Importing) : Round load reverse dir (importPath dir impPath) tok rest s
      (parseImports load reverse dir ((impPath, tok) :: rest) s) := by
  rw [parseImports]
  simp only [contains_eq_mem, decide_eq_true_eq]
  by_cases onPath : importPath dir impPath ∈ s.stack
  · rw [if_pos onPath]
    exact .cycle onPath
  rw [if_neg onPath]
  by_cases seen : importPath dir impPath ∈ s.seen
  · rw [if_pos seen]
    exact .seen onPath seen
  rw [if_neg seen]
  cases loaded : load (importPath dir impPath) with
  | error failure => exact .unloadable onPath seen failure loaded
  | ok api =>
    cases reversed : reverse api (s.enter (importPath dir impPath)) with
    | error failure =>
      simp only [reversed]
      exact .nested onPath seen api loaded failure reversed
    | ok result =>
      obtain ⟨merged, s₁⟩ := result
      cases others : parseImports load reverse dir rest s₁.leave with
      | error failure =>
        simp only [reversed, others, bind, Except.bind]
        exact .last onPath seen api loaded merged s₁ reversed failure others
      | ok result =>
        obtain ⟨list, s'⟩ := result
        simp only [reversed, others, bind, Except.bind]
        exact .parsed onPath seen api loaded merged s₁ reversed list s' others

/-- A nested file is left when the traversal from it has succeeded. -/
theorem Finished.leave (finished : Finished load root path api (s.enter path) merged s₁)
    (searching : Searching (Imports load root) root.filename s) (offPath : path ∉ s.stack)
    (unseen : path ∉ s.seen) :
    Searching (Imports load root) root.filename s₁.leave ∧ s₁.leave.stack = s.stack ∧
      s₁.leave.Done path ∧ (∀ other, s.Done other → s₁.leave.Done other) ∧
      ∃ more, s₁.leave.seen = s.seen ++ path :: more ∧ merged =
        api.extend (more.flatMap (typesAt load root)) (more.flatMap (servicesAt load root)) ∧
        ∀ other ∈ more, ∃ own, fileAt load root other = some own ∧
          own.syntaxValue = api.syntaxValue := by
  obtain ⟨more, grown, isMerged⟩ := finished.merged
  obtain ⟨l, stack⟩ := searching.stack_eq
  have isSeen : path ∈ s₁.seen := by simp [grown, Progress.enter]
  obtain ⟨left, shorter, done, grows⟩ :=
    finished.searching.leave finished.stack (by simp [stack]) offPath isSeen finished.done
  refine ⟨left, shorter, done, ?_, more, ?_, isMerged⟩
  · intro other before
    exact grows other (finished.grows other ((Progress.done_enter unseen other).mpr before))
  · rw [Progress.leave, grown, Progress.enter, append_assoc]
    rfl

theorem Passed.cons (finished : Finished load root path api (s.enter path) merged s₁)
    (searching : Searching (Imports load root) root.filename s) (offPath : path ∉ s.stack)
    (unseen : path ∉ s.seen) (reached : Reachable load root path)
    (file : fileAt load root path = some api) (passed : Passed load root paths s₁.leave list s') :
    Passed load root (path :: paths) s (merged :: list) s' := by
  obtain ⟨_, shorter, done, grows, more, grown, isMerged, alike⟩ :=
    finished.leave searching offPath unseen
  obtain ⟨others, grownAgain, types, services, alikeOthers⟩ := passed.merged
  refine ⟨passed.searching, passed.stack.trans shorter, ?_, ?_, ?_, ⟨path :: more ++ others, ?_, ?_,
    ?_, ?_⟩⟩
  · exact forall_mem_cons.mpr ⟨passed.grows _ done, passed.done⟩
  · intro other before
    exact passed.grows other (grows other before)
  · exact forall_mem_cons.mpr ⟨⟨path, api, reached, file, by rw [isMerged]; rfl⟩, passed.known⟩
  · rw [grownAgain, grown, append_assoc]
  · rw [flatMap_cons, types, isMerged]
    simp [API.extend, typesAt, file]
  · rw [flatMap_cons, services, isMerged]
    simp [API.extend, servicesAt, file]
  · have sameSyntax : merged.syntaxValue = api.syntaxValue := by rw [isMerged]; rfl
    intro other mem
    rcases mem_append.mp mem with inFront | inOthers
    · rcases mem_cons.mp inFront with rfl | inMore
      · exact ⟨api, file, merged, mem_cons_self .., sameSyntax.symm⟩
      · obtain ⟨own, found, same⟩ := alike other inMore
        exact ⟨own, found, merged, mem_cons_self .., same.trans sameSyntax.symm⟩
    · obtain ⟨own, found, nested, inList, same⟩ := alikeOthers other inOthers
      exact ⟨own, found, nested, mem_cons_of_mem _ inList, same⟩

section

variable {order : Importing → GoMap.RangeOrder Str Token} {files : List Str}
  (finite : ∀ path, Reachable load root path → path ∈ files)
include finite

/-- The loop over imports, given that the traversal of nested files is right while fewer files than
the bound are not loaded. -/
theorem parseImports_sound {bound : Nat}
    (nestedSound : ∀ path api s, Searching (Imports load root) root.filename s →
      s.stack.getLast? = some path → fileAt load root path = some api → unloaded files s < bound →
      ReverseSound load root path api s (reverse api s)) {path dir : Str}
    (values : List (Str × Token))
    (imported : ∀ value ∈ values, Imports load root path (importPath dir value.1)) {s : Importing}
    (searching : Searching (Imports load root) root.filename s)
    (current : s.stack.getLast? = some path) (few : unloaded files s ≤ bound) :
    ImportsSound load root (values.map fun value => importPath dir value.1) s
      (parseImports load reverse dir values s) := by
  induction values generalizing s with
  | nil =>
    exact .of_passed ⟨searching, rfl, by simp, fun _ done => done, by simp,
      ⟨[], by simp, rfl, rfl, by simp⟩⟩
  | cons value rest ih =>
    obtain ⟨impPath, tok⟩ := value
    have round := @round_of_cons load reverse dir impPath tok rest s
    obtain ⟨edge, later⟩ := forall_mem_cons.mp imported
    simp only [map_cons] at edge ⊢
    generalize importPath dir impPath = target at round edge ⊢
    have reached : Reachable load root target :=
      (searching.reach_of_stack (mem_of_getLast? current)).tail edge
    obtain ⟨l, stack⟩ := searching.stack_eq
    have notRoot : target ∉ s.stack → target ≠ root.filename := by
      rintro offPath rfl
      exact offPath (by rw [stack]; exact mem_cons_self ..)
    have file : ∀ api, target ∉ s.stack → load target = .ok api →
        fileAt load root target = some api := by
      intro api offPath loaded
      rw [fileAt, if_neg (notRoot offPath), loaded]
      rfl
    have inner : ∀ api, target ∉ s.stack → target ∉ s.seen → load target = .ok api →
        ReverseSound load root target api (s.enter target) (reverse api (s.enter target)) :=
      fun api offPath unseen loaded => nestedSound target api (s.enter target)
        (searching.enter current edge offPath unseen) (by simp [Progress.enter])
        (file api offPath loaded)
        (lt_of_lt_of_le (unloaded_enter (finite _ reached) unseen) few)
    have others : ∀ {api merged s₁}, target ∉ s.stack → target ∉ s.seen →
        Finished load root target api (s.enter target) merged s₁ →
        ImportsSound load root (rest.map fun value => importPath dir value.1) s₁.leave
          (parseImports load reverse dir rest s₁.leave) := by
      intro api merged s₁ offPath unseen finished
      obtain ⟨left, shorter, _, _, more, grown, _⟩ := finished.leave searching offPath unseen
      have fewer : unloaded files s₁.leave ≤ unloaded files s := unloaded_append grown
      exact ih later left (by rw [shorter]; exact current) (fewer.trans few)
    generalize parseImports load reverse dir ((impPath, tok) :: rest) s = result at round
    cases round with
    | cycle onPath => exact .of_failure (searching.cyclic current edge onPath)
    | seen offPath seen =>
      obtain ⟨succeeds, fails⟩ := ih later searching current few
      refine ⟨?_, fails⟩
      intro list s' parsed
      have passed := succeeds list s' parsed
      exact { passed with
        done := forall_mem_cons.mpr ⟨passed.grows _ ⟨seen, offPath⟩, passed.done⟩ }
    | unloadable offPath unseen failure failed =>
      exact .of_failure ⟨reached, notRoot offPath, failed⟩
    | nested offPath unseen api loaded failure failed =>
      exact .of_failure ((inner api offPath unseen loaded).2 failure failed)
    | last offPath unseen api loaded merged s₁ reversed failure failed =>
      have finished := (inner api offPath unseen loaded).1 merged s₁ reversed
      exact .of_failure ((others offPath unseen finished).2 failure failed)
    | parsed offPath unseen api loaded merged s₁ reversed list s' passed =>
      have finished := (inner api offPath unseen loaded).1 merged s₁ reversed
      exact .of_passed (.cons finished searching offPath unseen reached (file api offPath loaded)
        ((others offPath unseen finished).1 list s' passed))

theorem parseReverse_sound (fuel : Nat) (path : Str) (api : API) (s : Importing)
    (searching : Searching (Imports load root) root.filename s)
    (current : s.stack.getLast? = some path) (file : fileAt load root path = some api)
    (few : unloaded files s < fuel) :
    ReverseSound load root path api s (parseReverse load order fuel api s) := by
  induction fuel generalizing path api s with
  | zero => omega
  | succ fuel ih =>
    have paths := mem_importPaths api (order s)
    have reached := searching.reach_of_stack (mem_of_getLast? current)
    have imports := parseImports_sound finite ih
      ((importValueSet api.importStmt).range (order s))
      (fun value mem => ⟨api, file, (paths _).mpr ⟨value, mem, rfl⟩⟩)
      searching current (Nat.le_of_lt_succ few)
    rw [parseReverse]
    cases parsed : parseImports load (parseReverse load order fuel) (FilePath.dir api.filename)
        ((importValueSet api.importStmt).range (order s)) s with
    | error failure => exact .of_failure (imports.2 failure parsed)
    | ok result =>
      obtain ⟨list, s'⟩ := result
      have passed := imports.1 list s' parsed
      rcases foldlM_mergeAPI list api with ⟨alike, all⟩ | ⟨nested, mem, different, failed⟩
      · simp only [all, bind, Except.bind, pure, Except.pure]
        refine ⟨?_, by simp⟩
        rintro _ _ ⟨⟩
        obtain ⟨more, grown, types, services, known⟩ := passed.merged
        refine ⟨passed.searching, passed.stack, ?_, passed.grows, more, grown, ?_, ?_⟩
        · rintro imported ⟨other, found, mem⟩
          cases file.symm.trans found
          obtain ⟨value, present, same⟩ := (paths imported).mp mem
          exact passed.done imported (mem_map.mpr ⟨value, present, same⟩)
        · rw [types, services]
        · intro other mem
          obtain ⟨own, found, nested, inList, same⟩ := known other mem
          exact ⟨own, found, same.trans (alike nested inList).symm⟩
      · simp only [failed, bind, Except.bind]
        obtain ⟨other, own, otherReached, found, same⟩ := passed.known nested mem
        exact .of_failure
          ⟨path, other, api, own, reached, otherReached, file, found, by rwa [← same]⟩

end

/-- Every file that can be reached can be loaded, and all have the syntax of the root. -/
def Agreeing (load : Str → Except LoadFailure API) (root : API) : Prop :=
  ∀ path, Reachable load root path →
    ∃ api, fileAt load root path = some api ∧ api.syntaxValue = root.syntaxValue

/-- There is no cycle, and each file that can be reached was loaded and merged once. -/
structure Explored (load : Str → Except LoadFailure API) (root : API) (api : API)
    (s : Importing) : Prop where
  acyclic : ¬ Cyclic (Imports load root) root.filename
  once : (root.filename :: s.seen).Nodup
  reached : ∀ path, path ∈ root.filename :: s.seen ↔ Reachable load root path
  merged : api = root.extend (s.seen.flatMap (typesAt load root))
    (s.seen.flatMap (servicesAt load root))

theorem Finished.explored {s : Importing}
    (finished : Finished load root root.filename root (startImporting root) api s) :
    Explored load root api s := by
  obtain ⟨searching, stack, done, _, more, grown, merged, _⟩ := finished
  obtain ⟨reached, acyclic⟩ := searching.finish stack done
  rw [startImporting, nil_append] at grown
  rw [← grown] at merged
  exact ⟨acyclic, nodup_cons.mpr ⟨searching.unseen, searching.distinct⟩, reached, merged⟩

theorem Finished.agreeing {s : Importing}
    (finished : Finished load root root.filename root (startImporting root) api s) :
    Agreeing load root := by
  have explored := finished.explored
  obtain ⟨more, grown, _, alike⟩ := finished.merged
  rw [startImporting, nil_append] at grown
  intro path reached
  rcases mem_cons.mp ((explored.reached path).mpr reached) with rfl | mem
  · exact ⟨root, if_pos rfl, rfl⟩
  · exact alike path (grown ▸ mem)

/-- If the files agree, a cycle is the only reason to fail. -/
theorem Explained.cycle (explained : Explained load root failure) (agreeing : Agreeing load root) :
    ∃ position, failure = .importCycle position := by
  cases failure with
  | importCycle position => exact ⟨position, rfl⟩
  | outOfFuel => exact explained.elim
  | load path reason =>
    obtain ⟨reached, notRoot, failed⟩ := explained
    obtain ⟨api, found, _⟩ := agreeing path reached
    rw [fileAt, if_neg notRoot, failed] at found
    cases found
  | multipleSyntaxValue position expected got =>
    obtain ⟨p, q, a, b, reachedP, reachedQ, foundP, foundQ, different⟩ := explained
    obtain ⟨api, found, same⟩ := agreeing p reachedP
    obtain ⟨other, foundOther, sameOther⟩ := agreeing q reachedQ
    cases foundP.symm.trans found
    cases foundQ.symm.trans foundOther
    exact absurd (same.trans sameOther.symm) different

/-- The traversal of finitely many files ends. When it succeeds, the files were explored. When it
fails there is a reason for the failure, and if all files can be loaded and have one syntax, it
reports a cycle if and only if there is one. -/
theorem imports_explored (load : Str → Except LoadFailure API) (root : API)
    (order : Importing → GoMap.RangeOrder Str Token) (files : List Str)
    (finite : ∀ path, Reachable load root path → path ∈ files) :
    let result := parseReverse load order (files.length + 1) root (startImporting root)
    (∀ api s, result = .ok (api, s) → Explored load root api s) ∧
    (∀ failure, result = .error failure → Explained load root failure) ∧
    (Agreeing load root → ((∃ position, result = .error (.importCycle position)) ↔
      Cyclic (Imports load root) root.filename)) := by
  intro result
  have few : unloaded files (startImporting root) < files.length + 1 :=
    Nat.lt_succ_of_le (length_filter_le _ _)
  obtain ⟨succeeds, fails⟩ :
      ReverseSound load root root.filename root (startImporting root) result :=
    parseReverse_sound finite _ _ root _ Searching.start rfl (if_pos rfl) few
  refine ⟨fun api s parsed => (succeeds api s parsed).explored, fails, ?_⟩
  intro agreeing
  constructor
  · rintro ⟨position, reported⟩
    exact fails _ reported
  · intro cyclic
    cases outcome : result with
    | ok value => exact absurd cyclic (succeeds value.1 value.2 outcome).explored.acyclic
    | error failure =>
      obtain ⟨position, rfl⟩ := (fails failure outcome).cycle agreeing
      exact ⟨position, rfl⟩

def failureOf : Except ImportFailure α → Option ImportFailure
  | .error failure => some failure
  | .ok _ => none

theorem eq_error_of_failureOf {result : Except ImportFailure α}
    (fails : failureOf result = some failure) : result = .error failure := by
  cases result with
  | ok value => cases fails
  | error other =>
    cases fails
    rfl

def importsAt (load : Str → Except LoadFailure API) (root : API) (path : Str) : List Str :=
  ((fileAt load root path).map API.importPaths).getD []

theorem mem_importsAt {path imported : Str} (edge : Imports load root path imported) :
    imported ∈ importsAt load root path := by
  obtain ⟨api, found, mem⟩ := edge
  rwa [importsAt, found]

/-- Files that are closed under imports are all that can be reached. -/
theorem reachable_mem (rootIn : root.filename ∈ files)
    (closed : ∀ path ∈ files, ∀ imported ∈ importsAt load root path, imported ∈ files) :
    ∀ path, Reachable load root path → path ∈ files := by
  intro path reached
  induction reached with
  | refl => exact rootIn
  | tail _ edge ih => exact closed _ ih _ (mem_importsAt edge)

/-- Files that import only files behind them. -/
theorem not_cyclic (rootIn : root.filename ∈ files)
    (closed : ∀ path ∈ files, ∀ imported ∈ importsAt load root path,
      imported ∈ files ∧ files.idxOf path < files.idxOf imported) :
    ¬ Cyclic (Imports load root) root.filename := by
  rintro ⟨path, reached, cycle⟩
  have known := reachable_mem rootIn (fun path mem other edge => (closed path mem other edge).1)
  have behind : ∀ {last}, TransGen (Imports load root) path last →
      last ∈ files ∧ files.idxOf path < files.idxOf last := by
    intro last leads
    induction leads with
    | single edge => exact closed path (known path reached) _ (mem_importsAt edge)
    | tail _ edge ih =>
      obtain ⟨inFiles, further⟩ := closed _ ih.1 _ (mem_importsAt edge)
      exact ⟨inFiles, ih.2.trans further⟩
  exact Nat.lt_irrefl _ (behind cycle).2

def twoPaths : List Str := [bytes "/a.api", bytes "/b.api"]

/-- Two files that import each other. -/
def cycleFiles : Str → Option Str :=
  contents [("/a.api", "import \"b.api\""), ("/b.api", "import \"./a.api\"")]

theorem imports_explored_cycle :
    Cyclic (Imports (loadFile cycleFiles) (loadRoot cycleFiles (bytes "/a.api")))
      (loadRoot cycleFiles (bytes "/a.api")).filename := by
  have reported : failureOf (parseReverse (loadFile cycleFiles) (fun _ => storedOrder) 3
      (loadRoot cycleFiles (bytes "/a.api"))
      (startImporting (loadRoot cycleFiles (bytes "/a.api")))) =
      some (.importCycle ⟨bytes "b.api", 1, 8⟩) := by decide +kernel
  have closed : ∀ path ∈ twoPaths, ∀ imported ∈ importsAt (loadFile cycleFiles)
      (loadRoot cycleFiles (bytes "/a.api")) path, imported ∈ twoPaths := by
    decide +kernel
  exact (imports_explored (loadFile cycleFiles) (loadRoot cycleFiles (bytes "/a.api"))
    (fun _ => storedOrder) twoPaths (reachable_mem (by decide +kernel) closed)).2.1 _
    (eq_error_of_failureOf reported)

/-- A file and an imported one of another syntax. -/
def syntaxFiles : Str → Option Str :=
  contents [("/a.api", "import \"b.api\""), ("/b.api", "syntax = \"v2\"")]

/-- There is no cycle, but the imported file is not merged. -/
theorem import_refused :
    parseReverse (loadFile syntaxFiles) (fun _ => storedOrder) 3
      (loadRoot syntaxFiles (bytes "/a.api"))
      (startImporting (loadRoot syntaxFiles (bytes "/a.api"))) =
        .error (.multipleSyntaxValue ⟨bytes "b.api", 1, 10⟩ (bytes "\"v1\"")
          (bytes "\"v2\"")) ∧
    ¬ Cyclic (Imports (loadFile syntaxFiles) (loadRoot syntaxFiles (bytes "/a.api")))
      (loadRoot syntaxFiles (bytes "/a.api")).filename := by
  refine ⟨eq_error_of_failureOf (by decide +kernel), ?_⟩
  have closed : ∀ path ∈ twoPaths, ∀ imported ∈ importsAt (loadFile syntaxFiles)
      (loadRoot syntaxFiles (bytes "/a.api")) path,
      imported ∈ twoPaths ∧ twoPaths.idxOf path < twoPaths.idxOf imported := by
    decide +kernel
  exact not_cyclic (by decide +kernel) closed

end FastGoZero.Api
