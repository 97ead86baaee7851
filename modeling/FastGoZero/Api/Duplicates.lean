import FastGoZero.Api.SelfCheck
import FastGoZero.Lib.Fallible

/-!
# What the checks find

A filter reports an error if and only if two of its nodes have one text and different positions.
From this follows which apis `SelfCheck` refuses. Positions tell the declarations of one file apart,
but not always those of two files, and the text of a route says more than its method and its path.
-/

namespace FastGoZero.Api

open Lib Lib.Str List

/-- Two entries with one key have different values. -/
def Clashes {K V : Type} (entries : List (K × V)) : Prop :=
  ∃ a ∈ entries, ∃ b ∈ entries, a.1 = b.1 ∧ a.2 ≠ b.2

theorem clashes_map_key {K L V : Type} {f : K → L} (injective : Function.Injective f)
    (entries : List (K × V)) :
    Clashes (entries.map fun entry => (f entry.1, entry.2)) ↔ Clashes entries := by
  constructor
  · rintro ⟨_, first, _, second, same, different⟩
    obtain ⟨a, inA, rfl⟩ := mem_map.mp first
    obtain ⟨b, inB, rfl⟩ := mem_map.mp second
    exact ⟨a, inA, b, inB, injective same, different⟩
  · rintro ⟨a, inA, b, inB, same, different⟩
    exact ⟨_, mem_map_of_mem inA, _, mem_map_of_mem inB, congrArg f same, different⟩

open FilterBuilder

namespace FilterBuilder

def checkAll (b : FilterBuilder) (entries : List (Str × TokenNode)) : FilterBuilder :=
  entries.foldl (fun b entry => b.checkKey entry.1 entry.2) b

/-- What the map and the errors say about the entries that were checked. -/
structure Recorded (b : FilterBuilder) (done : List (Str × Position)) : Prop where
  sound : ∀ key pos, b.m.lookup key = some pos → (key, pos) ∈ done
  complete : ∀ key pos, (key, pos) ∈ done → b.m.lookup key ≠ none
  reported : b.errors ≠ [] ↔ Clashes done

variable {done : List (Str × Position)} {b : FilterBuilder} {key : Str} {pos : Position}
  {α : Type}

theorem clashes_concat : Clashes (done ++ [(key, pos)]) ↔
    Clashes done ∨ ∃ other, (key, other) ∈ done ∧ other ≠ pos := by
  constructor
  · rintro ⟨⟨k, p⟩, inA, ⟨l, q⟩, inB, same, different⟩
    obtain rfl : k = l := same
    rw [mem_append, mem_singleton, Prod.mk.injEq] at inA inB
    rcases inA with inA | ⟨rfl, rfl⟩
    · rcases inB with inB | ⟨rfl, rfl⟩
      · exact Or.inl ⟨_, inA, _, inB, rfl, different⟩
      · exact Or.inr ⟨p, inA, different⟩
    · rcases inB with inB | ⟨_, rfl⟩
      · exact Or.inr ⟨q, inB, Ne.symm different⟩
      · exact absurd rfl different
  · rintro (⟨a, inA, b, inB, same, different⟩ | ⟨other, mem, different⟩)
    · exact ⟨a, mem_append_left _ inA, b, mem_append_left _ inB, same, different⟩
    · exact ⟨_, mem_append_left _ mem, _, mem_append_right _ (mem_singleton_self _), rfl, different⟩

theorem Recorded.insert (recorded : b.Recorded done)
    (same : Clashes (done ++ [(key, pos)]) ↔ Clashes done) :
    Recorded { b with m := b.m.insert key pos } (done ++ [(key, pos)]) := by
  refine ⟨?_, ?_, recorded.reported.trans same.symm⟩
  · intro probe found lookup
    rw [GoMap.lookup_insert_if] at lookup
    split at lookup
    next isKey =>
      cases lookup
      rw [isKey]
      exact mem_append_right _ (mem_singleton_self _)
    next => exact mem_append_left _ (recorded.sound probe found lookup)
  · intro probe found mem
    rw [GoMap.lookup_insert_if]
    split
    next => exact Option.some_ne_none _
    next notKey =>
      rw [mem_append, mem_singleton, Prod.mk.injEq] at mem
      rcases mem with mem | ⟨isKey, _⟩
      · exact recorded.complete probe found mem
      · exact absurd isKey notKey

theorem Recorded.checkKey (recorded : b.Recorded done) (key : Str) (node : TokenNode) :
    (b.checkKey key node).Recorded (done ++ [(key, node.token.position)]) := by
  rw [FilterBuilder.checkKey]
  cases found : b.m.lookup key with
  | none =>
    refine recorded.insert (clashes_concat.trans (or_iff_left ?_))
    rintro ⟨other, mem, -⟩
    exact recorded.complete key other mem found
  | some pos =>
    have known := recorded.sound key pos found
    by_cases same : pos = node.token.position
    · simp only [same, ne_eq, not_true_eq_false, if_false]
      refine recorded.insert (clashes_concat.trans (or_iff_left_of_imp ?_))
      rintro ⟨other, mem, different⟩
      exact ⟨_, mem, _, known, rfl, same ▸ different⟩
    · simp only [ne_eq, same, not_false_eq_true, if_true]
      refine ⟨fun probe other lookup => mem_append_left _ (recorded.sound probe other lookup),
        ?_, ?_⟩
      · intro probe other mem
        rw [mem_append, mem_singleton, Prod.mk.injEq] at mem
        rcases mem with mem | ⟨rfl, _⟩
        · exact recorded.complete probe other mem
        · exact fun absent => Option.some_ne_none pos (found.symm.trans absent)
      · exact iff_of_true (by simp) (clashes_concat.mpr (Or.inr ⟨pos, known, same⟩))

theorem Recorded.checkAll (recorded : b.Recorded done) (entries : List (Str × TokenNode)) :
    (b.checkAll entries).Recorded
      (done ++ entries.map fun entry => (entry.1, entry.2.token.position)) := by
  induction entries generalizing b done with
  | nil => simpa [checkAll] using recorded
  | cons entry entries ih =>
    have rest := ih (recorded.checkKey entry.1 entry.2)
    rwa [append_assoc] at rest

/-- A filter without errors and positions reports exactly the clashes. -/
theorem checkAll_errors (filename checkExprName : Str) (entries : List (Str × TokenNode)) :
    (checkAll { filename, checkExprName } entries).errors ≠ [] ↔
      Clashes (entries.map fun entry => (entry.1, entry.2.token.position)) := by
  have start : Recorded { filename, checkExprName } [] := by
    constructor <;> simp [Clashes]
  exact (start.checkAll entries).reported

@[simp] theorem filename_checkKey (b : FilterBuilder) (key : Str) (node : TokenNode) :
    (b.checkKey key node).filename = b.filename := by
  unfold checkKey
  split
  · split <;> rfl
  · rfl

@[simp] theorem filename_checkAll (b : FilterBuilder) (entries : List (Str × TokenNode)) :
    (b.checkAll entries).filename = b.filename := by
  induction entries generalizing b with
  | nil => rfl
  | cons entry entries ih =>
    exact (ih _).trans (filename_checkKey ..)

theorem checkAll_append (b : FilterBuilder) (first second : List (Str × TokenNode)) :
    b.checkAll (first ++ second) = (b.checkAll first).checkAll second :=
  foldl_append

def fileEntry (filename : Str) (node : TokenNode) : Str × TokenNode :=
  (filename ++ bytes "/" ++ node.token.text, node)

theorem check_eq (b : FilterBuilder) (nodes : List TokenNode) :
    b.check nodes = b.checkAll (nodes.map (fileEntry b.filename)) := by
  induction nodes generalizing b with
  | nil => rfl
  | cons node nodes ih =>
    refine (ih _).trans ?_
    rw [filename_checkKey]
    rfl

variable (nodes : α → List TokenNode)

theorem foldl_check (list : List α) (b : FilterBuilder) :
    list.foldl (fun b x => b.check (nodes x)) b =
      b.checkAll ((list.flatMap nodes).map (fileEntry b.filename)) := by
  induction list generalizing b with
  | nil => rfl
  | cons x list ih =>
    rw [foldl_cons, ih, check_eq, flatMap_cons, map_append, checkAll_append, filename_checkAll]

def places (nodes : List TokenNode) : List (Str × Position) :=
  nodes.map fun node => (node.token.text, node.token.position)

theorem clashes_fileEntry (filename : Str) (nodes : List TokenNode) :
    Clashes ((nodes.map (fileEntry filename)).map fun entry => (entry.1, entry.2.token.position)) ↔
      Clashes (places nodes) := by
  have injective : Function.Injective fun text : Str => filename ++ bytes "/" ++ text :=
    fun _ _ same => append_cancel_left same
  rw [← clashes_map_key injective (places nodes), places, map_map, map_map]
  rfl

theorem foldl_check_errors (list : List α) (filename checkExprName : Str) :
    (list.foldl (fun b x => b.check (nodes x))
      ({ filename, checkExprName } : FilterBuilder)).errors ≠ [] ↔
      Clashes (places (list.flatMap nodes)) := by
  rw [foldl_check, checkAll_errors, clashes_fileEntry]

end FilterBuilder

def ServiceItemStmt.complete (item : ServiceItemStmt) : Bool :=
  item.atHandler.isSome && item.route.isSome

/-- The handlers of items with their groups, as the check writes them. -/
def handlerEntries (service : ServiceStmt) (items : List ServiceItemStmt) :
    List (Str × TokenNode) :=
  items.filterMap fun item => item.atHandler.map fun handler =>
    (service.group ++ bytes "/" ++ handler.name.token.text, handler.name)

variable (printing : Printing)

def routeNodes (service : ServiceStmt) (items : List ServiceItemStmt) : List TokenNode :=
  items.filterMap fun item => item.route.map (ServiceCheck.routeNode printing service)

namespace ServiceCheck

variable (printing : Printing) {item : ServiceItemStmt}

/-- The checks of handlers and routes have gone on. -/
structure Advanced (c next : ServiceCheck) (handlers : List (Str × TokenNode))
    (routes : List TokenNode) : Prop where
  handlerChecker : next.handlerChecker = c.handlerChecker.checkAll handlers
  pathChecker : next.pathChecker =
    c.pathChecker.checkAll (routes.map (fileEntry c.pathChecker.filename))

theorem Advanced.trans {c middle next : ServiceCheck}
    {handlers moreHandlers : List (Str × TokenNode)} {routes moreRoutes : List TokenNode}
    (first : Advanced c middle handlers routes)
    (second : Advanced middle next moreHandlers moreRoutes) :
    Advanced c next (handlers ++ moreHandlers) (routes ++ moreRoutes) := by
  constructor
  · rw [second.handlerChecker, first.handlerChecker, checkAll_append]
  · rw [second.pathChecker, first.pathChecker, filename_checkAll, map_append, checkAll_append]

/-- A name is in the map with itself, so that no service has another name. -/
structure Named (c : ServiceCheck) : Prop where
  itself : ∀ name sn, c.serviceName.lookup name = some sn → sn = name
  silent : c.serviceNameErrors = []

theorem Named.checkName {c : ServiceCheck} (named : c.Named) (name : Str) (pos : Position) :
    (c.checkName name pos).Named := by
  unfold ServiceCheck.checkName
  cases found : c.serviceName.lookup name with
  | some sn =>
    have same := named.itself name sn found
    simpa [same] using named
  | none =>
    refine ⟨?_, named.silent⟩
    intro probe sn lookup
    rw [GoMap.lookup_insert_if] at lookup
    split at lookup
    next isName =>
      cases lookup
      exact isName.symm
    next => exact named.itself probe sn lookup

theorem advanced_checkName (c : ServiceCheck) (name : Str) (pos : Position) :
    Advanced c (c.checkName name pos) [] [] := by
  unfold checkName
  split
  · split <;> exact ⟨rfl, rfl⟩
  · exact ⟨rfl, rfl⟩

variable (service : ServiceStmt)

theorem checkItem_complete (c : ServiceCheck) (complete : item.complete) :
    ∃ next, checkItem printing service c item = .ok next ∧ (c.Named → next.Named) ∧
      Advanced c next (handlerEntries service [item]) (routeNodes printing service [item]) := by
  obtain ⟨atDoc, _ | handler, _ | route⟩ := item
  · cases complete
  · cases complete
  · cases complete
  · exact ⟨_, rfl, fun named => ⟨named.itself, named.silent⟩, rfl, check_eq ..⟩

theorem checkItem_incomplete (c : ServiceCheck) (incomplete : item.complete = false) :
    checkItem printing service c item = .error .nilPointer := by
  obtain ⟨atDoc, _ | handler, _ | route⟩ := item
  · rfl
  · rfl
  · rfl
  · cases incomplete

theorem foldlM_checkItem (items : List ServiceItemStmt) (c : ServiceCheck) :
    ((∃ item ∈ items, item.complete = false) ∧
      items.foldlM (checkItem printing service) c = .error .nilPointer) ∨
    ((∀ item ∈ items, item.complete) ∧
      ∃ next, items.foldlM (checkItem printing service) c = .ok next ∧ (c.Named → next.Named) ∧
        Advanced c next (handlerEntries service items) (routeNodes printing service items)) := by
  induction items generalizing c with
  | nil => exact Or.inr ⟨by simp, c, rfl, id, rfl, rfl⟩
  | cons item items ih =>
    rw [foldlM_cons]
    cases isComplete : item.complete with
    | false =>
      rw [checkItem_incomplete printing service c isComplete]
      exact Or.inl ⟨⟨item, mem_cons_self .., isComplete⟩, rfl⟩
    | true =>
      obtain ⟨middle, checked, named, advanced⟩ :=
        checkItem_complete printing service c isComplete
      rw [checked]
      rcases ih middle with
        ⟨⟨other, mem, incomplete⟩, fails⟩ | ⟨complete, next, ends, namedNext, rest⟩
      · exact Or.inl ⟨⟨other, mem_cons_of_mem _ mem, incomplete⟩, fails⟩
      · refine Or.inr ⟨?_, next, ends, namedNext ∘ named, ?_⟩
        · simpa [isComplete] using complete
        · have both := advanced.trans rest
          rwa [handlerEntries, handlerEntries, ← filterMap_append, routeNodes, routeNodes,
            ← filterMap_append] at both

theorem foldlM_checkService (services : List ServiceStmt) (c : ServiceCheck) (named : c.Named) :
    ((∃ service ∈ services, ∃ item ∈ service.routes, item.complete = false) ∧
      services.foldlM (checkService printing) c = .error .nilPointer) ∨
    ((∀ service ∈ services, ∀ item ∈ service.routes, item.complete) ∧
      ∃ next, services.foldlM (checkService printing) c = .ok next ∧ next.Named ∧
        Advanced c next (services.flatMap fun service => handlerEntries service service.routes)
          (services.flatMap fun service => routeNodes printing service service.routes)) := by
  induction services generalizing c with
  | nil => exact Or.inr ⟨by simp, c, rfl, named, rfl, rfl⟩
  | cons service services ih =>
    rw [foldlM_cons, checkService]
    set name := trimSuffix (serviceNameText printing service.name) (bytes "-api")
    have renamed := advanced_checkName c name service.name.pos
    rcases foldlM_checkItem printing service service.routes (c.checkName name service.name.pos) with
      ⟨incomplete, fails⟩ | ⟨complete, middle, checked, namedMiddle, advanced⟩
    · rw [fails]
      exact Or.inl ⟨⟨service, mem_cons_self .., incomplete⟩, rfl⟩
    · rw [checked]
      rcases ih middle (namedMiddle (named.checkName _ _)) with
        ⟨⟨other, mem, incomplete⟩, fails⟩ | ⟨completeRest, next, ends, namedNext, rest⟩
      · exact Or.inl ⟨⟨other, mem_cons_of_mem _ mem, incomplete⟩, fails⟩
      · refine Or.inr ⟨?_, next, ends, namedNext, ?_⟩
        · exact forall_mem_cons.mpr ⟨complete, completeRest⟩
        · exact (renamed.trans advanced).trans rest

end ServiceCheck

namespace API

variable (api : API)

/-- The handlers of an api with their groups, and where they stand. -/
def handlerPlaces : List (Str × Position) :=
  (api.serviceStmts.flatMap fun service => handlerEntries service service.routes).map
    fun entry => (entry.1, entry.2.token.position)

/-- The routes of an api as texts, and where they stand. -/
def routePlaces : List (Str × Position) :=
  FilterBuilder.places
    (api.serviceStmts.flatMap fun service => routeNodes printing service service.routes)

def Complete : Prop :=
  ∀ service ∈ api.serviceStmts, ∀ item ∈ service.routes, item.complete

/-- The check of the services panics, or it reports the handlers and the routes that clash. -/
theorem checkServiceStmt_cases :
    (¬ api.Complete ∧ api.checkServiceStmt printing = .error .nilPointer) ∨
    (api.Complete ∧ ∃ errors, api.checkServiceStmt printing = .ok errors ∧
      (errors ≠ [] ↔ Clashes api.handlerPlaces ∨ Clashes (api.routePlaces printing))) := by
  have named : ServiceCheck.Named
      { handlerChecker := { filename := api.filename, checkExprName := bytes "handler expression" }
        pathChecker := { filename := api.filename, checkExprName := bytes "path expression" } } := by
    refine ⟨?_, rfl⟩
    intro name sn found
    simp at found
  rw [checkServiceStmt]
  rcases ServiceCheck.foldlM_checkService printing api.serviceStmts _ named with
    ⟨⟨service, mem, item, inService, incomplete⟩, fails⟩ |
    ⟨complete, next, checked, namedNext, advanced⟩
  · refine Or.inl ⟨?_, ?_⟩
    · intro complete
      rw [complete service mem item inService] at incomplete
      cases incomplete
    · rw [fails]
      rfl
  · refine Or.inr ⟨complete, next.serviceNameErrors ++ next.handlerChecker.errors ++
      next.pathChecker.errors, ?_, ?_⟩
    · rw [checked]
      rfl
    · rw [namedNext.silent, advanced.handlerChecker, advanced.pathChecker, nil_append,
        ne_eq, append_eq_nil_iff, not_and_or]
      refine or_congr (checkAll_errors ..) ?_
      exact (checkAll_errors ..).trans (clashes_fileEntry ..)

def infoKeys : List TokenNode :=
  ((api.info.map InfoStmt.values).getD []).map KVExpr.key

/-- Some check sees two declarations with one text at different positions, or a type that is not
declared. The checks after that of the types are reached if no item lacks its handler. -/
def Distinguished : Prop :=
  Clashes (FilterBuilder.places (api.importStmt.flatMap ImportStmt.values)) ∨
    Clashes (FilterBuilder.places api.infoKeys) ∨
    Clashes (FilterBuilder.places (api.typeExprs.map TypeExpr.name)) ∨
    api.Complete ∧ (Clashes api.handlerPlaces ∨ Clashes (api.routePlaces printing) ∨
      api.checkTypeDeclareContext ≠ [])

theorem checkImportStmt_iff : api.checkImportStmt ≠ [] ↔
    Clashes (places (api.importStmt.flatMap ImportStmt.values)) :=
  foldl_check_errors ..

theorem checkInfoStmt_iff :
    api.checkInfoStmt ≠ [] ↔ Clashes (places api.infoKeys) := by
  rw [checkInfoStmt, infoKeys]
  cases api.info with
  | none => simp [Clashes, places]
  | some info =>
    rw [Option.map_some, Option.getD_some, map_eq_flatMap]
    exact foldl_check_errors (fun kv => [kv.key]) info.values _ _

theorem checkTypeStmt_iff : api.checkTypeStmt ≠ [] ↔
    Clashes (places (api.typeExprs.map TypeExpr.name)) := by
  rw [map_eq_flatMap]
  exact foldl_check_errors (fun expr => [expr.name]) api.typeExprs _ _

/-- The merged api is refused, or no check has something to report and one panics or all pass. -/
theorem checkMerged_cases :
    (api.Distinguished printing ∧ ∃ errors, api.checkMerged printing = .error (.checks errors)) ∨
    (¬ api.Distinguished printing ∧ ¬ api.Complete ∧
      api.checkMerged printing = .error (.panics .nilPointer)) ∨
    (¬ api.Distinguished printing ∧ api.Complete ∧ api.checkMerged printing = .ok ()) := by
  have silent : report [] = .ok () := rfl
  have reports {errors : List CheckError} (found : errors ≠ []) :
      report errors = .error (.checks errors) := if_neg found
  rw [Distinguished, ← checkImportStmt_iff, ← checkInfoStmt_iff, ← checkTypeStmt_iff, checkMerged]
  by_cases imports : api.checkImportStmt = []
  · by_cases info : api.checkInfoStmt = []
    · by_cases types : api.checkTypeStmt = []
      · rw [imports, info, types, silent]
        rcases checkServiceStmt_cases printing api with
          ⟨incomplete, panics⟩ | ⟨complete, errors, checked, found⟩
        · simp [panics, incomplete, bind, Except.bind]
        · rw [← or_assoc (a := Clashes api.handlerPlaces), ← found]
          by_cases services : errors = []
          · by_cases context : api.checkTypeDeclareContext = []
            · simp [checked, services, context, complete, silent, bind, Except.bind]
            · simp [checked, services, context, silent, reports context, complete, bind,
                Except.bind]
          · simp [checked, services, reports services, complete, bind, Except.bind]
      · simp [imports, info, types, silent, reports types, bind, Except.bind]
    · simp [imports, info, silent, reports info, bind, Except.bind]
  · simp [imports, reports imports, bind, Except.bind]

theorem checkMerged_iff : (∃ errors, api.checkMerged printing = .error (.checks errors)) ↔
      api.Distinguished printing := by
  rcases checkMerged_cases printing api with
    ⟨found, refused⟩ | ⟨silent, _, panics⟩ | ⟨silent, _, passes⟩
  · exact iff_of_true refused found
  · simp [panics, silent]
  · simp [passes, silent]

theorem checkMerged_eq_ok :
    api.checkMerged printing = .ok () ↔ ¬ api.Distinguished printing ∧ api.Complete := by
  rcases checkMerged_cases printing api with
    ⟨found, errors, refused⟩ | ⟨silent, incomplete, panics⟩ | ⟨silent, complete, passes⟩
  · simp [refused, found]
  · simp [panics, incomplete]
  · simp [passes, silent, complete]

def typeNames : List Str := api.typeExprs.map fun expr => expr.name.token.text

def routeKeys : List (Str × Str) :=
  api.serviceStmts.flatMap fun service => service.routes.filterMap fun item =>
    item.route.map fun route =>
      (route.method.token.text, service.routePrefix ++ route.path.token.text)

def handlerKeys : List (Str × Str) :=
  api.serviceStmts.flatMap fun service => service.routes.filterMap fun item =>
    item.atHandler.map fun handler => (service.group, handler.name.token.text)

def HasDuplicate : Prop :=
  ¬ api.typeNames.Nodup ∨ ¬ api.routeKeys.Nodup ∨ ¬ api.handlerKeys.Nodup

instance (api : API) : Decidable api.HasDuplicate :=
  inferInstanceAs (Decidable (_ ∨ _ ∨ _))

end API

/-- `SelfCheck` refuses duplicates exactly as far as texts and positions tell them apart, or another
check fails. -/
theorem duplicates_refused_iff (load : Str → Except LoadFailure API)
    (order : Importing → GoMap.RangeOrder Str Token) (printing : Printing) (fuel : Nat)
    (root merged : API) (s : Importing)
    (parsed : parseReverse load order fuel root (startImporting root) = .ok (merged, s)) :
    (merged.HasDuplicate →
      ∃ errors, root.selfCheck load order printing fuel = .error (.checks errors)) ↔
    (merged.HasDuplicate → merged.Distinguished printing) := by
  have refused : (∃ errors, root.selfCheck load order printing fuel = .error (.checks errors)) ↔
      ∃ errors, merged.checkMerged printing = .error (.checks errors) := by
    rw [API.selfCheck, parsed]
    cases outcome : merged.checkMerged printing with
    | ok | error failure => simp [outcome, Except.map]
  rw [refused, API.checkMerged_iff]

def sameTypeFile : Str → Option Str :=
  contents [("/m.api", "type T \x7bA int\x7d\ntype T \x7bB int\x7d")]

/-- Two types of one file are told apart by their lines. -/
theorem duplicates_refused_iff_same_file :
    ∃ errors, API.selfCheck (loadFile sameTypeFile) (fun _ => storedOrder) Printing.plain 1
      (loadRoot sameTypeFile (bytes "/m.api")) = .error (.checks errors) := by
  have evaluated : ((parseReverse (loadFile sameTypeFile) (fun _ => storedOrder) 1
      (loadRoot sameTypeFile (bytes "/m.api"))
      (startImporting (loadRoot sameTypeFile (bytes "/m.api")))).toOption.map fun result =>
        (result.1.typeNames, FilterBuilder.places (result.1.typeExprs.map TypeExpr.name))) =
      some ([bytes "T", bytes "T"], [(bytes "T", ⟨bytes "m.api", 1, 6⟩),
        (bytes "T", ⟨bytes "m.api", 2, 6⟩)]) := by decide +kernel
  obtain ⟨⟨merged, s⟩, parsed, values⟩ := exists_ok evaluated
  obtain ⟨names, places⟩ := Prod.mk.inj values
  have clash : Clashes (FilterBuilder.places (merged.typeExprs.map TypeExpr.name)) := by
    rw [places]
    exact ⟨_, mem_cons_self .., _, mem_cons_of_mem _ (mem_singleton_self _), rfl, by decide⟩
  refine (duplicates_refused_iff _ _ _ _ _ merged s parsed).mpr
    (fun _ => Or.inr (Or.inr (Or.inl clash))) (Or.inl ?_)
  rw [names]
  decide

/-- Two files of one base name in different directories. -/
def sameBaseFiles : Str → Option Str :=
  contents [("/m.api", "import \"a/x.api\"\nimport \"b/x.api\""),
    ("/a/x.api", "type T \x7bA int\x7d"), ("/b/x.api", "type T \x7bB string\x7d")]

/-- Two routes of one method and path. -/
def sameRouteFiles : Str → Option Str :=
  contents [("/m.api", "service s \x7b\n@handler a\nget /x\n@handler b\nget /x (T)\n\x7d")]

/-- Both are accepted. -/
theorem duplicates_accepted :
    (∃ merged, API.selfCheck (loadFile sameBaseFiles) (fun _ => storedOrder) Printing.plain 3
        (loadRoot sameBaseFiles (bytes "/m.api")) = .ok merged ∧
      merged.typeNames = [bytes "T", bytes "T"]) ∧
    (∃ merged, API.selfCheck (loadFile sameRouteFiles) (fun _ => storedOrder) Printing.plain 3
        (loadRoot sameRouteFiles (bytes "/m.api")) = .ok merged ∧
      merged.routeKeys = [(bytes "get", bytes "/x"), (bytes "get", bytes "/x")]) :=
  ⟨exists_ok (by decide +kernel), exists_ok (by decide +kernel)⟩

end FastGoZero.Api
