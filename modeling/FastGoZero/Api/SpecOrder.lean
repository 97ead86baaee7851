import FastGoZero.Api.Duplicates
import FastGoZero.Api.ImportGraph
import FastGoZero.Api.Spec

/-!
# The spec and the order of the imports

The imported files are merged in the order in which the loops over the import maps go. Of two files
neither of which is on every import path to the other, either may come first. The sorts at the end
of the analysis undo this for types of different names and for groups of different group properties.
-/

namespace FastGoZero.Api

open Lib Lib.Str Lib.DepthFirst Lib.StableSort List

def typeName (expr : TypeExpr) : Str := expr.name.token.text

/-- The property by which the groups are sorted. -/
def ServiceStmt.groupProperty (service : ServiceStmt) : Str :=
  (service.properties.bind fun properties => properties.lookup (bytes "group")).getD []

/-- Two apis that differ in the order of types with different names and of services with different
groups. -/
structure Alike (a b : API) : Prop where
  importStmt : a.importStmt = b.importStmt
  info : a.info = b.info
  types : SameByKey typeName a.typeExprs b.typeExprs
  services : SameByKey ServiceStmt.groupProperty a.serviceStmts b.serviceStmts

theorem Clashes.congr {K V : Type} {entries others : List (K × V)}
    (same : ∀ entry, entry ∈ entries → entry ∈ others) (clashes : Clashes entries) :
    Clashes others := by
  obtain ⟨a, inA, b, inB, sameKey, different⟩ := clashes
  exact ⟨a, same a inA, b, same b inB, sameKey, different⟩

mutual

theorem checkTypeExprContext_congr {declared others : List Str}
    (same : ∀ name, declared.contains name = others.contains name) (dataType : DataType) :
    API.checkTypeExprContext declared dataType = API.checkTypeExprContext others dataType := by
  cases dataType with
  | any node => rfl
  | base node => rw [API.checkTypeExprContext, API.checkTypeExprContext, same]
  | interface node => rfl
  | map keyword lbrack key rbrack value =>
    rw [API.checkTypeExprContext, API.checkTypeExprContext, checkTypeExprContext_congr same key,
      checkTypeExprContext_congr same value]
  | array lbrack length rbrack dataType | pointer star dataType | slice lbrack rbrack dataType =>
    rw [API.checkTypeExprContext, API.checkTypeExprContext,
      checkTypeExprContext_congr same dataType]
  | struct lbrace elements rbrace =>
    rw [API.checkTypeExprContext, API.checkTypeExprContext, checkElements_congr same elements]

theorem checkElements_congr {declared others : List Str}
    (same : ∀ name, declared.contains name = others.contains name) (elements : List ElemExpr) :
    API.checkElements declared elements = API.checkElements others elements := by
  cases elements with
  | nil => rfl
  | cons element elements =>
    obtain ⟨name, dataType, tag⟩ := element
    rw [API.checkElements, API.checkElements, checkTypeExprContext_congr same dataType,
      checkElements_congr same elements]

end

namespace Alike

variable {a b : API} (alike : Alike a b)
include alike

theorem symm : Alike b a :=
  ⟨alike.importStmt.symm, alike.info.symm, alike.types.symm, alike.services.symm⟩

theorem complete (complete : a.Complete) : b.Complete :=
  fun service mem => complete service ((alike.services.mem_iff service).mpr mem)

theorem context (found : a.checkTypeDeclareContext ≠ []) : b.checkTypeDeclareContext ≠ [] := by
  have declared : ∀ name, (a.typeExprs.map typeName).contains name =
      (b.typeExprs.map typeName).contains name := by
    intro name
    rw [Bool.eq_iff_iff]
    simp only [contains_eq_mem, decide_eq_true_eq, mem_map]
    exact exists_congr fun expr => and_congr_left' (alike.types.mem_iff expr)
  intro silent
  apply found
  rw [API.checkTypeDeclareContext, flatMap_eq_nil_iff] at silent ⊢
  intro expr mem
  rw [← silent expr ((alike.types.mem_iff expr).mp mem)]
  exact checkTypeExprContext_congr declared expr.dataType

theorem distinguished (printing : Printing) (found : a.Distinguished printing) :
    b.Distinguished printing := by
  rcases found with imports | info | types | ⟨complete, handlers | routes | context⟩
  · exact Or.inl (alike.importStmt ▸ imports)
  · refine Or.inr (Or.inl ?_)
    rwa [API.infoKeys, ← alike.info]
  · refine Or.inr (Or.inr (Or.inl (types.congr ?_)))
    intro entry
    simp only [FilterBuilder.places, mem_map]
    rintro ⟨node, ⟨expr, mem, rfl⟩, rfl⟩
    exact ⟨_, ⟨expr, (alike.types.mem_iff expr).mp mem, rfl⟩, rfl⟩
  · refine Or.inr (Or.inr (Or.inr ⟨alike.complete complete, Or.inl (handlers.congr ?_)⟩))
    intro entry
    simp only [API.handlerPlaces, mem_map, mem_flatMap]
    rintro ⟨handler, ⟨service, mem, inService⟩, rfl⟩
    exact ⟨_, ⟨service, (alike.services.mem_iff service).mp mem, inService⟩, rfl⟩
  · refine Or.inr (Or.inr (Or.inr ⟨alike.complete complete, Or.inr (Or.inl (routes.congr ?_))⟩))
    intro entry
    simp only [API.routePlaces, FilterBuilder.places, mem_map, mem_flatMap]
    rintro ⟨route, ⟨service, mem, inService⟩, rfl⟩
    exact ⟨_, ⟨service, (alike.services.mem_iff service).mp mem, inService⟩, rfl⟩
  · exact Or.inr (Or.inr (Or.inr ⟨alike.complete complete, Or.inr (Or.inr (alike.context context))⟩))

theorem checkMerged (printing : Printing) (passes : a.checkMerged printing = .ok ()) :
    b.checkMerged printing = .ok () := by
  rw [API.checkMerged_eq_ok] at passes ⊢
  exact ⟨fun found => passes.1 (alike.symm.distinguished printing found), alike.complete passes.2⟩

end Alike

section

variable (r : Rendering)

theorem rawName_fillTypeExpr {expr : TypeExpr} {t : DefineStruct}
    (filled : fillTypeExpr r expr = .ok t) : t.rawName = typeName expr := by
  rw [fillTypeExpr] at filled
  split at filled
  · obtain ⟨members, _, ⟨⟩⟩ := bind_eq_ok.mp filled
    rfl
  · cases filled

variable {types others : List DefineStruct} {service : ServiceStmt} {services : List ServiceStmt}
  {name next : Str} {info : Option InfoStmt}

theorem rawName_resolveStruct {t resolved : DefineStruct}
    (made : resolveStruct types t = .ok resolved) : resolved.rawName = t.rawName := by
  obtain ⟨members, _, made⟩ := bind_eq_ok.mp made
  cases made
  rfl

theorem findDefinedType_eq (same : SameByKey DefineStruct.rawName types others) :
    findDefinedType types = findDefinedType others := by
  funext name
  rw [findDefinedType, findDefinedType, same.find_eq]

section

variable (same : findDefinedType types = findDefinedType others)

include same

theorem resolveType_eq : resolveType types = resolveType others := by
  funext type
  cases type <;> simp [resolveType, same]

theorem resolveStruct_eq : resolveStruct types = resolveStruct others := by
  have mem : resolveMember types = resolveMember others := by
    funext mem
    obtain ⟨name, type, tag, comment, docs, isInline⟩ := mem
    rw [resolveMember, resolveMember, resolveType_eq same]
  funext t
  rw [resolveStruct, resolveStruct, mem]

theorem convertRoute_eq : convertRoute r types = convertRoute r others := by
  have body : bodyType r types = bodyType r others := by
    funext stmt req
    rw [bodyType, bodyType, resolveType_eq same]
    simp only [getType, same]
  funext item
  rw [convertRoute, convertRoute, body]

end

theorem fillTypes_same {exprs others : List TypeExpr}
    (same : SameByKey typeName exprs others) (filled : fillTypes r exprs = .ok types) :
    ∃ otherTypes, fillTypes r others = .ok otherTypes ∧
      SameByKey DefineStruct.rawName types otherTypes := by
  obtain ⟨declared, first, second⟩ := bind_eq_ok.mp filled
  obtain ⟨otherDeclared, otherFirst, sameDeclared⟩ :=
    same.mapM (fun expr t => rawName_fillTypeExpr r) first
  obtain ⟨otherTypes, otherSecond, sameTypes⟩ :=
    sameDeclared.mapM (fun t resolved => rawName_resolveStruct) second
  rw [resolveStruct_eq (findDefinedType_eq sameDeclared)] at otherSecond
  exact ⟨otherTypes, bind_eq_ok.mpr ⟨otherDeclared, otherFirst, otherSecond⟩, sameTypes⟩

/-- The group of a service without the comparison of names. -/
def convertGroup (types : List DefineStruct) (service : ServiceStmt) :
    Except SpecFailure Group := do
  let routes ← service.routes.mapM (convertRoute r types)
  pure ⟨service.properties, routes⟩

theorem property_convertGroup {group : Group} (made : convertGroup r types service = .ok group) :
    group.property (bytes "group") = service.groupProperty := by
  obtain ⟨routes, _, made⟩ := bind_eq_ok.mp made
  cases made
  rfl

/-- The name that the items of a service leave, which must not differ from one that was there. -/
def NameAfter (service : ServiceStmt) (items : List ServiceItemStmt) (name next : Str) : Prop :=
  if items = [] then next = name
  else (name = [] ∨ name = serviceNameText r.printing service.name) ∧
    next = serviceNameText r.printing service.name

theorem fillRoute_eq_ok {state next : Str × List Route} {item : ServiceItemStmt} :
    fillRoute r types service state item = .ok next ↔
      ∃ route, convertRoute r types item = .ok route ∧
        (state.1 = [] ∨ state.1 = serviceNameText r.printing service.name) ∧
        next = (serviceNameText r.printing service.name, state.2 ++ [route]) := by
  rw [fillRoute, bind_eq_ok]
  refine exists_congr fun route => and_congr_right fun _ => ?_
  by_cases differs : state.1 ≠ [] ∧ state.1 ≠ serviceNameText r.printing service.name
  · simp [differs]
  · have agrees : state.1 = [] ∨ state.1 = serviceNameText r.printing service.name := by
      by_contra neither
      exact differs (not_or.mp neither)
    simp only [differs, if_false, agrees, true_and, pure, Except.pure, Except.ok.injEq]
    exact eq_comm

theorem foldlM_fillRoute (types : List DefineStruct) (service : ServiceStmt)
    (items : List ServiceItemStmt) (name next : Str) (routes all : List Route) :
    items.foldlM (fillRoute r types service) (name, routes) = .ok (next, all) ↔
      (∃ more, items.mapM (convertRoute r types) = .ok more ∧ all = routes ++ more) ∧
        NameAfter r service items name next := by
  induction items generalizing name routes with
  | nil => simp [pure, Except.pure, NameAfter, eq_comm, and_comm]
  | cons item items ih =>
    rw [foldlM_cons, bind_eq_ok]
    have named : NameAfter r service items (serviceNameText r.printing service.name) next ↔
        next = serviceNameText r.printing service.name := by
      rw [NameAfter]
      split <;> simp
    constructor
    · rintro ⟨state, first, rest⟩
      obtain ⟨route, converted, agrees, rfl⟩ := (fillRoute_eq_ok r).mp first
      obtain ⟨⟨more, all, rfl⟩, after⟩ := (ih _ _).mp rest
      refine ⟨⟨route :: more, mapM_cons_eq_ok.mpr ⟨route, more, converted, all, rfl⟩, by simp⟩, ?_⟩
      rw [NameAfter, if_neg (cons_ne_nil _ _)]
      exact ⟨agrees, named.mp after⟩
    · rintro ⟨⟨_, converted, rfl⟩, after⟩
      obtain ⟨route, more, first, rest, rfl⟩ := mapM_cons_eq_ok.mp converted
      rw [NameAfter, if_neg (cons_ne_nil _ _)] at after
      refine ⟨_, (fillRoute_eq_ok r).mpr ⟨route, first, after.1, rfl⟩, ?_⟩
      exact (ih _ _).mpr ⟨⟨more, rest, by simp⟩, named.mpr after.2⟩

/-- All services with routes have one name. -/
structure Named (services : List ServiceStmt) (name next : Str) : Prop where
  all : ∀ service ∈ services, service.routes ≠ [] → serviceNameText r.printing service.name = next
  start : name = [] ∨ name = next
  none : (∀ service ∈ services, service.routes = []) → next = name

theorem named_cons (printed : serviceNameText r.printing service.name ≠ []) :
    Named r (service :: services) name next ↔
      ∃ middle, NameAfter r service service.routes name middle ∧ Named r services middle next := by
  by_cases empty : service.routes = []
  · simp only [NameAfter, empty, if_true, exists_eq_left]
    constructor
    · rintro ⟨all, start, none⟩
      exact ⟨fun other mem => all other (mem_cons_of_mem _ mem), start,
        fun rest => none (forall_mem_cons.mpr ⟨empty, rest⟩)⟩
    · rintro ⟨all, start, none⟩
      exact ⟨forall_mem_cons.mpr ⟨fun nonempty => absurd empty nonempty, all⟩, start,
        fun rest => none (forall_mem_cons.mp rest).2⟩
  · simp only [NameAfter, empty, if_false]
    constructor
    · rintro ⟨all, start, none⟩
      obtain ⟨same, rest⟩ := forall_mem_cons.mp all
      have isNext := same empty
      refine ⟨_, ⟨?_, rfl⟩, rest, Or.inr isNext, fun _ => isNext.symm⟩
      rwa [isNext]
    · rintro ⟨_, ⟨agrees, rfl⟩, all, start, none⟩
      have isNext := start.resolve_left printed
      refine ⟨forall_mem_cons.mpr ⟨fun _ => isNext, all⟩, ?_, ?_⟩
      · rwa [isNext] at agrees
      · intro rest
        exact absurd (rest service (mem_cons_self ..)) empty

theorem foldlM_fillGroup (types : List DefineStruct) (services : List ServiceStmt)
    (printed : ∀ service ∈ services, serviceNameText r.printing service.name ≠ [])
    (name next : Str) (groups all : List Group) :
    services.foldlM (fillGroup r types) (name, groups) = .ok (next, all) ↔
      (∃ more, services.mapM (convertGroup r types) = .ok more ∧ all = groups ++ more) ∧
        Named r services name next := by
  induction services generalizing name groups with
  | nil =>
    have named : Named r [] name next ↔ next = name := by
      constructor
      · exact fun named => named.none (by simp)
      · rintro rfl
        exact ⟨by simp, Or.inr rfl, fun _ => rfl⟩
    simp [pure, Except.pure, named, eq_comm, and_comm]
  | cons service services ih =>
    obtain ⟨printedFirst, printedRest⟩ := forall_mem_cons.mp printed
    rw [foldlM_cons, bind_eq_ok, named_cons r printedFirst]
    constructor
    · rintro ⟨⟨middle, state⟩, first, rest⟩
      obtain ⟨⟨_, routes⟩, filled, ⟨⟩⟩ := bind_eq_ok.mp first
      obtain ⟨⟨_, converted, rfl⟩, after⟩ := (foldlM_fillRoute r _ _ _ _ _ _ _).mp filled
      obtain ⟨⟨more, converts, rfl⟩, named⟩ := (ih printedRest _ _).mp rest
      refine ⟨⟨⟨service.properties, routes⟩ :: more, ?_, by simp⟩, _, after, named⟩
      exact mapM_cons_eq_ok.mpr ⟨_, _, bind_eq_ok.mpr ⟨routes, converted, rfl⟩, converts, rfl⟩
    · rintro ⟨⟨_, converts, rfl⟩, middle, after, named⟩
      obtain ⟨group, more, first, rest, rfl⟩ := mapM_cons_eq_ok.mp converts
      obtain ⟨routes, converted, ⟨⟩⟩ := bind_eq_ok.mp first
      refine ⟨(middle, groups ++ [⟨service.properties, routes⟩]), ?_, ?_⟩
      · refine bind_eq_ok.mpr ⟨(middle, routes), ?_, rfl⟩
        exact (foldlM_fillRoute r _ _ _ _ _ _ _).mpr ⟨⟨routes, converted, by simp⟩, after⟩
      · exact (ih printedRest _ _).mpr ⟨⟨more, rest, by simp⟩, named⟩

theorem Named.same {others : List ServiceStmt} (named : Named r services name next)
    (same : ∀ service, service ∈ services ↔ service ∈ others) : Named r others name next where
  all service mem := named.all service ((same service).mpr mem)
  start := named.start
  none empty := named.none fun service mem => empty service ((same service).mp mem)

theorem fillService_same {otherTypes : List DefineStruct} {others : List ServiceStmt}
    {groups : List Group}
    (sameTypes : SameByKey DefineStruct.rawName types otherTypes)
    (same : SameByKey ServiceStmt.groupProperty services others)
    (printed : ∀ service ∈ services, serviceNameText r.printing service.name ≠ [])
    (filled : fillService r types services = .ok (name, groups)) :
    ∃ otherGroups, fillService r otherTypes others = .ok (name, otherGroups) ∧
      SameByKey (fun group => group.property (bytes "group")) groups otherGroups := by
  obtain ⟨⟨_, converted, rfl⟩, named⟩ := (foldlM_fillGroup r types services printed _ _ _ _).mp filled
  obtain ⟨otherGroups, otherConverted, sameGroups⟩ :=
    same.mapM (fun service group => property_convertGroup r) converted
  have printedOthers : ∀ service ∈ others, serviceNameText r.printing service.name ≠ [] :=
    fun service mem => printed service ((same.mem_iff service).mpr mem)
  have convert : convertGroup r types = convertGroup r otherTypes := by
    funext service
    rw [convertGroup, convertGroup, convertRoute_eq r (findDefinedType_eq sameTypes)]
  rw [convert] at otherConverted
  refine ⟨otherGroups, ?_, sameGroups⟩
  exact (foldlM_fillGroup r otherTypes others printedOthers _ _ _ _).mpr
    ⟨⟨otherGroups, otherConverted, rfl⟩, named.same r same.mem_iff⟩

/-- The titles that the spec has a field for. -/
def infoTitles : List Str := ["Title", "Desc", "Version", "Author", "Email"].map bytes

/-- The keys of one of these titles have one value. -/
def InfoDetermined (info : Option InfoStmt) : Prop :=
  ∀ key value other otherValue, (infoProperties info).lookup key = some value →
    (infoProperties info).lookup other = some otherValue →
    r.title (trimSuffix key (bytes ":")) = r.title (trimSuffix other (bytes ":")) →
    r.title (trimSuffix key (bytes ":")) ∈ infoTitles → value = otherValue

theorem lookup_foldl_title (title : Str → Str) (entries : List (Str × Str))
    (set : GoMap Str Str) (text : Str) :
    (entries.foldl (fun set entry => set.insert (title entry.1) entry.2) set).lookup text =
      ((entries.reverse.find? fun entry => decide (title entry.1 = text)).map Prod.snd).or
        (set.lookup text) := by
  induction entries generalizing set with
  | nil => rfl
  | cons entry entries ih =>
    rw [foldl_cons, ih, reverse_cons, find?_append, GoMap.lookup_insert_if]
    cases found : entries.reverse.find? fun entry => decide (title entry.1 = text) with
    | some last => rfl
    | none =>
      by_cases isText : title entry.1 = text
      · simp [isText]
      · simp [isText, Ne.symm isText]

/-- The value of a title does not depend on the order of the loop. -/
theorem lookup_title (determined : InfoDetermined r info) (order : GoMap.RangeOrder Str Str)
    {text : Str} (isTitle : text ∈ infoTitles) (value : Str) :
    (((infoProperties info).range order).foldl (fun set entry =>
      set.insert (r.title (trimSuffix entry.1 (bytes ":"))) entry.2) ∅ :
        GoMap Str Str).lookup text = some value ↔
      ∃ key, (infoProperties info).lookup key = some value ∧
        r.title (trimSuffix key (bytes ":")) = text := by
  rw [lookup_foldl_title fun key => r.title (trimSuffix key (bytes ":")), AList.lookup_empty,
    Option.or_none, Option.map_eq_some_iff]
  have present : ∀ {key value}, (key, value) ∈ ((infoProperties info).range order).reverse ↔
      (infoProperties info).lookup key = some value := by
    intro key value
    rw [mem_reverse, GoMap.mem_range]
  constructor
  · rintro ⟨⟨key, _⟩, found, rfl⟩
    exact ⟨key, present.mp (mem_of_find?_eq_some found), by simpa using find?_some found⟩
  · rintro ⟨key, lookup, rfl⟩
    cases found : ((infoProperties info).range order).reverse.find? fun entry =>
        decide (r.title (trimSuffix entry.1 (bytes ":")) = r.title (trimSuffix key (bytes ":"))) with
    | none => exact absurd (find?_eq_none.mp found _ (present.mpr lookup)) (by simp)
    | some entry =>
      have same := find?_some found
      rw [decide_eq_true_eq] at same
      exact ⟨entry, rfl, determined _ _ _ _ (present.mp (mem_of_find?_eq_some found)) lookup same
        (same ▸ isTitle)⟩

theorem fillInfo_eq (determined : InfoDetermined r info) (order other : GoMap.RangeOrder Str Str) :
    fillInfo r order info = fillInfo r other info := by
  have field : ∀ text ∈ infoTitles,
      (((infoProperties info).range order).foldl (fun set entry =>
        set.insert (r.title (trimSuffix entry.1 (bytes ":"))) entry.2) ∅ :
          GoMap Str Str).lookup text =
      (((infoProperties info).range other).foldl (fun set entry =>
        set.insert (r.title (trimSuffix entry.1 (bytes ":"))) entry.2) ∅ :
          GoMap Str Str).lookup text := by
    intro text isTitle
    apply Option.ext
    intro value
    rw [lookup_title r determined order isTitle, lookup_title r determined other isTitle]
  simp only [fillInfo, Info.mk.injEq, and_true]
  refine ⟨?_, ?_, ?_, ?_, ?_⟩ <;> rw [field _ (by decide)]

theorem convert2Spec_same {a b : API} (alike : Alike a b)
    (printed : ∀ service ∈ a.serviceStmts, serviceNameText r.printing service.name ≠ [])
    (determined : InfoDetermined r a.info) {order other : GoMap.RangeOrder Str Str}
    {spec : ApiSpec} (converted : convert2Spec r order a = .ok spec) :
    convert2Spec r other b = .ok spec := by
  obtain ⟨types, filled, rest⟩ := bind_eq_ok.mp converted
  obtain ⟨⟨name, groups⟩, served, ⟨⟩⟩ := bind_eq_ok.mp rest
  obtain ⟨otherTypes, otherFilled, sameTypes⟩ := fillTypes_same r alike.types filled
  obtain ⟨otherGroups, otherServed, sameGroups⟩ :=
    fillService_same r sameTypes alike.services printed served
  refine bind_eq_ok.mpr ⟨otherTypes, otherFilled, bind_eq_ok.mpr ⟨_, otherServed, ?_⟩⟩
  have sameSorted : SameByKey (fun group => group.property (bytes "group"))
      (groups.map sortRoutes) (otherGroups.map sortRoutes) := sameGroups.map fun group => rfl
  rw [← alike.info, fillInfo_eq r determined other order,
    sameTypes.stableSort_eq lessString_strictTotal,
    sameSorted.stableSort_eq lessString_strictTotal]
  rfl

/-- Two files of which neither is on every import path to the other have no type name and no group
in common; the names of services are printed; and the fields of the info are determined. -/
structure Determined (load : Str → Except LoadFailure API) (root : API) : Prop where
  types : ∀ p q, Reachable load root p → Reachable load root q → p ≠ q →
    ¬ Dominates (Imports load root) root.filename p q →
    ¬ Dominates (Imports load root) root.filename q p →
    ∀ a ∈ (typesAt load root p).flatMap TypeStmt.exprs,
    ∀ b ∈ (typesAt load root q).flatMap TypeStmt.exprs, typeName a ≠ typeName b
  services : ∀ p q, Reachable load root p → Reachable load root q → p ≠ q →
    ¬ Dominates (Imports load root) root.filename p q →
    ¬ Dominates (Imports load root) root.filename q p →
    ∀ a ∈ servicesAt load root p, ∀ b ∈ servicesAt load root q,
      a.groupProperty ≠ b.groupProperty
  printed : ∀ p, Reachable load root p → ∀ service ∈ servicesAt load root p,
    serviceNameText r.printing service.name ≠ []
  info : InfoDetermined r root.info

end

section

variable {load : Str → Except LoadFailure API} {root : API}

/-- What the files contribute differs in the order of different keys only, if files with a key in
common are on one path. -/
theorem flatMap_seen_same {α : Type} {s t : Importing}
    (first : Searching (Imports load root) root.filename s)
    (second : Searching (Imports load root) root.filename t) (same : s.seen.Perm t.seen)
    (f : Str → List α) (key : α → Str)
    (apart : ∀ p ∈ s.seen, ∀ q ∈ s.seen, p ≠ q →
      ¬ Dominates (Imports load root) root.filename p q →
      ¬ Dominates (Imports load root) root.filename q p →
      ∀ a ∈ f p, ∀ b ∈ f q, key a ≠ key b) :
    SameByKey key (s.seen.flatMap f) (t.seen.flatMap f) := by
  intro k
  let holding : Str → List α := fun p => (f p).filter fun a => decide (key a = k)
  have selects : ∀ l : List Str, ((l.flatMap f).filter fun a => decide (key a = k)) =
      (l.filter fun p => !(holding p).isEmpty).flatMap holding := by
    intro l
    induction l with
    | nil => rfl
    | cons p l ih =>
      rw [flatMap_cons, filter_append, ih, filter_cons]
      cases nothing : (holding p).isEmpty with
      | true =>
        have empty : ((f p).filter fun a => decide (key a = k)) = [] :=
          isEmpty_iff.mp nothing
        simp [empty]
      | false => simp [holding]
  rw [selects, selects]
  rw [first.filter_seen second same]
  intro p inP q inQ hasP hasQ different
  by_contra neither
  rw [not_or] at neither
  have nonempty : ∀ p, (!(holding p).isEmpty) = true → ∃ a ∈ f p, key a = k := by
    intro p has
    obtain ⟨a, mem⟩ := exists_mem_of_ne_nil (holding p) (by simpa using has)
    obtain ⟨inFile, isKey⟩ := mem_filter.mp mem
    exact ⟨a, inFile, of_decide_eq_true isKey⟩
  obtain ⟨a, inA, keyA⟩ := nonempty p hasP
  obtain ⟨b, inB, keyB⟩ := nonempty q hasQ
  exact apart p inP q inQ different neither.1 neither.2 a inA b inB (keyA.trans keyB.symm)

theorem merged_alike {s t : Importing} {a b : API} {r : Rendering}
    (first : Finished load root root.filename root (startImporting root) a s)
    (second : Finished load root root.filename root (startImporting root) b t)
    (determined : Determined r load root) : Alike a b := by
  have explored := first.explored
  have exploredToo := second.explored
  have same : s.seen.Perm t.seen := by
    have files : (root.filename :: s.seen).Perm (root.filename :: t.seen) := by
      rw [perm_ext_iff_of_nodup explored.once exploredToo.once]
      intro p
      rw [explored.reached, exploredToo.reached]
    exact (perm_cons _).mp files
  have reached : ∀ p ∈ s.seen, Reachable load root p :=
    fun p mem => (explored.reached p).mp (mem_cons_of_mem _ mem)
  rw [explored.merged, exploredToo.merged]
  refine ⟨rfl, rfl, ?_, ?_⟩
  · have types := flatMap_seen_same first.searching second.searching same
      (fun p => (typesAt load root p).flatMap TypeStmt.exprs) typeName
      (fun p inP q inQ => determined.types p q (reached p inP) (reached q inQ))
    simp only [API.typeExprs, API.extend, flatMap_append, flatMap_assoc]
    exact types.append_left _
  · have services := flatMap_seen_same first.searching second.searching same
      (servicesAt load root) ServiceStmt.groupProperty
      (fun p inP q inQ => determined.services p q (reached p inP) (reached q inQ))
    exact services.append_left root.serviceStmts

end

/-- The stages that `Parse` goes through before it returns a spec. -/
theorem parse_eq_ok {r : Rendering} {load : Str → Except LoadFailure API}
    {order : Importing → GoMap.RangeOrder Str Token}
    {infoOrder : GoMap.RangeOrder Str Str} {fuel : Nat} {path : Str} {root : API}
    (loaded : load path = .ok root) {spec : ApiSpec} :
    parse r load order infoOrder fuel path = .ok spec ↔
      ∃ merged s, parseReverse load order fuel root (startImporting root) = .ok (merged, s) ∧
        merged.checkMerged r.printing = .ok () ∧ convert2Spec r infoOrder merged = .ok spec := by
  rw [parse, loaded]
  simp only [API.selfCheck]
  cases parsed : parseReverse load order fuel root (startImporting root) with
  | error failure => simp
  | ok result =>
    obtain ⟨merged, s⟩ := result
    cases checked : merged.checkMerged r.printing with
    | error failure => simp [checked, Except.map]
    | ok =>
      cases converted : convert2Spec r infoOrder merged with
      | error failure | ok result => simp [checked, converted, Except.map, Except.mapError]

/-- A spec that one order of the loops gives, every order gives. -/
theorem parse_order_independent (r : Rendering) (load : Str → Except LoadFailure API)
    (path : Str) (root : API) (loaded : load path = .ok root) (files : List Str)
    (finite : ∀ p, Reachable load root p → p ∈ files) (determined : Determined r load root)
    (order other : Importing → GoMap.RangeOrder Str Token)
    (infoOrder otherInfo : GoMap.RangeOrder Str Str) (spec : ApiSpec)
    (accepted : parse r load order infoOrder (files.length + 1) path = .ok spec) :
    parse r load other otherInfo (files.length + 1) path = .ok spec := by
  have few : unloaded files (startImporting root) < files.length + 1 :=
    Nat.lt_succ_of_le (length_filter_le _ _)
  have sound : ∀ order : Importing → GoMap.RangeOrder Str Token,
      ReverseSound load root root.filename root (startImporting root)
        (parseReverse load order (files.length + 1) root (startImporting root)) :=
    fun order => parseReverse_sound finite _ _ root _ Searching.start rfl (if_pos rfl) few
  obtain ⟨merged, s, parsed, checked, converted⟩ := (parse_eq_ok loaded).mp accepted
  have first := (sound order).1 merged s parsed
  -- Another order meets neither a cycle nor a file that is refused.
  obtain ⟨otherMerged, t, otherParsed⟩ : ∃ otherMerged t,
      parseReverse load other (files.length + 1) root (startImporting root) =
        .ok (otherMerged, t) := by
    cases outcome : parseReverse load other (files.length + 1) root (startImporting root) with
    | ok result => exact ⟨result.1, result.2, rfl⟩
    | error failure =>
      have explained := (sound other).2 failure outcome
      obtain ⟨position, rfl⟩ := explained.cycle first.agreeing
      exact absurd explained first.explored.acyclic
  have alike := merged_alike first ((sound other).1 otherMerged t otherParsed) determined
  have merges := first.explored.merged
  have printed : ∀ service ∈ merged.serviceStmts,
      serviceNameText r.printing service.name ≠ [] := by
    rw [merges]
    intro service mem
    rcases mem_append.mp mem with own | imported
    · refine determined.printed root.filename .refl service ?_
      rwa [servicesAt, fileAt, if_pos rfl]
    · obtain ⟨p, seen, inFile⟩ := mem_flatMap.mp imported
      exact determined.printed p
        ((first.explored.reached p).mp (mem_cons_of_mem _ seen)) service inFile
  have info : merged.info = root.info := by rw [merges]; rfl
  exact (parse_eq_ok loaded).mpr ⟨otherMerged, t, otherParsed, alike.checkMerged _ checked,
    convert2Spec_same r alike printed (info ▸ determined.info) converted⟩

def reversedOrder {K V : Type} : GoMap.RangeOrder K V := ⟨List.reverse, reverse_perm⟩

def plainRendering : Rendering := ⟨Printing.plain, fun _ => [], id⟩

theorem eq_ok_loadRoot {files : Str → Option Str} {path : Str}
    (loads : (loadFile files path).toOption.isSome) :
    loadFile files path = .ok (loadRoot files path) := by
  rw [loadRoot]
  cases outcome : loadFile files path with
  | error failure =>
    rw [outcome] at loads
    cases loads
  | ok api => rfl

/-- Two imported files with different groups. -/
def groupFiles : Str → Option Str :=
  contents [("/m.api", "import \"a.api\"\nimport \"b.api\""),
    ("/a.api", "@server (\ngroup: x\n)\nservice s \x7b\n@handler a\nget /a\n\x7d"),
    ("/b.api", "@server (\ngroup: y\n)\nservice s \x7b\n@handler b\nget /b\n\x7d")]

def groupPaths : List Str := [bytes "/m.api", bytes "/a.api", bytes "/b.api"]

def groupRoot : API := loadRoot groupFiles (bytes "/m.api")

theorem groupFiles_determined :
    Determined plainRendering (loadFile groupFiles) groupRoot ∧
      ∀ p, Reachable (loadFile groupFiles) groupRoot p → p ∈ groupPaths := by
  have closed : ∀ path ∈ groupPaths,
      ∀ imported ∈ importsAt (loadFile groupFiles) groupRoot path, imported ∈ groupPaths := by
    decide +kernel
  have known := reachable_mem (by decide +kernel) closed
  have noTypes : ∀ path ∈ groupPaths, ((typesAt (loadFile groupFiles) groupRoot path).flatMap
      TypeStmt.exprs).map typeName = [] := by
    decide +kernel
  have groups : ∀ p ∈ groupPaths, ∀ q ∈ groupPaths, p ≠ q →
      ∀ g ∈ (servicesAt (loadFile groupFiles) groupRoot p).map ServiceStmt.groupProperty,
      ∀ h ∈ (servicesAt (loadFile groupFiles) groupRoot q).map ServiceStmt.groupProperty,
        g ≠ h := by
    decide +kernel
  have names : ∀ p ∈ groupPaths, ∀ name ∈ (servicesAt (loadFile groupFiles) groupRoot p).map
      fun service => serviceNameText Printing.plain service.name, name ≠ [] := by
    decide +kernel
  have noInfo : groupRoot.info.isNone := by decide +kernel
  refine ⟨⟨?_, ?_, ?_, ?_⟩, known⟩
  · intro p q reached _ _ _ _ a mem
    rw [map_eq_nil_iff.mp (noTypes p (known p reached))] at mem
    cases mem
  · intro p q reachedP reachedQ different _ _ a inA b inB
    exact groups p (known p reachedP) q (known q reachedQ) different _ (mem_map_of_mem inA) _
      (mem_map_of_mem inB)
  · intro p reached service mem
    exact names p (known p reached) _ (mem_map.mpr ⟨service, mem, rfl⟩)
  · intro key value other otherValue found
    rw [Option.isNone_iff_eq_none.mp noInfo] at found
    cases found

theorem parse_order_independent_groups :
    ∃ spec,
      parse plainRendering (loadFile groupFiles) (fun _ => storedOrder) storedOrder 4
        (bytes "/m.api") = .ok spec ∧
      parse plainRendering (loadFile groupFiles) (fun _ => reversedOrder) reversedOrder 4
        (bytes "/m.api") = .ok spec := by
  have accepted : (parse plainRendering (loadFile groupFiles) (fun _ => storedOrder) storedOrder 4
      (bytes "/m.api")).toOption.isSome := by decide +kernel
  obtain ⟨spec, parsed⟩ := Option.isSome_iff_exists.mp accepted
  have parses := toOption_eq_some.mp parsed
  exact ⟨spec, parses, parse_order_independent plainRendering (loadFile groupFiles)
    (bytes "/m.api") (loadRoot groupFiles (bytes "/m.api")) (eq_ok_loadRoot (by decide +kernel))
    groupPaths groupFiles_determined.2 groupFiles_determined.1 _ _ _ _ spec parses⟩

/-- Two imported files, each with a service that has no properties. -/
def serviceFiles : Str → Option Str :=
  contents [("/m.api", "import \"a.api\"\nimport \"b.api\""),
    ("/a.api", "service s \x7b\n@handler a\nget /a\n\x7d"),
    ("/b.api", "service s \x7b\n@handler b\nget /b\n\x7d")]

def ApiSpec.handlers (spec : ApiSpec) : List (List Str) :=
  spec.groups.map fun group => group.routes.map Route.handler

/-- The groups come in the order in which the files were imported. -/
theorem groups_follow_import_order :
    ∃ first second,
      parse plainRendering (loadFile serviceFiles) (fun _ => storedOrder) storedOrder 4
        (bytes "/m.api") = .ok first ∧
      parse plainRendering (loadFile serviceFiles) (fun _ => reversedOrder) storedOrder 4
        (bytes "/m.api") = .ok second ∧
      first.handlers = [[bytes "b"], [bytes "a"]] ∧ second.handlers = [[bytes "a"], [bytes "b"]] := by
  have one : ((parse plainRendering (loadFile serviceFiles) (fun _ => storedOrder) storedOrder 4
      (bytes "/m.api")).toOption.map ApiSpec.handlers) = some [[bytes "b"], [bytes "a"]] := by
    decide +kernel
  have two : ((parse plainRendering (loadFile serviceFiles) (fun _ => reversedOrder) storedOrder 4
      (bytes "/m.api")).toOption.map ApiSpec.handlers) = some [[bytes "a"], [bytes "b"]] := by
    decide +kernel
  obtain ⟨first, accepted, handlers⟩ := exists_ok one
  obtain ⟨second, acceptedToo, handlersToo⟩ := exists_ok two
  exact ⟨first, second, accepted, acceptedToo, handlers, handlersToo⟩

end FastGoZero.Api
