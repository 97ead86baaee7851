import FastGoZero.Conf.IterationOrder
import FastGoZero.Conf.Termination

/-!
# Keys of maps

The keys of an object that is decoded to a Go map are data and should stay as they are. They do if
the map is the type of a field. A map within a map, a slice or an array has no description of its
own: there the keys are rewritten by what is described of the innermost type. They stay if no key
is another spelling of a name that is described.
-/

namespace FastGoZero.Conf

open Lib Lib.Document List Option
open Lib.Str (bytes)

variable {Id α : Type}

section

variable (types : Id → TypeInfo Id) (lower : Str → Str)

/-- The field is a struct whose fields belong to the struct that it is embedded in. -/
def Flattened (field : StructField Id) : Prop :=
  field.anonymous = true ∧ ∃ fuel ft fields, deref types fuel field.type = some ft ∧
    types ft = .struct fields

/-- Under a path a value of a type has values of another type, which are rewritten so. -/
inductive Reaches : Id → Rewrite → List Step → Id → Rewrite → Prop
  | here {tp : Id} {how : Rewrite} : Reaches tp how [] tp how
  | ptr {tp elem t : Id} {how h : Rewrite} {path : List Step} (kind : types tp = .ptr elem)
      (rest : Reaches elem how path t h) : Reaches tp how path t h
  | elem {tp elem t : Id} {info : FieldInfo} {h : Rewrite} {i : Nat} {path : List Step}
      (kind : types tp = .array elem ∨ types tp = .slice elem)
      (rest : Reaches elem (.interface info) path t h) :
      Reaches tp (.interface info) (.index i :: path) t h
  | value {tp elem t : Id} {how h : Rewrite} {k : Str} {path : List Step}
      (kind : types tp = .map elem) (rest : Reaches elem (target lower how.info k).2 path t h) :
      Reaches tp how (.key k :: path) t h
  | field {tp t : Id} {fields : List (StructField Id)} {field : StructField Id} {how h : Rewrite}
      {k : Str} {path : List Step} (kind : types tp = .struct fields)
      (mem : field ∈ fields) (exported : field.exported = true)
      (kept : ¬ Flattened types field)
      (named : k = lower (getTagName field) ∨ lower k = lower (getTagName field))
      (rest : Reaches field.type (target lower how.info k).2 path t h) :
      Reaches tp how (.key k :: path) t h
  | embedded {tp t : Id} {fields : List (StructField Id)} {field : StructField Id}
      {how h : Rewrite} {path : List Step} (kind : types tp = .struct fields)
      (mem : field ∈ fields) (exported : field.exported = true)
      (flattened : Flattened types field) (rest : Reaches field.type how path t h) :
      Reaches tp how path t h

/-- A description is part of another one. -/
inductive Inside : FieldInfo → FieldInfo → Prop
  | here {info : FieldInfo} : Inside info info
  | child {info child inner : FieldInfo} {key : Str} (found : info.child? key = some child)
      (rest : Inside child inner) : Inside info inner
  | value {info value inner : FieldInfo} (found : info.mapField = some value)
      (rest : Inside value inner) : Inside info inner

/-- The name of a field of a struct, as it is described. -/
def IsFieldName (key : Str) : Prop :=
  ∃ tp fields, types tp = .struct fields ∧ ∃ field ∈ fields, key = lower (getTagName field)

end

/-- All names in a description are such. -/
inductive Named (Name : Str → Prop) : FieldInfo → Prop
  | mk {children : List (Str × FieldInfo)} {mapField : Option FieldInfo}
      (names : ∀ child ∈ children, Name child.1) (inside : ∀ child ∈ children, Named Name child.2)
      (values : ∀ info ∈ mapField, Named Name info) : Named Name (.mk children mapField)

namespace Named

variable {Name : Str → Prop} {info child next : FieldInfo} {key fullName : Str}

theorem names (named : Named Name info) : ∀ child ∈ info.children, Name child.1 := by
  obtain ⟨names, -, -⟩ := named
  exact names

theorem inside (named : Named Name info) : ∀ child ∈ info.children, Named Name child.2 := by
  obtain ⟨-, inside, -⟩ := named
  exact inside

theorem empty : Named Name .empty := ⟨by simp, by simp, by simp⟩

section

variable (named : Named Name info)

include named

theorem map : Named Name (.mk [] (some info)) :=
  ⟨by simp, by simp, by simpa using named⟩

theorem child? (found : info.child? key = some child) : Name key ∧ Named Name child := by
  obtain ⟨names, inside, -⟩ := named
  obtain ⟨entry, isEntry, rfl⟩ := map_eq_some_iff.mp found
  obtain rfl : entry.1 = key := by simpa using find?_some isEntry
  exact ⟨names _ (mem_of_find?_eq_some isEntry), inside _ (mem_of_find?_eq_some isEntry)⟩

theorem of_inside (part : Inside info child) : Named Name child := by
  induction part with
  | here => exact named
  | child found _ ih => exact ih (named.child? found).2
  | value found _ ih =>
    obtain ⟨-, -, values⟩ := named
    exact ih (values _ found)

theorem addChild (isName : Name key) (below : Named Name child) :
    Named Name (info.addChild key child) := by
  obtain ⟨names, inside, values⟩ := named
  refine ⟨forall_mem_append.mpr ⟨names, ?_⟩, forall_mem_append.mpr ⟨inside, ?_⟩, values⟩
  · exact forall_mem_singleton.mpr isName
  · exact forall_mem_singleton.mpr below

theorem setChild (isName : Name key) (below : Named Name child) :
    Named Name (info.setChild key child) := by
  obtain ⟨names, inside, values⟩ := named
  refine ⟨?_, ?_, values⟩
  · intro entry mem
    obtain ⟨old, isOld, rfl⟩ := mem_map.mp mem
    split
    · exact isName
    · exact names old isOld
  · intro entry mem
    obtain ⟨old, isOld, rfl⟩ := mem_map.mp mem
    split
    · exact below
    · exact inside old isOld

end

theorem foldlM {f : FieldInfo → Str × FieldInfo → Built}
    (step : ∀ {info entry next}, Named Name info → Name entry.1 → Named Name entry.2 →
      f info entry = .ok next → Named Name next)
    {children : List (Str × FieldInfo)} (names : ∀ entry ∈ children, Name entry.1)
    (inside : ∀ entry ∈ children, Named Name entry.2) (named : Named Name info)
    (result : children.foldlM f info = .ok next) : Named Name next := by
  induction children generalizing info with
  | nil => exact Except.ok.inj result ▸ named
  | cons entry children ih =>
    rw [forall_mem_cons] at names inside
    obtain ⟨after, one, result⟩ := bind_eq_ok.mp result
    exact ih names.2 inside.2 (step named names.1 inside.1 one) result

theorem addNewChild (named : Named Name info) (isName : Name key) (below : Named Name child)
    (result : Conf.addNewChild fullName info key child = .ok next) : Named Name next := by
  rw [Conf.addNewChild] at result
  split at result
  · cases result
  · exact Except.ok.inj result ▸ named.addChild isName below

theorem addOrMergeFields {entry : Str × FieldInfo} (named : Named Name info)
    (isName : Name entry.1) (below : Named Name entry.2)
    (result : Conf.addOrMergeFields fullName info entry = .ok next) : Named Name next := by
  rw [Conf.addOrMergeFields] at result
  split at result
  · rename_i prev found
    split at result
    · cases result
    obtain ⟨merged, merges, result⟩ := bind_eq_ok.mp result
    rw [mergeFields] at merges
    split at merges
    · cases merges
    have prevNamed := (named.child? found).2
    rw [← Except.ok.inj result]
    refine named.setChild isName (foldlM ?_ below.names below.inside prevNamed merges)
    intro info entry next named isName below result
    exact named.addNewChild isName below result
  · exact Except.ok.inj result ▸ named.addChild isName below

end Named

section

variable {types : Id → TypeInfo Id} {lower : Str → Str} {info : FieldInfo} {k : Str}

/-- If a description is added to one that is named, the result is named. -/
theorem named_of_bind {build : Option Built} {f : FieldInfo → Built} {next : FieldInfo}
    {Name : Str → Prop} (inner : ∀ info, build = some (.ok info) → Named Name info)
    (adds : ∀ info, Named Name info → f info = .ok next → Named Name next)
    (result : (build >>= fun r => pure (r.bind f)) = some (.ok next)) : Named Name next := by
  obtain ⟨built, describes, result⟩ := bind_eq_some_iff.mp result
  obtain ⟨info, rfl, added⟩ := bind_eq_ok.mp (some.inj result)
  exact adds info (inner info describes) added

section

variable {fuel : Nat} {key fullName : Str} {ft : Id} {field : StructField Id} {next : FieldInfo}
  (builds : ∀ {tp fullName info}, buildFieldsInfo types lower fuel tp fullName = some (.ok info) →
    Named (IsFieldName types lower) info) (named : Named (IsFieldName types lower) info)

include builds named

theorem Named.buildAnonymousFieldInfo (isName : IsFieldName types lower key)
    (result : Conf.buildAnonymousFieldInfo types fuel (buildFieldsInfo types lower fuel) info key ft
      fullName = some (.ok next)) : Named (IsFieldName types lower) next := by
  rw [Conf.buildAnonymousFieldInfo] at result
  split at result
  · exact named_of_bind (fun _ => builds) (fun inner below adds =>
      named.foldlM addOrMergeFields below.names below.inside adds) result
  · obtain ⟨elem, -, result⟩ := bind_eq_some_iff.mp result
    exact named_of_bind (fun _ => builds) (fun inner below adds =>
      named.addNewChild isName below.map adds) result
  · exact named.addNewChild isName .empty (some.inj result)

theorem Named.buildNamedFieldInfo (isName : IsFieldName types lower key)
    (result : Conf.buildNamedFieldInfo types fuel (buildFieldsInfo types lower fuel) info key ft
      fullName = some (.ok next)) : Named (IsFieldName types lower) next := by
  rw [Conf.buildNamedFieldInfo] at result
  refine named_of_bind ?_ (fun inner below adds => named.addOrMergeFields isName below adds) result
  intro inner describes
  split at describes
  · exact builds describes
  · exact builds describes
  · exact builds describes
  · obtain ⟨elem, -, describes⟩ := bind_eq_some_iff.mp describes
    obtain ⟨below, described, same⟩ := bind_eq_some_iff.mp describes
    cases below with
    | error err => cases same
    | ok value => cases same; exact (builds described).map
  · exact builds describes

theorem Named.buildField (isName : IsFieldName types lower (lower (getTagName field)))
    (result : Conf.buildField types lower fuel (buildFieldsInfo types lower fuel) info field
      fullName = some (.ok next)) : Named (IsFieldName types lower) next := by
  rw [Conf.buildField] at result
  split at result
  · cases result
    exact named
  · obtain ⟨ft, -, result⟩ := bind_eq_some_iff.mp result
    split at result
    · exact named.buildAnonymousFieldInfo builds isName result
    · exact named.buildNamedFieldInfo builds isName result

theorem Named.buildFields {fields : List (StructField Id)}
    (names : ∀ field ∈ fields, IsFieldName types lower (lower (getTagName field)))
    (result : buildFields types lower fuel (buildFieldsInfo types lower fuel) fullName info
      fields = some (.ok next)) : Named (IsFieldName types lower) next := by
  induction fields generalizing info with
  | nil => cases result; exact named
  | cons field rest ih =>
    rw [forall_mem_cons] at names
    obtain ⟨built, passes, result⟩ := bind_eq_some_iff.mp result
    cases built with
    | error err => cases result
    | ok after => exact ih (named.buildField builds names.1 passes) names.2 result

end

/-- All names in the description of a type are names of fields. -/
theorem named_of_built {fuel : Nat} {tp : Id} {fullName : Str}
    (built : buildFieldsInfo types lower fuel tp fullName = some (.ok info)) :
    Named (IsFieldName types lower) info := by
  induction fuel generalizing tp fullName info with
  | zero => cases built
  | succ fuel ih =>
    obtain ⟨ft, -, result⟩ := bind_eq_some_iff.mp built
    split at result
    · rename_i fields kind
      exact Named.empty.buildFields ih (fun field mem => ⟨ft, fields, kind, field, mem, rfl⟩) result
    iterate 3
      · obtain ⟨elem, -, result⟩ := bind_eq_some_iff.mp result
        exact ih result
    · cases result
    · cases result
    · cases result
      exact .empty

/-- A key stays unless it is another spelling of a name that is described. -/
theorem target_fst_eq_iff : (target lower info k).1 = k ↔
      (info.child? k = none → (info.child? (lower k)).isSome → lower k = k) := by
  rw [target.eq_def]
  cases found : info.child? k with
  | some child => simp
  | none =>
    cases foundLower : info.child? (lower k) with
    | some child => simp
    | none => cases info.mapField <;> simp

theorem isSome_of_target_ne (changed : (target lower info k).1 ≠ k) :
    (info.child? (target lower info k).1).isSome := by
  rw [target.eq_def] at changed ⊢
  cases found : info.child? k with
  | some child => simp [found] at changed
  | none =>
    cases foundLower : info.child? (lower k) with
    | some child => simp [foundLower]
    | none => cases mapField : info.mapField <;> simp [found, foundLower, mapField] at changed

end

/-- `struct { M map[string]map[string]struct { Name string } }`. -/
def mapsInMaps : Nat → TypeInfo Nat
  | 0 => .struct [⟨bytes "M", none, 1, false, true⟩]
  | 1 => .map 2
  | 2 => .map 3
  | 3 => .struct [⟨bytes "Name", none, 4, false, true⟩]
  | _ => .other

open CaseMapping

theorem buildFieldsInfo_mapsInMaps :
    buildFieldsInfo mapsInMaps asciiOnly.toLower 5 3 [] =
      some (.ok (.mk [(bytes "name", .empty)] none)) ∧
    buildFieldsInfo mapsInMaps asciiOnly.toLower 5 0 [] =
      some (.ok (.mk [(bytes "m", .mk []
        (some (.mk [(bytes "name", .empty)] none)))] none)) :=
  ⟨rfl, rfl⟩

end FastGoZero.Conf
