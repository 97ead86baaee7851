import FastGoZero.Mapping.Unmarshaler

/-!
# What the caches are asked

The calls of a process share its caches. What a call may look up there follows from its tag key
and the type of its target: the tags of the fields that it fills, the struct types nested in
them, and the defaults of their slices. Calls are compatible if they can expect the same answers.
They also share the maps of the package, which no map of a caller may hold.
-/

namespace FastGoZero.Mapping

open Lib Lib.Memo

/-- A call of `Unmarshal`, with the maps of the caller and a bound on how deep it goes. -/
structure Call where
  u : Unmarshaler
  fuel : Nat
  maps : Nat → GoMap Str Any
  input : Any
  type : GoType
  value : Value

section

variable (process : Process)

/-- The maps of the package as they are when the process starts. -/
def packageMaps : PackageRef → GoMap Str Any
  | .emptyMap => ∅
  | .default text n => process.defaultMaps text n

def Call.heap (call : Call) (package : PackageRef → GoMap Str Any) : Heap
  | .own n => call.maps n
  | .package ref => package ref

/-- What a call does to the maps of the package and to the caches. -/
def Call.program (call : Call) (package : PackageRef → GoMap Str Any) :
    Program CacheKey CacheKey.Value Failure
      ((Except Failure Value × Heap) × (PackageRef → GoMap Str Any)) :=
  (unmarshal process call.u call.fuel call.input call.type call.value (call.heap package)).bind
    fun outcome => .done (outcome, fun ref => outcome.2 (.package ref))

/-- The result of a call after others, and the maps as they are then. -/
def resultAfter (earlier : List Call) (call : Call) : Except Failure Value × Heap :=
  let (package, caches) :=
    Program.runAll (earlier.map (Call.program process)) (packageMaps process, fun _ => none)
  ((call.program process package).run caches).1.1

/-- Variables of the type may be filled when one of the type `target` is. -/
inductive Fills (key : Str) (target : GoType) : GoType → Prop
  | target : Fills key target target
  | ptr {elem : GoType} (fills : Fills key target (.ptr elem)) : Fills key target elem
  | slice {elem : GoType} (fills : Fills key target (.slice elem)) : Fills key target elem
  | array {n : Nat} {elem : GoType} (fills : Fills key target (.array n elem)) :
      Fills key target elem
  | map {mapKey elem : GoType} (fills : Fills key target (.map mapKey elem)) :
      Fills key target elem
  | field {name : TypeName} {field : StructField} (fills : Fills key target (.struct name))
      (declared : field ∈ process.decls name) (same : usingDifferentKeys key field = false) :
      Fills key target field.type

variable (calls : List Call) (key : Str)

/-- A call with the tag key may fill variables of the type. -/
def Filled (type : GoType) : Prop :=
  ∃ call ∈ calls, call.u.key = key ∧ Fills process key call.type type

/-- A call with the tag key may come to the field. -/
def Visited (field : StructField) : Prop :=
  ∃ name, Filled process calls key (.struct name) ∧ field ∈ process.decls name

/-- A call with the tag key may have to know whether the struct type is required. -/
def Nested (name : TypeName) : Prop :=
  ∃ field, Visited process calls key field ∧ usingDifferentKeys key field = false ∧
    field.anonymous = false ∧ field.type.deref = .struct name

def declaredDefault (field : StructField) : Str :=
  match parsedTag process field.name (tagText key field) with
  | .ok (.ok parsed) => (parsed.options.map fun options => options.defaultValue).getD []
  | _ => []

/-- The type of the elements that a default of the field would have. -/
def StructField.defaultElem (field : StructField) : Option GoType :=
  match field.type.deref with
  | .slice elem | .array _ elem => some elem
  | _ => none

/-- A map of the caller, or one of the package that holds no other. -/
def Harmless : Ref → Prop
  | .package (.default text n) =>
    ∀ key value ref, (process.defaultMaps text n).lookup key = some value → ¬value.Refers ref
  | _ => True

/-- Neither the caller's maps nor the input and the target hold a map of the package. -/
structure Call.Separate (call : Call) : Prop where
  maps : ∀ n key value ref, (call.maps n).lookup key = some value → ¬value.Refers (.package ref)
  input : ∀ ref, ¬call.input.Refers (.package ref)
  value : ∀ ref, ¬call.value.Refers (.package ref)

/-- No call can get an answer from the caches that is not its own. A tag that is wrong is on
fields of one name; a struct type is nested in targets of one tag key; a default is on slices of
strings, or on slices of other elements, and no object in it holds another. -/
structure Compatible : Prop where
  tags {key key' : Str} {field field' : StructField} {error : TagError} :
    Visited process calls key field → Visited process calls key' field' →
    tagText key field = tagText key' field' →
    parsedTag process field.name (tagText key field) = .ok (.error error) →
    field.name = field'.name
  structs {key key' : Str} {name : TypeName} :
    Nested process calls key name → Nested process calls key' name → key = key'
  defaults {key key' : Str} {field field' : StructField} {elem elem' : GoType} :
    Visited process calls key field → Visited process calls key' field' →
    field.defaultElem = some elem → field'.defaultElem = some elem' →
    declaredDefault process key field ≠ [] →
    declaredDefault process key field = declaredDefault process key' field' →
    (elem.deref.kind = .string ↔ elem'.deref.kind = .string)
  objects {key : Str} {field : StructField} {elem : GoType} {value : Any} {ref : Ref} :
    Visited process calls key field → field.defaultElem = some elem →
    elem.deref.kind ≠ .string →
    process.decodeDefault (declaredDefault process key field) = .ok value →
    value.Refers ref → Harmless process ref
  separate : ∀ call ∈ calls, call.Separate

end

section

variable {process : Process} {calls : List Call} {key : Str}

theorem Filled.deref {type : GoType} (filled : Filled process calls key type) :
    Filled process calls key type.deref := by
  induction type with
  | ptr elem ih =>
    obtain ⟨call, mem, same, fills⟩ := filled
    exact ih ⟨call, mem, same, fills.ptr⟩
  | _ => exact filled

theorem Filled.elem {type elem : GoType} (filled : Filled process calls key type)
    (shape : type.elem? = some elem) : Filled process calls key elem := by
  obtain ⟨call, mem, same, fills⟩ := filled
  refine ⟨call, mem, same, ?_⟩
  cases type <;> cases shape
  · exact fills.ptr
  · exact fills.slice
  · exact fills.array
  · exact fills.map

theorem Visited.filled {field : StructField} (visited : Visited process calls key field)
    (same : usingDifferentKeys key field = false) : Filled process calls key field.type := by
  obtain ⟨name, ⟨call, mem, sameKey, fills⟩, declared⟩ := visited
  exact ⟨call, mem, sameKey, fills.field declared same⟩

variable (process calls) in
/-- A call may store the answer under the key. -/
inductive Asked : (key : CacheKey) → Except Failure key.Value → Prop
  | keys (text : Str) : Asked (.keys text) (Except.ok (splitKey text))
  | options {key text : Str} {field : StructField} (visited : Visited process calls key field)
      (tag : tagText key field = text) : Asked (.options text) (parsedTag process field.name text)
  | required {key : Str} {name : TypeName} (nested : Nested process calls key name) :
      Asked (.required name) (requiredProgram process key name).plain
  | defaultValue {key text : Str} {field : StructField} {elem : GoType}
      (visited : Visited process calls key field) (shape : field.defaultElem = some elem)
      (declared : declaredDefault process key field = text) (given : text ≠ []) :
      Asked (.defaultValue text) (parseDefault process elem text)

/-- A tag that is not wrong parses to the same on every field. -/
theorem parsedTag_name {name other text : Str}
    (named : ∀ error, parsedTag process name text = .ok (.error error) → name = other) :
    parsedTag process name text = parsedTag process other text := by
  rw [parsedTag] at named ⊢
  rw [parsedTag]
  cases parsed : doParseKeyAndOptions process.parseFloat name text with
  | none => rw [doParseKeyAndOptions_eq_none parsed other]
  | some answer =>
    cases answer with
    | ok result => rw [doParseKeyAndOptions_name parsed other]
    | error error =>
      rw [parsed] at named
      rw [← named error rfl, parsed]

theorem parseDefault_elem {elem other : GoType} {text : Str}
    (same : elem.deref.kind = .string ↔ other.deref.kind = .string) :
    parseDefault process elem text = parseDefault process other text := by
  rw [parseDefault, parseDefault]
  exact if_congr same rfl rfl

theorem Compatible.unique (compatible : Compatible process calls) (key : CacheKey)
    (a b : Except Failure key.Value) (first : Asked process calls key a)
    (second : Asked process calls key b) : a = b := by
  cases first with
  | keys text =>
    cases second
    rfl
  | @options key text field visited tag =>
    cases second with
    | @options key' _ field' visited' tag' =>
      apply parsedTag_name
      intro error wrong
      exact compatible.tags visited visited' (tag.trans tag'.symm) (tag ▸ wrong)
  | @required key name nested =>
    cases second with
    | @required key' name nested' => rw [compatible.structs nested nested']
  | @defaultValue key text field elem visited shape declared given =>
    cases second with
    | @defaultValue key' _ field' elem' visited' shape' declared' _ =>
      apply parseDefault_elem
      exact compatible.defaults visited visited' shape shape' (declared ▸ given)
        (declared.trans declared'.symm)

end

section

variable {State α β : Type} {process : Process} {tag : Str}

/-- The code does not run forever when nothing is stored. -/
def Returns (code : Unmarshaling State α) : Prop :=
  ∀ state, (code state).plain.1 ≠ .error .diverges

theorem returns_pure {result : α} : Returns (pure result : Unmarshaling State α) := by
  rintro state ⟨⟩

theorem Returns.bind {code : Unmarshaling State α} {rest : α → Unmarshaling State β}
    (first : Returns code) (second : ∀ result, Returns (rest result)) :
    Returns (code >>= rest) := by
  intro state
  rw [Code.plain_bind]
  cases answer : (code state).plain.1 with
  | ok result => exact second result _
  | error failure =>
    intro same
    have diverges : failure = .diverges := Except.error.inj same
    exact first state (diverges ▸ answer)

theorem parsedTag_returns (name value : Str) : parsedTag process name value ≠ .error .diverges := by
  rw [parsedTag]
  split <;> simp

theorem returns_optionsCache {value : Str}
    {parsed : Except Failure (Except TagError TagOptions)} (returns : parsed ≠ .error .diverges) :
    Returns (optionsCache value parsed : Unmarshaling State (Except TagError TagOptions)) :=
  fun _ => returns

theorem returns_parseKeyAndOptions {field : StructField} :
    Returns (parseKeyAndOptions process tag field :
      Unmarshaling State (Str × Option FieldOptions)) := by
  rw [parseKeyAndOptions]
  split
  · exact returns_pure
  · refine (returns_optionsCache (parsedTag_returns _ _)).bind fun cache => ?_
    split
    · exact returns_pure
    · rintro state ⟨⟩

theorem returns_implicitValueRequiredFields {nested : TypeName → Unmarshaling Unit Bool}
    {fields : List StructField}
    (returns : ∀ field ∈ fields, ∀ name, field.type = .struct name → Returns (nested name)) :
    Returns (implicitValueRequiredFields process tag nested fields) := by
  induction fields with
  | nil => exact returns_pure
  | cons field fields ih =>
    obtain ⟨first, others⟩ := List.forall_mem_cons.mp returns
    have goesOn := ih others
    rw [implicitValueRequiredFields]
    split
    · exact returns_pure
    refine returns_parseKeyAndOptions.bind fun parsed => ?_
    split
    · rename_i name _ shape
      refine (first name shape).bind fun required => ?_
      split
      · exact returns_pure
      · exact goesOn
    · exact returns_pure
    · split
      · exact returns_pure
      · split
        · exact returns_pure
        · exact goesOn

/-- No struct holds itself, so `implicitValueRequiredStruct` comes to an end. -/
theorem returns_implicitValueRequiredStruct {fuel : Nat} {name : TypeName}
    (enough : process.depth name < fuel) :
    Returns (implicitValueRequiredStruct process tag fuel name) := by
  induction fuel generalizing name with
  | zero => omega
  | succ fuel ih =>
    apply returns_implicitValueRequiredFields
    intro field declared inner shape
    have deeper := process.depth_lt declared shape
    exact ih (by omega)

end

end FastGoZero.Mapping
