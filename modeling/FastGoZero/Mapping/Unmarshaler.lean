import FastGoZero.Mapping.Convert

/-!
# The unmarshaler

An unmarshaler fills a struct from a map. It finds the value of each field by the key of its tag,
checks it against the options, and converts it to the type of the field; a field without a value
gets its default. What it learns of tags, types and defaults it keeps in the caches of the
package.

The functions that lead back to themselves are tied together by `Self`, which counts down.
-/

namespace FastGoZero.Mapping

open Lib Lib.Memo Lang
open Lib.Str (bytes)

abbrev Unmarshaling (State : Type) := Code CacheKey CacheKey.Value Failure State

section

variable {State : Type} {α : Type}

def lift (answer : Except Failure α) : Unmarshaling State α :=
  Code.apply fun state => (answer, state)

def fails (error : MappingError) : Unmarshaling State α := Code.fail (.error error)

def panics : Unmarshaling State α := Code.fail .panic

end

section

variable {State : Type}

/-- Look a key up in `cacheKeys`, or store how it is split. -/
def cacheKeys (key : Str) (keys : List Str) : Unmarshaling State (List Str) :=
  @Code.memo CacheKey CacheKey.Value Failure State (.keys key) (.done (.ok keys))

/-- Look a default up in `defaultCache`, or store what it is; an error is not stored. -/
def defaultCache (defaultValue : Str) (slice : Except Failure Any) : Unmarshaling State Any :=
  @Code.memo CacheKey CacheKey.Value Failure State (.defaultValue defaultValue) (.done slice)

/-- Look a tag up in `optionsCache`, or store how it parses, even with an error. -/
def optionsCache (value : Str) (parsed : Except Failure (Except TagError TagOptions)) :
    Unmarshaling State (Except TagError TagOptions) :=
  @Code.memo CacheKey CacheKey.Value Failure State (.options value) (.done parsed)

/-- Look a type up in `structRequiredCache`, or find out and store it, even with an error. -/
def structRequiredCache (type : TypeName)
    (required : Program CacheKey CacheKey.Value Failure (Except Failure (Except TagError Bool))) :
    Unmarshaling State (Except TagError Bool) :=
  @Code.memo CacheKey CacheKey.Value Failure State (.required type) required

end

/-- `mapValuer`, `simpleValuer` and `recursiveValuer`. -/
inductive Valuer where
  | map (ref : Ref)
  | simple (current : Valuer) (parent : Option Valuer)
  | recursive (current : Valuer) (parent : Option Valuer)

/-- `for k, v := range pm { if _, ok := vm[k]; !ok { vm[k] = v } }`. -/
def Heap.merge (heap : Heap) (vm pm : Ref) : Heap :=
  Function.update heap vm ((heap vm).copyInto (heap pm))

namespace Valuer

/-- The method `Parent`. -/
def parentOf : Valuer → Option Valuer
  | map _ => none
  | simple _ none => none
  | simple _ (some p) => some (recursive p p.parentOf)
  | recursive _ none => none
  | recursive _ (some p) => some (recursive p p.parentOf)

/-- The method `Value`. A map that a recursive valuer finds takes over what the parent has under
the same key, and this changes the map of the input. -/
def value : Nat → Valuer → Str → Unmarshaling Heap (Option Any)
  | 0, _, _ => Code.fail .diverges
  | _ + 1, map ref, key => do
    let heap ← Code.get
    pure ((heap ref).lookup key)
  | fuel + 1, simple current _, key => current.value fuel key
  | fuel + 1, recursive current parent, key => do
    let val ← current.value fuel key
    match val, (recursive current parent).parentOf with
    | none, none => pure none
    | none, some parent => parent.value fuel key
    | some (.map vm), some parent => do
      let pv ← parent.value fuel key
      match pv with
      | some (.map pm) => do
        Code.modify fun heap => heap.merge vm pm
        pure (some (.map vm))
      | _ => pure (some (.map vm))
    | some val, _ => pure (some val)

end Valuer

/-- `strings.FieldsFunc` with the delimiter. -/
def splitKey (key : Str) : List Str :=
  (key.splitOn 46).filter fun part => !part.isEmpty

def readKeys (key : Str) (isOpaque : Bool) : Unmarshaling Heap (List Str) :=
  if isOpaque then pure [key]
  else cacheKeys key (splitKey key)

def getValueWithChainedKeys (fuel : Nat) :
    Valuer → List Str → Unmarshaling Heap (Option Any)
  | _, [] => pure none
  | m, [key] => m.value fuel key
  | m, key :: keys => do
    let v ← m.value fuel key
    match v with
    | some (.map nextm) => getValueWithChainedKeys fuel (.recursive (.map nextm) (some m)) keys
    | _ => pure none

def getValue (fuel : Nat) (m : Valuer) (key : Str) (isOpaque : Bool) :
    Unmarshaling Heap (Option Any) := do
  let keys ← readKeys key isOpaque
  getValueWithChainedKeys fuel m keys

open FieldOptionsWithContext

def createValuer (v : Valuer) (opts : Option FieldOptionsWithContext) : Valuer :=
  if opts.any inherit then .recursive v v.parentOf
  else .simple v v.parentOf

def tagText (tagName : Str) (field : StructField) : Str :=
  Utf8.trimSpace ((field.lookup tagName).getD [])

section

variable {State : Type} (process : Process)

/-- `doParseKeyAndOptions`, which panics on a tag without a segment. -/
def parsedTag (name text : Str) : Except Failure (Except TagError TagOptions) :=
  match doParseKeyAndOptions process.parseFloat name text with
  | none => .error .panic
  | some parsed => .ok parsed

def parseKeyAndOptions (tagName : Str) (field : StructField) :
    Unmarshaling State (Str × Option FieldOptions) :=
  let value := tagText tagName field
  if value = [] then pure (field.name, none)
  else do
    let cache ← optionsCache value (parsedTag process field.name value)
    match cache with
    | .ok cache => pure (if cache.key = [] then field.name else cache.key, cache.options)
    | .error error => fails (.tag error)

/-- The loop of `implicitValueRequiredStruct` over the fields. -/
def implicitValueRequiredFields (tag : Str) (nested : TypeName → Unmarshaling Unit Bool) :
    List StructField → Unmarshaling Unit Bool
  | [] => pure false
  | childField :: rest =>
    if usingDifferentKeys tag childField then pure true
    else do
      let parsed ← parseKeyAndOptions process tag childField
      match parsed.2, childField.type with
      | none, .struct name => do
        let required ← nested name
        if required then pure true else implicitValueRequiredFields tag nested rest
      | none, _ => pure true
      | some opts, _ =>
        if !opts.optional && opts.defaultValue.isEmpty then pure true
        else if opts.optionalDep.head? == some notSymbol then pure true
        else implicitValueRequiredFields tag nested rest

def implicitValueRequiredStruct (tag : Str) : Nat → TypeName → Unmarshaling Unit Bool
  | 0, _ => Code.fail .diverges
  | fuel + 1, type =>
    implicitValueRequiredFields process tag (implicitValueRequiredStruct tag fuel)
      (process.decls type)

/-- What `structValueRequired` stores: the answer or the error, and nothing after a panic. -/
def storedRequired : Except Failure Bool → Except Failure (Except TagError Bool)
  | .ok required => .ok (.ok required)
  | .error (.error (.tag error)) => .ok (.error error)
  | .error failure => .error failure

/-- What `structValueRequired` computes. Structs are nested no deeper than their depth. -/
def requiredProgram (tag : Str) (type : TypeName) :
    Program CacheKey CacheKey.Value Failure (Except Failure (Except TagError Bool)) :=
  (implicitValueRequiredStruct process tag (process.depth type + 1) type ()).bind
    fun outcome => .done (storedRequired outcome.1)

def structValueRequired (tag : Str) (type : TypeName) : Unmarshaling State Bool := do
  let val ← structRequiredCache type (requiredProgram process tag type)
  match val with
  | .ok required => pure required
  | .error error => fails (.tag error)

end

structure Unmarshaler where
  key : Str
  fillDefault : Bool := false
  fromArray : Bool := false
  fromString : Bool := false
  opaqueKeys : Bool := false
  canonicalKey : Option (Str → Str) := none

namespace Unmarshaler

/-- The key in its canonical form, if there is one. -/
def canonical (u : Unmarshaler) (key : Str) : Str :=
  match u.canonicalKey with
  | none => key
  | some canonicalKey => canonicalKey key

/-- The options with the key they depend on in its canonical form. -/
def canonicalOptions (u : Unmarshaler) (options : FieldOptions) : FieldOptions :=
  if options.optionalDep = [] then options
  else { options with optionalDep := u.canonical options.optionalDep }

end Unmarshaler

section

variable (process : Process) (u : Unmarshaler) (fuel : Nat) (o : FieldOptions) (key : Str)
  (m : Valuer) (fullName : Str)

/-- Whether the field is optional, by which keys the input has. -/
def optionalInContext : Unmarshaling Heap Bool :=
  if !o.optional then pure false
  else
    match o.optionalDep with
    | [] => pure true
    | first :: rest =>
      if first = notSymbol then
        if rest = [] then fails (.wrongOptionalValue key fullName)
        else do
          let base ← m.value fuel rest
          let own ← m.value fuel key
          if base.isSome = own.isSome then fails (.eitherOr rest key fullName)
          else pure base.isSome
      else do
        let base ← m.value fuel (first :: rest)
        let own ← m.value fuel key
        if base.isSome ≠ own.isSome then fails (.bothOrNeither (first :: rest) key fullName)
        else pure !base.isSome

/-- Options that change are built anew, without `Inherit` and `Range`. -/
def withOptional (optional : Bool) : FieldOptionsWithContext :=
  if o.optional = optional then o.toFieldOptionsWithContext
  else
    { fromString := o.fromString
      optional
      options := o.options
      defaultValue := o.defaultValue
      envVar := o.envVar }

def toOptionsWithContext : Unmarshaling Heap FieldOptionsWithContext := do
  let optional ← optionalInContext fuel o key m fullName
  pure (withOptional o optional)

def parseOptionsWithContext (field : StructField) (m : Valuer) (fullName : Str) :
    Unmarshaling Heap (Str × Option FieldOptionsWithContext) := do
  let parsed ← parseKeyAndOptions process u.key field
  match parsed.2 with
  | none => pure (parsed.1, none)
  | some options =>
    let key := u.canonical parsed.1
    let options := u.canonicalOptions options
    if u.fillDefault then pure (key, some options.toFieldOptionsWithContext)
    else do
      let optsWithContext ← toOptionsWithContext fuel options key m fullName
      pure (key, some optsWithContext)

end

/-- The functions that lead back to themselves: into the fields of a struct, the elements of a
slice, and the entries of a map. -/
structure Self where
  processField : StructField → Variable → Valuer → Str → Unmarshaling Heap Value
  fillSlice : GoType → Variable → Any → Str → Unmarshaling Heap Value
  generateMap : GoType → GoType → Any → Str → Unmarshaling Heap Value

/-- `fmt.Sprintf("%s[%s]", fullName, index)`. -/
def indexed (fullName index : Str) : Str :=
  fullName ++ bytes "[" ++ index ++ bytes "]"

def join (first second : Str) : Str :=
  if first = [] then second
  else if second = [] then first
  else first ++ bytes "." ++ second

def ignoreKey : Str := bytes "-"

section

variable (process : Process) (u : Unmarshaler) (fuel : Nat) (self : Self) (fieldType : GoType)
  (x : Variable)

/-- The fields of a struct one after the other, and what they hold then. -/
def processFields (m : Valuer) (fullName : Str) :
    List (StructField × Value) → Unmarshaling Heap (List Value)
  | [] => pure []
  | (field, value) :: rest => do
    let x : Variable := { type := field.type, value, settable := field.exported }
    let value ← self.processField field x m fullName
    let values ← processFields m fullName rest
    pure (value :: values)

variable (name : TypeName)

/-- The fields of a struct type with what a value holds in them. -/
def fieldsOf (value : Value) : List (StructField × Value) :=
  (process.decls name).zip (value.fields (process.decls name).length)

/-- The loop of `unmarshalWithFullName`. -/
def fillStruct (value : Value) (m : Valuer) (fullName : Str) : Unmarshaling Heap Value := do
  let values ← processFields self m fullName (fieldsOf process name value)
  pure (.struct values)

/-- `unmarshal` of a map into a new struct. -/
def unmarshalNew (ref : Ref) (fullName : Str) : Unmarshaling Heap Value :=
  fillStruct process self name .zero (.simple (.map ref) none) fullName

def processFieldStruct (x : Variable) (m : Valuer) (fullName : Str) : Unmarshaling Heap Value :=
  if fieldType.kind = .ptr then do
    let target ← fillStruct process self name .zero m fullName
    lift (x.set fieldType (Value.wrap fieldType target))
  else fillStruct process self name x.value m fullName

def fillMap (mapValue : Any) (fullName : Str) : Unmarshaling Heap Value :=
  if !x.settable then fails .valueNotSettable
  else
    match fieldType with
    | .map fieldKeyType fieldElemType => do
      let targetValue ← self.generateMap fieldKeyType fieldElemType mapValue fullName
      if x.type = .map fieldKeyType fieldElemType then pure targetValue else fails .typeMismatch
    | _ => panics

def fillMapFromString (text : Str) : Unmarshaling Heap Value :=
  if !x.settable then fails .valueNotSettable
  else Code.apply fun heap =>
    let (answer, heap) := process.decodeInto x.type x.value text heap
    (answer.mapError fun cause => .error (.json text cause), heap)

def fillSliceValue (elemType : GoType) (value : Any) (fullName : Str) : Unmarshaling Heap Value :=
  let ithVal : Variable := { type := elemType, value := .zero }
  match value with
  | .nil => fails .nilSliceElement
  | .number text => lift (setValueFromString process ithVal text)
  | .duration d => lift (setValueFromString process ithVal (process.formatDuration d))
  | .string text => lift (setValueFromString process ithVal text)
  | .map ref => fillMap self elemType ithVal (.map ref) fullName
  | value =>
    let baseType := elemType.deref
    if baseType = .any then pure (Value.wrap elemType (.any value))
    else if value.type? = some baseType then pure (Value.wrap elemType value.toValue)
    else fails .typeMismatch

/-- An element of `fillSlice` that is not nil. -/
def fillElement (baseType : GoType) (ithValue : Any) (sliceFullName : Str) :
    Unmarshaling Heap Value :=
  match baseType.deref, ithValue with
  | .struct name, .map ref => do
    let target ← unmarshalNew process self name ref sliceFullName
    pure (Value.wrap baseType target)
  | .struct _, _ => fails .typeMismatch
  | .slice elem, ithValue =>
    self.fillSlice (.slice elem) { type := baseType, value := .zero } ithValue sliceFullName
  | _, ithValue => fillSliceValue process self baseType ithValue sliceFullName

/-- The elements of `fillSlice` from an index on, and whether one of them is not nil. -/
def fillElements (baseType : GoType) (fullName : Str) :
    Nat → List Any → Unmarshaling Heap (List Value × Bool)
  | _, [] => pure ([], false)
  | i, .nil :: rest => do
    let others ← fillElements baseType fullName (i + 1) rest
    pure (.zero :: others.1, others.2)
  | i, ithValue :: rest => do
    let value ← fillElement process self baseType ithValue (indexed fullName (digits i))
    let others ← fillElements baseType fullName (i + 1) rest
    pure (value :: others.1, true)

def fillSlice (mapValue : Any) (fullName : Str) : Unmarshaling Heap Value :=
  if !x.settable then fails .valueNotSettable
  else
    match mapValue, fieldType.elem? with
    | .nil, _ => panics
    | .slice _ none, _ => pure x.value
    | .slice _ (some _), none => panics
    | .slice _ (some []), some baseType => lift (x.set (.slice baseType) (.slice []))
    | .slice _ (some elems), some baseType => do
      let conv ← fillElements process self baseType fullName 0 elems
      if conv.2 then lift (x.set (.slice baseType) (.slice conv.1)) else pure x.value
    | mapValue, _ =>
      fails (.mismatchWithHint fullName (bytes "slice")
        ((mapValue.type?.map GoType.text).getD []))

/-- The text is decoded into a new slice of any values. -/
def decodeSlice (text fullName : Str) : Unmarshaling Heap (List Any) :=
  Code.apply fun heap =>
    let (answer, heap) := process.decodeSlice text heap
    ((answer.mapError fun cause => .error (.sliceJson fullName text cause)).map
      fun slice => slice.getD [], heap)

/-- The new elements have no pointers, whatever the field has. -/
def fillSliceFromString (text fullName : Str) : Unmarshaling Heap Value := do
  let slice ← decodeSlice process text fullName
  match fieldType.elem? with
  | none => panics
  | some elem => do
    let conv ← slice.foldlM (fun conv value => do
      let value ← fillSliceValue process self elem.deref value fullName
      pure (conv ++ [value])) []
    lift (x.set (.slice elem.deref) (.slice conv))

/-- A default is read as segments for strings and as JSON for other elements. -/
def parseDefault (elem : GoType) (defaultValue : Str) : Except Failure Any :=
  if elem.deref.kind = .string then
    let segments := parseGroupedSegments defaultValue
    .ok (.slice .string (if segments = [] then none else some (segments.map Any.string)))
  else (process.decodeDefault defaultValue).mapError fun cause => .error (.json defaultValue cause)

/-- The cache knows a default by its text alone. -/
def fillSliceWithDefault (derefedType : GoType) (x : Variable) (defaultValue fullName : Str) :
    Unmarshaling Heap Value :=
  match derefedType.elem? with
  | none => panics
  | some elem => do
    let slice ← defaultCache defaultValue (parseDefault process elem defaultValue)
    self.fillSlice derefedType x slice fullName

/-- An element of `generateMap` that is neither a slice nor a struct nor a map. The variable of
the element has no pointers, so that a type with pointers panics. -/
def primitiveEntry (elemType : GoType) (keythData : Any) : Except Failure Value :=
  let dereffedElemType := elemType.deref
  let x : Variable := { type := elemType, value := .zero }
  match keythData with
  | .bool b =>
    if dereffedElemType.kind = .bool then x.set .bool (.bool b) else throws .typeMismatch
  | .string s =>
    if dereffedElemType = .string then x.set .string (.string s) else throws .typeMismatch
  | .number text => do
    let target ← setValueFromString process { type := dereffedElemType, value := .zero } text
    x.set dereffedElemType target
  -- what the map holds is an interface
  | keythData =>
    if dereffedElemType.kind = .interface then x.set .any (.any keythData)
    else throws .typeMismatch

/-- An entry of `generateMap`. -/
def generateEntry (elemType : GoType) (keythData : Any) (mapFullName : Str) :
    Unmarshaling Heap Value :=
  match elemType.deref, keythData with
  | .slice elem, keythData => do
    let target ← self.fillSlice elemType { type := .slice elem, value := .zero } keythData
      mapFullName
    if elemType = .slice elem then pure target else panics
  | .struct name, .map ref => do
    let target ← unmarshalNew process self name ref mapFullName
    pure (Value.wrap elemType target)
  | .struct _, _ => fails .typeMismatch
  | .map _ _, .map ref =>
    match elemType with
    | .map key elem => self.generateMap key elem (.map ref) mapFullName
    | _ => panics
  | .map _ _, _ => fails .typeMismatch
  | _, keythData => lift (primitiveEntry process elemType keythData)

def generateMap (keyType elemType : GoType) (mapValue : Any) (fullName : Str) :
    Unmarshaling Heap Value :=
  match mapValue with
  | .map ref =>
    if keyType = .string ∧ elemType = .any then pure (.sameMap ref)
    else if keyType ≠ .string then fails .typeMismatch
    else do
      let heap ← Code.get
      let entries ← (heap ref).entries.foldlM (fun entries entry => do
        let value ← generateEntry process self elemType entry.2 (indexed fullName entry.1)
        pure (entries ++ [(entry.1, value)])) []
      pure (.map entries)
  | _ => panics

def processFieldNotFromString (mapValue : Any) (parent : Option Valuer)
    (opts : Option FieldOptionsWithContext) (fullName : Str) : Unmarshaling Heap Value :=
  match fieldType.deref, mapValue with
  | .struct name, .map ref =>
    processFieldStruct process self fieldType name x (.simple (.map ref) parent) fullName
  | .slice _, .slice elem elems => self.fillSlice fieldType x (.slice elem elems) fullName
  | .map _ _, .map ref => fillMap self fieldType x (.map ref) fullName
  | .map _ _, .string text | .map _ _, .number text => fillMapFromString process x text
  | .slice _, .string text | .slice _, .number text =>
    fillSliceFromString process self fieldType x text fullName
  | .duration, .string text => lift (fillDurationValue process fieldType x text)
  -- the assertion that the value is a string fails for a number
  | .duration, .number _ => panics
  | _, mapValue => lift (processFieldPrimitive process fieldType x mapValue opts fullName)

def processNamedFieldWithValue (mapValue : Any) (parent : Valuer) (key : Str)
    (opts : Option FieldOptionsWithContext) (fullName : Str) : Unmarshaling Heap Value :=
  match mapValue with
  | .nil =>
    if opts.any optional then pure x.value else fails (.mustNotBeNil key)
  | mapValue =>
    if !x.settable then fails (.fieldNotSettable key)
    else do
      let x ← lift (maybeNewValue fieldType x)
      let x := processFieldTextUnmarshaler fieldType x
      if (fieldType.deref.kind ∈ [.array, .map, .slice, .struct]) ∨
          !(u.fromString || opts.any fromString) then
        processFieldNotFromString process self fieldType x mapValue (some parent) opts fullName
      else lift (processNamedFieldWithValueFromString process x mapValue key opts fullName)

variable (opts : Option FieldOptionsWithContext) (fullName : Str)

def processFieldWithEmptyMap : Unmarshaling Heap Value :=
  processFieldNotFromString process self fieldType x (.map (.package .emptyMap)) none opts fullName

def processFieldWithDefault (defaultValue fullName : Str) : Unmarshaling Heap Value :=
  match fieldType.deref with
  | .duration => lift (fillDurationValue process fieldType x defaultValue)
  | .array n elem => fillSliceWithDefault process self (.array n elem) x defaultValue fullName
  | .slice elem => fillSliceWithDefault process self (.slice elem) x defaultValue fullName
  | _ => lift (setValueFromString process x defaultValue)

/-- A field without a value that is neither optional nor has a default. -/
def processRequiredField : Unmarshaling Heap Value :=
  match fieldType.deref with
  | .array _ _ | .map _ _ | .slice _ =>
    processFieldWithEmptyMap process self fieldType x opts fullName
  | .struct name => do
    let required ← structValueRequired process u.key name
    if required then fails (.structNotSet fullName)
    else processFieldWithEmptyMap process self fieldType x opts fullName
  | _ => fails (.notSet fullName)

def processNamedFieldWithoutValue : Unmarshaling Heap Value :=
  let defaultValue := (opts.map defaultValue).getD []
  if defaultValue ≠ [] then
    processFieldWithDefault process self fieldType x defaultValue fullName
  else if u.fillDefault then
    if fieldType.kind = .struct then processFieldWithEmptyMap process self fieldType x opts fullName
    else pure x.value
  else if opts.any optional then pure x.value
  else processRequiredField process u self fieldType x opts fullName

/-- With `fromArray`, a field that is no slice takes the first element. The kind of a nil value
cannot be asked for. -/
def firstOfArray (mapValue : Any) : Except Failure Any :=
  if u.fromArray ∧ fieldType.kind ≠ .slice ∧ fieldType.kind ≠ .array then
    match mapValue with
    | .nil => .error .panic
    | .slice _ (some (first :: _)) => .ok first
    | mapValue => .ok mapValue
  else .ok mapValue

/-- The value of the environment variable that the options name. -/
def envValue : Str :=
  match opts with
  | none => []
  | some opts => if opts.envVar = [] then [] else process.env opts.envVar

variable (field : StructField) (x : Variable) (m : Valuer) (fullName : Str)

/-- `processNamedField` from where the key and the options are known. -/
def processKeyedField (key : Str) (opts : Option FieldOptionsWithContext) (fullName : Str) :
    Unmarshaling Heap Value :=
  let envVal := envValue process opts
  if envVal ≠ [] then lift (processFieldWithEnvValue process field.type x envVal opts fullName)
  else do
    let valuer := createValuer m opts
    let found ← getValue fuel valuer (u.canonical key) u.opaqueKeys
    if u.fillDefault then
      if x.value.isZero then
        processNamedFieldWithoutValue process u self field.type x opts fullName
      else fails (.mustBeZero fullName)
    else
      match found with
      | none => processNamedFieldWithoutValue process u self field.type x opts fullName
      | some mapValue => do
        let mapValue ← lift (firstOfArray u field.type mapValue)
        processNamedFieldWithValue process u self field.type x mapValue valuer key opts fullName

def processNamedField : Unmarshaling Heap Value :=
  if !field.exported then pure x.value
  else do
    let parsed ← parseOptionsWithContext process u fuel field m fullName
    if parsed.1 = ignoreKey then pure x.value
    else processKeyedField process u fuel self field x m parsed.1 parsed.2 (join fullName parsed.1)

/-- The variables of the loop of `processAnonymousStructFieldOptional`. -/
structure Embedding where
  filled : Bool := false
  required : Nat := 0
  requiredFilled : Nat := 0
  fields : List Value := []

/-- A field of the embedded struct is processed if the input has it; a nil pointer to the struct
is set first. -/
def fillEmbedded (hasValue : Bool) (subField : StructField) (value : Value) :
    Unmarshaling Heap Value :=
  if hasValue then do
    let _ ← lift (maybeNewValue x.type x)
    let sub : Variable := { type := subField.type, value, settable := subField.exported }
    self.processField subField sub m fullName
  else pure value

/-- A pass of the loop of `processAnonymousStructFieldOptional`. -/
def processEmbedded (e : Embedding) (subField : StructField × Value) :
    Unmarshaling Heap Embedding := do
  let parsed ← parseOptionsWithContext process u fuel subField.1 m fullName
  let found ← getValue fuel m parsed.1 u.opaqueKeys
  let value ← fillEmbedded self x m fullName found.isSome subField.1 subField.2
  let counts := !parsed.2.any optional
  pure
    { filled := e.filled || found.isSome
      required := e.required + counts.toNat
      requiredFilled := e.requiredFilled + (counts && found.isSome).toNat
      fields := e.fields ++ [value] }

def processAnonymousStructFieldOptional (name : TypeName) (key : Str) (m : Valuer)
    (fullName : Str) : Unmarshaling Heap Value := do
  let e ← (fieldsOf process name x.value.indirect).foldlM
    (processEmbedded process u fuel self x m fullName) {}
  if !e.filled then pure x.value
  else if e.required ≠ e.requiredFilled then fails (.notFullySet key)
  else pure (Value.wrap x.type (.struct e.fields))

def processAnonymousFieldOptional (key : Str) (m : Valuer) (fullName : Str)
    : Unmarshaling Heap Value :=
  match field.type.deref with
  | .struct name => processAnonymousStructFieldOptional process u fuel self x name key m fullName
  | _ => processNamedField process u fuel self field x m fullName

def processAnonymousFieldRequired : Unmarshaling Heap Value := do
  let x ← lift (maybeNewValue field.type x)
  match field.type.deref with
  | .struct name => do
    let values ← processFields self m fullName (fieldsOf process name x.value.indirect)
    pure (Value.wrap field.type (.struct values))
  | _ => do
    let elem ← processNamedField process u fuel self field x.indirect m fullName
    pure (if field.type.kind = .ptr then .ptr elem else elem)

def processAnonymousField : Unmarshaling Heap Value := do
  let parsed ← parseOptionsWithContext process u fuel field m fullName
  if parsed.1 = ignoreKey then pure x.value
  else if parsed.2.any optional then
    processAnonymousFieldOptional process u fuel self field x parsed.1 m fullName
  else processAnonymousFieldRequired process u fuel self field x m fullName

def processField : Unmarshaling Heap Value :=
  if usingDifferentKeys u.key field then pure x.value
  else if field.anonymous then processAnonymousField process u fuel self field x m fullName
  else processNamedField process u fuel self field x m fullName

end

/-- The functions, for so many calls of one inside another. -/
def selfAt (process : Process) (u : Unmarshaler) : Nat → Self
  | 0 =>
    { processField := fun _ _ _ _ => Code.fail .diverges
      fillSlice := fun _ _ _ _ => Code.fail .diverges
      generateMap := fun _ _ _ _ => Code.fail .diverges }
  | fuel + 1 =>
    { processField := processField process u fuel (selfAt process u fuel)
      fillSlice := fillSlice process (selfAt process u fuel)
      generateMap := generateMap process (selfAt process u fuel) }

/-- `unmarshalWithFullName` of a map into what a pointer leads to. -/
def unmarshalWithFullName (process : Process) (self : Self) (ref : Ref) (name : TypeName)
    (elem : GoType) (target : Value) : Unmarshaling Heap Value :=
  if elem.kind = .ptr then do
    let target ← unmarshalNew process self name ref []
    pure (Value.wrap elem target)
  else fillStruct process self name target (.simple (.map ref) none) []

/-- `Unmarshal` of a value into a target of a type, which is a pointer and has the given value.
The result is what the pointer leads to then. -/
def unmarshal (process : Process) (u : Unmarshaler) (fuel : Nat) (i : Any) (type : GoType)
    (value : Value) : Unmarshaling Heap Value :=
  let self := selfAt process u fuel
  match type with
  | .ptr elem =>
    match i, elem.deref, value with
    | .map ref, .struct name, .ptr target =>
      unmarshalWithFullName process self ref name elem target
    | .map _, .struct _, _ => fails .notValidPointer
    | .map _, _, _ => fails .typeMismatch
    | .slice .any elems, .slice inner, .ptr target =>
      fillSlice process self (.slice inner) { type := elem, value := target }
        (.slice .any elems) []
    | .slice .any _, .slice _, _ => fails .valueNotSettable
    | .slice .any _, _, _ => fails .typeMismatch
    | _, _, _ => fails .unsupportedType
  | _ => fails .valueNotSettable

end FastGoZero.Mapping
