import FastGoZero.Mapping.Reflect
import Mathlib.Algebra.Group.Nat.Defs

/-!
# Conversion and validation of single values

A value of the input is checked against the options of its field and converted to the type of
the field. A function that sets a variable returns what the variable holds then.
-/

namespace FastGoZero.Mapping

open Lib Lang
open Lib.Str (bytes)

section

variable {α : Type}

def throws (error : MappingError) : Except Failure α := .error (.error error)

/-- An error of a library function is returned as it is. -/
def library (answer : Except Str α) : Except Failure α :=
  answer.mapError fun text => .error (.library text)

end

namespace Variable

/-- `reflect.Value.Set`, which panics on a value of another type. -/
def set (x : Variable) (type : GoType) (value : Value) : Except Failure Value :=
  if x.settable ∧ x.type = type then .ok value else .error .panic

/-- `reflect.Indirect`. -/
def indirect (x : Variable) : Variable :=
  match x.type with
  | .ptr elem => { x with type := elem, value := x.value.indirect }
  | _ => x

end Variable

/-- `reflect.Value.IsNil` panics on a variable that is no pointer. -/
def maybeNewValue (fieldType : GoType) (x : Variable) : Except Failure Variable :=
  if fieldType.kind ≠ .ptr then .ok x
  else if x.type.kind ≠ .ptr then .error .panic
  else if !x.value.isZero then .ok x
  else if x.settable then .ok { x with value := .ptr .zero }
  else .error .panic

/-- `processFieldTextUnmarshaler`, where no type has the method: a pointer to a pointer is set to
new ones all the same. -/
def processFieldTextUnmarshaler (fieldType : GoType) (x : Variable) : Variable :=
  match fieldType with
  | .ptr (.ptr _) => { x with value := Value.wrap fieldType .zero }
  | _ => x

/-- The loop of `strconv.ParseUint` in base 10, for values up to a largest. -/
def parseDigits (function text : Str) (maxVal : Nat) : Nat → Str → Except Failure Nat
  | n, [] => .ok n
  | n, c :: rest =>
    if 48 ≤ c ∧ c ≤ 57 then
      let n := 10 * n + (c.toNat - 48)
      if maxVal < n then throws (.numberTooLarge function text)
      else parseDigits function text maxVal n rest
    else throws (.numberSyntax function text)

variable (text : Str)

/-- `strconv.ParseUint` with base 10. -/
def parseUint (bits : Nat) : Except Failure Nat :=
  let function := bytes "ParseUint"
  if text = [] then throws (.numberSyntax function text)
  else parseDigits function text (2 ^ bits - 1) 0 text

/-- `strconv.ParseInt` with base 10. -/
def parseInt (bits : Nat) : Except Failure Int :=
  let function := bytes "ParseInt"
  let cutoff := 2 ^ (bits - 1)
  let negative : Bool := text.head? == some 45
  let unsigned := if negative || text.head? == some 43 then text.tail else text
  if unsigned = [] then throws (.numberSyntax function text)
  else
    match parseDigits function text (2 ^ bits - 1) 0 unsigned with
    | .error failure => .error failure
    | .ok un =>
      if negative then
        if cutoff < un then throws (.numberTooLarge function text) else .ok (-un)
      else if cutoff ≤ un then throws (.numberTooLarge function text)
      else .ok un

/-- `strconv.ParseBool`. -/
def parseBool : Except Failure Bool :=
  if ["1", "t", "T", "true", "TRUE", "True"].any fun word => text == bytes word then
    .ok true
  else if ["0", "f", "F", "false", "FALSE", "False"].any
      fun word => text == bytes word then
    .ok false
  else throws (.numberSyntax (bytes "ParseBool") text)

/-- `strings.ToLower`, as far as it leads to ASCII letters. -/
def toLower : Str :=
  text.map fun c => if 65 ≤ c && c ≤ 90 then c + 32 else c

section

variable (process : Process)

def convertTypeFromString (kind : Kind) (str : Str) : Except Failure Value :=
  match kind with
  | .bool =>
    if ["1", "true"].any fun word => toLower str == bytes word then .ok (.bool true)
    else if ["0", "false"].any fun word => toLower str == bytes word then
      .ok (.bool false)
    else throws .typeMismatch
  | .int size => (parseInt str size.bits).map Value.int
  | .uint size => (parseUint str size.bits).map Value.uint
  | .float32 => (library (process.parseFloat32 str)).map Value.float
  | .float64 => (library (process.parseFloat str)).map Value.float
  | .string => .ok (.string str)
  | _ => throws .unsupportedType

variable (fieldType : GoType) (x : Variable)

/-- The pointers of the variable are followed and made where they are nil; the kind is that of
what they lead to. -/
def setValueFromString (str : Str) : Except Failure Value :=
  if x.settable then (convertTypeFromString process x.type.deref.kind str).map (Value.wrap x.type)
  else throws .valueNotSettable

/-- `toFloat64` looks at the type of the value: a duration is no `int64`. -/
def toFloat64 : Any → Option GoFloat
  | .int _ i => some (process.float64 i)
  | .uint _ n => some (process.float64 n)
  | .float32 f => some f
  | .float64 f => some f
  | _ => none

/-- What `convertTypeFromString` has converted, for `toFloat64`. -/
def toAny : Value → Any
  | .bool b => .bool b
  | .int i => .int .bits64 i
  | .uint n => .uint .bits64 n
  | .float f => .float64 f
  | .string s => .string s
  | _ => .nil

def validateNumberRange (fv : GoFloat) (nr : NumberRange) : Except Failure Unit :=
  if (nr.leftInclude && fv.lt nr.left) || (!nr.leftInclude && fv.le nr.left) then
    throws .numberRange
  else if (nr.rightInclude && nr.right.lt fv) || (!nr.rightInclude && nr.right.le fv) then
    throws .numberRange
  else .ok ()

def validateJsonNumberRange (v : Str) (opts : Option FieldOptionsWithContext) :
    Except Failure Unit :=
  match opts.bind FieldOptionsWithContext.range with
  | none => .ok ()
  | some nr => do
    let fv ← library (process.parseFloat v)
    validateNumberRange fv nr

def validateValueRange (mapValue : Any) (opts : Option FieldOptionsWithContext) :
    Except Failure Unit :=
  match opts.bind FieldOptionsWithContext.range with
  | none => .ok ()
  | some nr =>
    match toFloat64 process mapValue with
    | none => throws .numberRange
    | some fv => validateNumberRange fv nr

/-- `lang.Repr` of a value that is neither a slice nor a map. -/
def repr : Any → Str
  | .bool b => formatBool b
  | .int _ i => formatInt i
  | .uint _ n => digits n
  | .float32 f | .float64 f => formatFloat f
  | .string s => s
  | .duration i => process.formatDuration i
  | .number text => text
  | _ => []

def validateValueInOptions (val : Any) (options : List Str) : Except Failure Unit :=
  if options = [] ∨ options.contains (repr process val) then .ok ()
  else throws (.notInOptions val options)

/-- The method `options`. -/
def optionsOf (opts : Option FieldOptionsWithContext) : List Str :=
  (opts.map FieldOptionsWithContext.options).getD []

def fillDurationValue (dur : Str) : Except Failure Value := do
  let d ← library (process.parseDuration dur)
  -- the pointers of the field lead to a duration whatever its type is
  if fieldType.deref = .duration then x.set fieldType (Value.wrap fieldType (.int d))
  else .error .panic

def validateAndSetValue (str : Str) (opts : Option FieldOptionsWithContext) :
    Except Failure Value := do
  let v ← convertTypeFromString process x.type.deref.kind str
  validateValueRange process (toAny v) opts
  .ok (Value.wrap x.type v)

def fillPrimitive (mapValue : Any) (opts : Option FieldOptionsWithContext) (fullName : Str) :
    Except Failure Value :=
  if !x.settable then throws .valueNotSettable
  else
    match mapValue with
    | .string v => validateAndSetValue process x v opts
    | .number v => do
      validateJsonNumberRange process v opts
      setValueFromString process x v
    | _ => throws (.mismatch fullName)

def fillWithSameType (mapValue : Any) (opts : Option FieldOptionsWithContext) :
    Except Failure Value :=
  if !x.settable then throws .valueNotSettable
  else do
    validateValueRange process mapValue opts
    x.set fieldType (Value.wrap fieldType mapValue.toValue)

/-- `math.MaxFloat32`. -/
def maxFloat32 : GoFloat := .finite false 340282346638528860000000000000000000000 []

def magnitude : GoFloat → GoFloat
  | .finite _ whole fraction => .finite false whole fraction
  | .infinite _ => .infinite false
  | .nan => .nan

/-- `reflect.Value.OverflowFloat` of a `float32`. -/
def overflowFloat32 (f : GoFloat) : Bool :=
  maxFloat32.lt (magnitude f) && (magnitude f).le (maxFloat64 false)

/-- Whether the pointers of a type lead to a variable. -/
def Value.leadsOn : GoType → Value → Bool
  | .ptr elem, .ptr value => Value.leadsOn elem value
  | .ptr _, _ => false
  | _, _ => true

/-- The new value of a field of the kind for a number. -/
def numberTarget (typeKind : Kind) (x : Variable) (v fullName : Str) : Except Failure Value :=
  match typeKind with
  | .int _ | .uint _ => convertTypeFromString process typeKind v
  | .float32 => do
    let fValue ← library (process.parseFloat v)
    if !x.value.leadsOn x.type then .error .panic
    else if overflowFloat32 fValue then throws (.float32Range v)
    else .ok (.float (process.float32 fValue))
  | .float64 => (library (process.parseFloat v)).map Value.float
  | _ => throws (.mismatchWithHint fullName typeKind.text (bytes "number"))

def processFieldPrimitiveWithJSONNumber (v : Str) (opts : Option FieldOptionsWithContext)
    (fullName : Str) : Except Failure Value := do
  validateJsonNumberRange process v opts
  validateValueInOptions process (.number v) (optionsOf opts)
  let target ← numberTarget process fieldType.deref.kind x v fullName
  x.set fieldType (Value.wrap fieldType target)

def processFieldPrimitive (mapValue : Any) (opts : Option FieldOptionsWithContext)
    (fullName : Str) : Except Failure Value :=
  match mapValue with
  | .number v => processFieldPrimitiveWithJSONNumber process fieldType x v opts fullName
  | _ =>
    if mapValue.type?.map GoType.kind = some fieldType.deref.kind then do
      validateValueInOptions process mapValue (optionsOf opts)
      fillWithSameType process fieldType x mapValue opts
    else throws (.mismatch fullName)

/-- An error of `processFieldWithEnvValue` says where it comes from. -/
def fromEnvironment {α : Type} (fullName : Str) (answer : Except Failure α) : Except Failure α :=
  match answer with
  | .error (.error cause) => throws (.environment fullName cause)
  | answer => answer

def processFieldWithEnvValue (envVal : Str) (opts : Option FieldOptionsWithContext)
    (fullName : Str) : Except Failure Value := do
  validateValueInOptions process (.string envVal) (optionsOf opts)
  match fieldType.kind with
  | .bool => (fromEnvironment fullName (parseBool envVal)).map Value.bool
  -- every `int64` is taken for a duration
  | .int .bits64 => fromEnvironment fullName (fillDurationValue process fieldType x envVal)
  | .string => .ok (.string envVal)
  | _ => processFieldPrimitiveWithJSONNumber process fieldType x envVal opts fullName

def processNamedFieldWithValueFromString (mapValue : Any) (key : Str)
    (opts : Option FieldOptionsWithContext) (fullName : Str) : Except Failure Value :=
  let options := optionsOf opts
  if mapValue.type?.map GoType.kind ≠ some .string then
    throws (.notString ((mapValue.type?.map fun type => type.kind.text).getD []))
  else if options ≠ [] ∧ !options.contains (repr process mapValue) then
    throws (.notDefined mapValue key options)
  else fillPrimitive process x mapValue opts fullName

end

end FastGoZero.Mapping
