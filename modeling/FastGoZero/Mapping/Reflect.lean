import FastGoZero.Lib.GoMap
import FastGoZero.Lib.Memo
import FastGoZero.Mapping.Tags

/-!
# Types and values that are unmarshaled

The types of the targets are those that `reflect` shows: a struct type is known by its name and
declared in the process, so that types may refer to themselves. The input is what a decoder
yields; its maps are shared by reference and live in a heap, next to the maps of the package.

Types with methods that unmarshal a text, and named types other than structs, `time.Duration`
and `json.Number`, are left out.
-/

namespace FastGoZero.Mapping

open Lib Lang
open Lib.Str (bytes)

abbrev TypeName := Str

inductive IntSize where
  | word
  | bits8
  | bits16
  | bits32
  | bits64
deriving DecidableEq

namespace IntSize

def bits : IntSize → Nat
  | word => 64
  | bits8 => 8
  | bits16 => 16
  | bits32 => 32
  | bits64 => 64

def suffix : IntSize → String
  | word => ""
  | bits8 => "8"
  | bits16 => "16"
  | bits32 => "32"
  | bits64 => "64"

end IntSize

inductive Kind where
  | bool
  | int (size : IntSize)
  | uint (size : IntSize)
  | float32
  | float64
  | string
  | interface
  | ptr
  | slice
  | array
  | map
  | struct
deriving DecidableEq

def Kind.text : Kind → Str
  | bool => bytes "bool"
  | int size => bytes "int" ++ bytes size.suffix
  | uint size => bytes "uint" ++ bytes size.suffix
  | float32 => bytes "float32"
  | float64 => bytes "float64"
  | string => bytes "string"
  | interface => bytes "interface"
  | ptr => bytes "ptr"
  | slice => bytes "slice"
  | array => bytes "array"
  | map => bytes "map"
  | struct => bytes "struct"

/-- `duration` is `time.Duration`, `number` is `json.Number`. -/
inductive GoType where
  | bool
  | int (size : IntSize)
  | uint (size : IntSize)
  | float32
  | float64
  | string
  | duration
  | number
  | any
  | ptr (elem : GoType)
  | slice (elem : GoType)
  | array (length : Nat) (elem : GoType)
  | map (key elem : GoType)
  | struct (name : TypeName)
deriving DecidableEq

namespace GoType

def kind : GoType → Kind
  | bool => .bool
  | int size => .int size
  | uint size => .uint size
  | float32 => .float32
  | float64 => .float64
  | string => .string
  | duration => .int .bits64
  | number => .string
  | any => .interface
  | ptr _ => .ptr
  | slice _ => .slice
  | array _ _ => .array
  | map _ _ => .map
  | struct _ => .struct

def deref : GoType → GoType
  | ptr elem => elem.deref
  | type => type

/-- `reflect.Type.Elem`; it panics on other types. -/
def elem? : GoType → Option GoType
  | ptr elem | slice elem | array _ elem | map _ elem => some elem
  | _ => none

/-- `reflect.Type.String`. -/
def text : GoType → Str
  | duration => bytes "time.Duration"
  | number => bytes "json.Number"
  | any => bytes "interface \x7b\x7d"
  | ptr elem => bytes "*" ++ elem.text
  | slice elem => bytes "[]" ++ elem.text
  | array length elem =>
    bytes "[" ++ digits length ++ bytes "]" ++ elem.text
  | map key elem => bytes "map[" ++ key.text ++ bytes "]" ++ elem.text
  | struct name => name
  | type => type.kind.text

end GoType

/-- A field of a struct type. The tag is the list of its keys and texts. -/
structure StructField where
  name : Str
  type : GoType
  tag : List (Str × Str)
  anonymous : Bool := false
  exported : Bool := true
deriving DecidableEq

/-- `StructTag.Lookup`. -/
def StructField.lookup (field : StructField) (key : Str) : Option Str :=
  (field.tag.find? fun entry => entry.1 = key).map Prod.snd

def usingDifferentKeys (key : Str) (field : StructField) : Bool :=
  !field.tag.isEmpty && (field.lookup key).isNone

/-- A map of the package: the variable `emptyMap`, or an object in a default, which stays in the
cache. -/
inductive PackageRef where
  | emptyMap
  | default (text : Str) (n : Nat)
deriving DecidableEq

/-- A reference to a map of the caller or of the package. -/
inductive Ref where
  | own (n : Nat)
  | package (ref : PackageRef)
deriving DecidableEq

/-- A value of the input, with its dynamic type. A `nil` slice is a slice without a list. -/
inductive Any where
  | nil
  | bool (b : Bool)
  | int (size : IntSize) (i : Int)
  | uint (size : IntSize) (n : Nat)
  | float32 (f : GoFloat)
  | float64 (f : GoFloat)
  | string (s : Str)
  | duration (i : Int)
  | number (text : Str)
  | slice (elem : GoType) (elems : Option (List Any))
  | map (ref : Ref)

/-- The maps that a value of the input leads to by slices alone. -/
inductive Any.Refers : Any → Ref → Prop
  | map {ref : Ref} : Refers (.map ref) ref
  | slice {type : GoType} {elems : List Any} {elem : Any} {ref : Ref} (mem : elem ∈ elems)
      (refers : Refers elem ref) : Refers (.slice type (some elems)) ref

/-- `reflect.TypeOf`; nothing for the nil interface. -/
def Any.type? : Any → Option GoType
  | nil => none
  | bool _ => some .bool
  | int size _ => some (.int size)
  | uint size _ => some (.uint size)
  | float32 _ => some .float32
  | float64 _ => some .float64
  | string _ => some .string
  | duration _ => some .duration
  | number _ => some .number
  | slice elem _ => some (.slice elem)
  | map _ => some (.map .string .any)

/-- A value of the target. Every type has its zero value, nil for pointers, slices and maps. A
value of the input is taken over as it is in an interface and in a slice of its own type. -/
inductive Value where
  | zero
  | bool (b : Bool)
  | int (i : Int)
  | uint (n : Nat)
  | float (f : GoFloat)
  | string (s : Str)
  | any (content : Any)
  | ptr (elem : Value)
  | slice (elems : List Value)
  | map (entries : List (Str × Value))
  | sameMap (ref : Ref)
  | struct (fields : List Value)

/-- The maps of the input that a value of the target leads to. -/
inductive Value.Refers : Value → Ref → Prop
  | any {content : Any} {ref : Ref} (refers : content.Refers ref) : Refers (.any content) ref
  | sameMap {ref : Ref} : Refers (.sameMap ref) ref
  | ptr {elem : Value} {ref : Ref} (refers : Refers elem ref) : Refers (.ptr elem) ref
  | slice {elems : List Value} {elem : Value} {ref : Ref} (mem : elem ∈ elems)
      (refers : Refers elem ref) : Refers (.slice elems) ref
  | map {entries : List (Str × Value)} {key : Str} {elem : Value} {ref : Ref}
      (mem : (key, elem) ∈ entries) (refers : Refers elem ref) : Refers (.map entries) ref
  | struct {fields : List Value} {field : Value} {ref : Ref} (mem : field ∈ fields)
      (refers : Refers field ref) : Refers (.struct fields) ref

/-- A value of the input as it is stored in a variable of its kind. -/
def Any.toValue : Any → Value
  | nil => .zero
  | bool b => .bool b
  | int _ i => .int i
  | uint _ n => .uint n
  | float32 f | float64 f => .float f
  | string s => .string s
  | duration i => .int i
  | number text => .string text
  | slice elem elems => .any (.slice elem elems)
  | map ref => .sameMap ref

namespace Value

mutual

/-- `reflect.Value.IsZero`. -/
def isZero : Value → Bool
  | zero => true
  | bool b => !b
  | int i => i == 0
  | uint n => n == 0
  | float f => f == .finite false 0 []
  | string s => s.isEmpty
  | struct fields => allZero fields
  | _ => false

def allZero : List Value → Bool
  | [] => true
  | value :: rest => value.isZero && allZero rest

end

def wrap : GoType → Value → Value
  | .ptr elem, value => ptr (wrap elem value)
  | _, value => value

def fields (count : Nat) : Value → List Value
  | struct fields => fields
  | _ => List.replicate count zero

/-- `reflect.Indirect`. -/
def indirect : Value → Value
  | ptr elem => elem
  | value => value

end Value

/-- A `reflect.Value`: the type of a variable, what it holds, and whether it can be set. -/
structure Variable where
  type : GoType
  value : Value
  settable : Bool := true

/-- The maps by reference. -/
abbrev Heap := Ref → GoMap Str Any

/-- The maps of the caller hold no map of the package. -/
def Heap.Separate (heap : Heap) : Prop :=
  ∀ n key value ref, (heap (.own n)).lookup key = some value → ¬value.Refers (.package ref)

inductive CacheKey where
  | keys (key : Str)
  | defaultValue (text : Str)
  | options (tag : Str)
  | required (type : TypeName)
deriving DecidableEq

/-- What the caches hold: `cacheKeys`, `defaultCache`, `optionsCache`, `structRequiredCache`. -/
def CacheKey.Value : CacheKey → Type
  | keys _ => List Str
  | defaultValue _ => Any
  | options _ => Except TagError TagOptions
  | required _ => Except TagError Bool

/-- The errors of the package. An error of a library function is its text. -/
inductive MappingError where
  | typeMismatch
  | valueNotSettable
  | notValidPointer
  | unsupportedType
  | numberRange
  | nilSliceElement
  | tag (error : TagError)
  | library (text : Str)
  | numberSyntax (function text : Str)
  | numberTooLarge (function text : Str)
  | float32Range (text : Str)
  | json (text : Str) (cause : Str)
  | sliceJson (fullName text : Str) (cause : Str)
  | notInOptions (value : Any) (options : List Str)
  | notDefined (value : Any) (key : Str) (options : List Str)
  | notFullySet (key : Str)
  | mustBeZero (fullName : Str)
  | notSet (fullName : Str)
  | structNotSet (fullName : Str)
  | mustNotBeNil (key : Str)
  | fieldNotSettable (key : Str)
  | mismatch (fullName : Str)
  | mismatchWithHint (fullName expectType actualType : Str)
  | notString (kind : Str)
  | environment (fullName : Str) (cause : MappingError)
  | wrongOptionalValue (key fullName : Str)
  | eitherOr (dep key fullName : Str)
  | bothOrNeither (dep key fullName : Str)

/-- How a call ends that returns no value. -/
inductive Failure where
  | error (error : MappingError)
  | panic
  | diverges

instance : Inhabited Failure := ⟨.panic⟩

/-- What a call of the package finds: the declared struct types, the environment, and the
library functions that it uses. The maps of a default are known by its text. Other texts are
decoded into new maps of the caller, or into those that a variable holds. -/
structure Process where
  decls : TypeName → List StructField
  /-- How deep a struct type holds others; none can hold itself. -/
  depth : TypeName → Nat
  depth_lt : ∀ {name field inner}, field ∈ decls name → field.type = .struct inner →
    depth inner < depth name
  env : Str → Str
  parseFloat : Str → Except Str GoFloat
  parseFloat32 : Str → Except Str GoFloat
  parseDuration : Str → Except Str Int
  formatDuration : Int → Str
  float64 : Int → GoFloat
  float32 : GoFloat → GoFloat
  decodeDefault : Str → Except Str Any
  defaultMaps : Str → Nat → GoMap Str Any
  decodeSlice : Str → Heap → Except Str (Option (List Any)) × Heap
  decodeInto : GoType → Value → Str → Heap → Except Str Value × Heap
  decodeSlice_package : ∀ text heap ref,
    (decodeSlice text heap).2 (.package ref) = heap (.package ref)
  decodeSlice_separate : ∀ text heap, heap.Separate → (decodeSlice text heap).2.Separate
  decodeSlice_own : ∀ text heap elems, (decodeSlice text heap).1 = .ok (some elems) →
    ∀ elem ∈ elems, ∀ ref, ¬elem.Refers (.package ref)
  decodeInto_package : ∀ type value text heap ref, ¬value.Refers (.package ref) →
    (decodeInto type value text heap).2 (.package ref) = heap (.package ref)
  decodeInto_separate : ∀ type value text heap, heap.Separate →
    (decodeInto type value text heap).2.Separate

end FastGoZero.Mapping
