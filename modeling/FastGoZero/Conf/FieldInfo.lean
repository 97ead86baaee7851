import FastGoZero.Lib.Utf8

/-!
# What a configuration type looks like

`buildFieldsInfo` describes the type of a configuration: the names of the fields of a struct in
lower case, each with the description of its type, and for a map the description of its values.
Embedded structs are flattened. Slices, arrays and maps within others leave no trace in the
description.

Types are known by reference, so that they may refer to themselves. The code that follows them may
run for ever, so it is given a bound on how deep it goes; if no bound is enough, it has no result.
-/

namespace FastGoZero.Conf

open Lib

/-- A field of a struct type. The tag is what `Tag.Lookup` gives for `json`. -/
structure StructField (Id : Type) where
  name : Str
  tag : Option Str
  type : Id
  anonymous : Bool := false
  exported : Bool := true

/-- A type, as `reflect` shows it. The keys of a map type are not looked at. -/
inductive TypeInfo (Id : Type) where
  | struct (fields : List (StructField Id))
  | array (elem : Id)
  | slice (elem : Id)
  | map (elem : Id)
  | ptr (elem : Id)
  | chan
  | func
  | other

inductive FieldInfo where
  | mk (children : List (Str × FieldInfo)) (mapField : Option FieldInfo)

namespace FieldInfo

def children : FieldInfo → List (Str × FieldInfo)
  | mk children _ => children

def mapField : FieldInfo → Option FieldInfo
  | mk _ mapField => mapField

def empty : FieldInfo := mk [] none

/-- `info.children[key]`. -/
def child? (info : FieldInfo) (key : Str) : Option FieldInfo :=
  (info.children.find? fun child => child.1 = key).map Prod.snd

/-- `info.children[key] = child` for a new key. -/
def addChild (info : FieldInfo) (key : Str) (child : FieldInfo) : FieldInfo :=
  mk (info.children ++ [(key, child)]) info.mapField

/-- What the pointer under the key leads to is changed. -/
def setChild (info : FieldInfo) (key : Str) (child : FieldInfo) : FieldInfo :=
  mk (info.children.map fun entry => if entry.1 = key then (key, child) else entry) info.mapField

end FieldInfo

inductive ConfError where
  | unsupportedType (kind : Str)
  | conflictKey (fullName : Str)
deriving DecidableEq

abbrev Built := Except ConfError FieldInfo

variable (fullName : Str)

def conflict : Built := throw (.conflictKey fullName)

/-- A child is moved to the fields that have the key already. -/
def mergeChild (prev : FieldInfo) (child : Str × FieldInfo) : Built :=
  if (prev.child? child.1).isSome then conflict fullName else pure (prev.addChild child.1 child.2)

def mergeFields (prev : FieldInfo) (children : List (Str × FieldInfo)) (fullName : Str) : Built :=
  if prev.children.isEmpty || children.isEmpty then conflict fullName
  else children.foldlM (mergeChild fullName) prev

def addOrMergeFields (info : FieldInfo) (child : Str × FieldInfo) : Built :=
  match info.child? child.1 with
  | some prev =>
    if child.2.mapField.isSome then conflict fullName
    else do
      let merged ← mergeFields prev child.2.children fullName
      pure (info.setChild child.1 merged)
  | none => pure (info.addChild child.1 child.2)

def addNewChild (info : FieldInfo) (key : Str) (child : FieldInfo) : Built :=
  if (info.child? key).isSome then conflict fullName else pure (info.addChild key child)

section

variable {Id : Type}

def jsonTagSep : UInt8 := 44

/-- The name in the tag, or else the name of the field. -/
def getTagName (field : StructField Id) : Str :=
  match field.tag with
  | some tag =>
    let tag := Utf8.trimSpace (Str.before jsonTagSep tag)
    if 0 < tag.length then tag else field.name
  | none => field.name

def getFullName (parent child : Str) : Str :=
  if parent.length = 0 then child else parent ++ Str.bytes "." ++ child

variable (types : Id → TypeInfo Id) (lower : Str → Str)

/-- `mapping.Deref`, with a bound on the pointers that it follows. -/
def deref : Nat → Id → Option Id
  | 0, _ => none
  | fuel + 1, tp =>
    match types tp with
    | .ptr elem => deref fuel elem
    | _ => some tp

section

variable (fuel : Nat) (build : Id → Str → Option Built)

/-- The type is that of an embedded field, without pointers; other types are described by the
given function. -/
def buildAnonymousFieldInfo (info : FieldInfo) (lowerCaseName : Str) (ft : Id)
    (fullName : Str) : Option Built :=
  match types ft with
  | .struct _ => do
    let fields ← build ft fullName
    pure (fields.bind fun fields => fields.children.foldlM (addOrMergeFields fullName) info)
  | .map elem => do
    let elem ← deref types fuel elem
    let elemField ← build elem fullName
    pure (elemField.bind fun elemField =>
      addNewChild fullName info lowerCaseName (.mk [] (some elemField)))
  | _ => pure (addNewChild fullName info lowerCaseName .empty)

/-- The type is that of a named field, without pointers. -/
def buildNamedFieldInfo (info : FieldInfo) (lowerCaseName : Str) (ft : Id)
    (fullName : Str) : Option Built :=
  (match types ft with
    | .struct _ => build ft fullName
    | .array elem | .slice elem => build elem fullName
    | .map elem => do
      let elem ← deref types fuel elem
      let elemInfo ← build elem fullName
      pure (elemInfo.map fun elemInfo => .mk [] (some elemInfo))
    | _ => build ft fullName) >>=
  fun finfo => pure (finfo.bind fun finfo => addOrMergeFields fullName info (lowerCaseName, finfo))

/-- What the loop of `buildStructFieldsInfo` does for a field. -/
def buildField (info : FieldInfo) (field : StructField Id) (fullName : Str) : Option Built :=
  if !field.exported then pure (pure info)
  else do
    let lowerCaseName := lower (getTagName field)
    let ft ← deref types fuel field.type
    if field.anonymous then
      buildAnonymousFieldInfo types fuel build info lowerCaseName ft
        (getFullName fullName lowerCaseName)
    else
      buildNamedFieldInfo types fuel build info lowerCaseName ft
        (getFullName fullName lowerCaseName)

/-- The loop of `buildStructFieldsInfo`, which ends with the first error. -/
def buildFields (fullName : Str) (info : FieldInfo) : List (StructField Id) → Option Built
  | [] => pure (pure info)
  | field :: rest => do
    let result ← buildField types lower fuel build info field fullName
    match result with
    | .error err => pure (throw err)
    | .ok info => buildFields fullName info rest

def buildStructFieldsInfo (fields : List (StructField Id)) (fullName : Str) : Option Built :=
  buildFields types lower fuel build fullName .empty fields

end

/-- Without a bound the code may run for ever; with one it has no result then. -/
def buildFieldsInfo : Nat → Id → Str → Option Built
  | 0, _, _ => none
  | fuel + 1, tp, fullName => do
    let tp ← deref types fuel tp
    match types tp with
    | .struct fields =>
      buildStructFieldsInfo types lower fuel (buildFieldsInfo fuel) fields fullName
    | .array elem | .slice elem | .map elem => do
      let elem ← deref types fuel elem
      buildFieldsInfo fuel elem fullName
    | .chan => pure (throw (.unsupportedType (Str.bytes "chan")))
    | .func => pure (throw (.unsupportedType (Str.bytes "func")))
    | _ => pure (pure .empty)

end

end FastGoZero.Conf
