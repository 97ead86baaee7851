import FastGoZero.Lang.Repr
import FastGoZero.Lib.Fallible
import FastGoZero.Lib.Utf8

/-!
# Tags of struct fields

A tag names the key of a field and lists its options: whether it is optional, what its default
is, which values it may have, and so on. `parseSegments` splits a tag at the commas that are
neither escaped nor in brackets.
-/

namespace FastGoZero.Mapping

open Lib Lang
open Lib.Str (bytes)

/-- What is wrong with a tag. An error of `strconv` is its text. -/
inductive TagError where
  | wrongOptional (field : Str)
  | wrongTag (field tag : Str)
  | numberRange
  | strconv (text : Str)
deriving DecidableEq

def segmentSeparator : Nat := 44
def escapeChar : Nat := 92
def leftBracket : Nat := 40
def rightBracket : Nat := 41
def leftSquareBracket : Nat := 91
def rightSquareBracket : Nat := 93

/-- The variables of the loop of `parseSegments`. -/
structure Segmenting where
  segments : List Str := []
  buf : Str := []
  escaped : Bool := false
  grouped : Bool := false

namespace Segmenting

def write (s : Segmenting) (ch : Nat) : Segmenting :=
  { s with buf := s.buf ++ Utf8.encodeRune ch }

def step (s : Segmenting) (ch : Nat) : Segmenting :=
  if s.escaped then { s.write ch with escaped := false }
  else if ch = segmentSeparator then
    if s.grouped then s.write ch
    -- the first segment is the key and may be empty
    else { s with segments := s.segments ++ [Utf8.trimSpace s.buf], buf := [] }
  else if ch = escapeChar then
    if s.grouped then s.write ch else { s with escaped := true }
  else if ch = leftBracket ∨ ch = leftSquareBracket then { s.write ch with grouped := true }
  else if ch = rightBracket ∨ ch = rightSquareBracket then { s.write ch with grouped := false }
  else s.write ch

end Segmenting

def parseSegments (val : Str) : List Str :=
  let s := (Utf8.runes val).foldl Segmenting.step {}
  let last := Utf8.trimSpace s.buf
  -- an empty last segment is ignored
  if last = [] then s.segments else s.segments ++ [last]

def parseGroupedSegments (val : Str) : List Str :=
  let val := Utf8.trimLeft (fun r => r == leftBracket || r == leftSquareBracket) val
  let val := Utf8.trimRight (fun r => r == rightBracket || r == rightSquareBracket) val
  parseSegments val

structure NumberRange where
  left : GoFloat
  leftInclude : Bool
  right : GoFloat
  rightInclude : Bool
deriving DecidableEq

/-- The options of a field when it is known what else the input has. -/
structure FieldOptionsWithContext where
  inherit : Bool := false
  fromString : Bool := false
  optional : Bool := false
  options : List Str := []
  defaultValue : Str := []
  envVar : Str := []
  range : Option NumberRange := none
deriving DecidableEq

/-- The options as the tag has them. `optionalDep` is the key that `optional` depends on. -/
structure FieldOptions extends FieldOptionsWithContext where
  optionalDep : Str := []
deriving DecidableEq

def equalToken : UInt8 := 61
def optionSeparator : UInt8 := 124
def notSymbol : UInt8 := 33

def isLeftInclude (b : UInt8) : Except TagError Bool :=
  if b = 91 then .ok true else if b = 40 then .ok false else .error .numberRange

def isRightInclude (b : UInt8) : Except TagError Bool :=
  if b = 93 then .ok true else if b = 41 then .ok false else .error .numberRange

/-- `math.MaxFloat64`. -/
def maxFloat64 (negative : Bool) : GoFloat :=
  .finite negative ((List.replicate 292 10).foldl (· * ·) 17976931348623157) []

section

variable (parseFloat : Str → Except Str GoFloat)

def parseRangeEnd (text : Str) (negative : Bool) : Except TagError GoFloat :=
  if text = [] then .ok (maxFloat64 negative) else (parseFloat text).mapError TagError.strconv

def parseNumberRange (str : Str) : Except TagError NumberRange :=
  match str with
  | [] => .error .numberRange
  | first :: str => do
    let leftInclude ← isLeftInclude first
    match str.getLast? with
    | none => .error .numberRange
    | some final =>
      let rightInclude ← isRightInclude final
      match str.dropLast.splitOn 58 with
      | [one, two] =>
        if one = [] ∧ two = [] then .error .numberRange
        else
          let left ← parseRangeEnd parseFloat one true
          let right ← parseRangeEnd parseFloat two false
          if right.lt left then .error .numberRange
          else if left.le right && right.le left && !(leftInclude && rightInclude) then
            .error .numberRange
          else .ok { left, leftInclude, right, rightInclude }
      | _ => .error .numberRange

def parseOptions (val : Str) : List Str :=
  match val with
  | [] => []
  | first :: _ => if first = 91 then parseGroupedSegments val else val.splitOn optionSeparator

def parseProperty (field tag val : Str) : Except TagError Str :=
  match val.splitOn equalToken with
  | [_, value] => .ok (Utf8.trimSpace value)
  | _ => .error (.wrongTag field tag)

def parseOption (fieldOpts : FieldOptions) (fieldName option : Str) :
    Except TagError FieldOptions :=
  let starts (word : String) : Bool := (bytes word).isPrefixOf option
  let property (word : String) := parseProperty fieldName (bytes word) option
  if option = bytes "inherit" then .ok { fieldOpts with inherit := true }
  else if option = bytes "string" then .ok { fieldOpts with fromString := true }
  else if starts "optional" then
    match option.splitOn equalToken with
    | [_] => .ok { fieldOpts with optional := true }
    | [_, dep] => .ok { fieldOpts with optional := true, optionalDep := dep }
    | _ => .error (.wrongOptional fieldName)
  else if starts "options" then do
    let val ← property "options"
    .ok { fieldOpts with options := parseOptions val }
  else if starts "default" then do
    let val ← property "default"
    .ok { fieldOpts with defaultValue := val }
  else if starts "env" then do
    let val ← property "env"
    .ok { fieldOpts with envVar := val }
  else if starts "range" then do
    let val ← property "range"
    let nr ← parseNumberRange parseFloat val
    .ok { fieldOpts with range := some nr }
  else .ok fieldOpts

/-- What a tag says: the key, and the options if there are any. -/
structure TagOptions where
  key : Str
  options : Option FieldOptions
deriving DecidableEq

/-- Nothing is returned when `segments[0]` is out of range. -/
def doParseKeyAndOptions (fieldName value : Str) : Option (Except TagError TagOptions) :=
  match parseSegments value with
  | [] => none
  | key :: options =>
    let key := Utf8.trimSpace key
    some (if options = [] then .ok { key, options := none }
      else do
        let fieldOpts ← options.foldlM (fun fieldOpts segment =>
          parseOption parseFloat fieldOpts fieldName (Utf8.trimSpace segment)) {}
        .ok { key, options := some fieldOpts })

variable {parseFloat} {fieldName value : Str}

theorem parseProperty_name {field tag val result : Str}
    (parsed : parseProperty field tag val = .ok result) (other : Str) :
    parseProperty other tag val = .ok result := by
  rw [parseProperty] at parsed ⊢
  split at parsed
  · exact parsed
  · contradiction

/-- An `Except` program that goes on after a part which does not depend on the name. -/
theorem bind_name {α β : Type} {part other : Except TagError α} {next : α → Except TagError β}
    {result : β} (done : part >>= next = .ok result) (same : ∀ a, part = .ok a → other = .ok a) :
    other >>= next = .ok result := by
  obtain ⟨a, answer, done⟩ := bind_eq_ok.mp done
  exact bind_eq_ok.mpr ⟨a, same a answer, done⟩

variable {fieldOpts result : FieldOptions}

theorem parseOption_name {option : Str}
    (parsed : parseOption parseFloat fieldOpts fieldName option = .ok result) (other : Str) :
    parseOption parseFloat fieldOpts other option = .ok result := by
  rw [parseOption] at parsed ⊢
  split_ifs at parsed ⊢
  · exact parsed
  · exact parsed
  · split at parsed
    · exact parsed
    · exact parsed
    · contradiction
  iterate 4
    · exact bind_name parsed fun _ property => parseProperty_name property other
  · exact parsed

theorem parseOptions_name {segments : List Str}
    (parsed : segments.foldlM (fun fieldOpts segment =>
      parseOption parseFloat fieldOpts fieldName (Utf8.trimSpace segment)) fieldOpts = .ok result)
    (other : Str) : segments.foldlM (fun fieldOpts segment =>
      parseOption parseFloat fieldOpts other (Utf8.trimSpace segment)) fieldOpts = .ok result := by
  induction segments generalizing fieldOpts with
  | nil => rwa [List.foldlM_nil] at parsed ⊢
  | cons segment segments ih =>
    rw [List.foldlM_cons] at parsed ⊢
    obtain ⟨fieldOpts, first, parsed⟩ := bind_eq_ok.mp parsed
    exact bind_eq_ok.mpr ⟨fieldOpts, parseOption_name first other, ih parsed⟩

/-- Where a tag is well formed, the field that it stands at does not matter. -/
theorem doParseKeyAndOptions_name {result : TagOptions}
    (parsed : doParseKeyAndOptions parseFloat fieldName value = some (.ok result))
    (other : Str) : doParseKeyAndOptions parseFloat other value = some (.ok result) := by
  rw [doParseKeyAndOptions] at parsed ⊢
  split at parsed
  · contradiction
  rw [Option.some.injEq] at parsed ⊢
  split at parsed
  · rename_i none
    rwa [if_pos none]
  · rename_i some
    rw [if_neg some]
    exact bind_name parsed fun _ parsed => parseOptions_name parsed other

/-- Whether the segments are missing does not depend on the field. -/
theorem doParseKeyAndOptions_eq_none
    (panics : doParseKeyAndOptions parseFloat fieldName value = none) (other : Str) :
    doParseKeyAndOptions parseFloat other value = none := by
  rw [doParseKeyAndOptions] at panics ⊢
  split at panics
  · rfl
  · contradiction

end

end FastGoZero.Mapping
