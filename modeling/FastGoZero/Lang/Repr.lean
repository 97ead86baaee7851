import FastGoZero.Lib.GoString

/-!
# The text of a Go value

`lang.Repr` prints a value of any type. What it prints depends on the dynamic type and on
the methods `String` and `Error` that the type may have, so that is what a value is here.
-/

namespace FastGoZero.Lang

open Lib

def digits (n : Nat) : Str := (Nat.toDigits 10 n).map fun digit => UInt8.ofNat digit.toNat

/-- `strconv.Itoa`. -/
def formatInt : Int → Str
  | .ofNat n => digits n
  | .negSucc n => Str.bytes "-" ++ digits (n + 1)

/-- A floating-point number, as far as its shortest decimal text goes. -/
inductive GoFloat where
  | nan
  | infinite (negative : Bool)
  | finite (negative : Bool) (whole : Nat) (fraction : List (Fin 10))
deriving DecidableEq

/-- `strconv.FormatFloat` with the format 'f' and precision -1. -/
def formatFloat : GoFloat → Str
  | .nan => Str.bytes "NaN"
  | .infinite negative => Str.bytes (if negative then "-Inf" else "+Inf")
  | .finite negative whole fraction =>
    (if negative then Str.bytes "-" else []) ++ digits whole ++
      if fraction = [] then [] else Str.bytes "." ++ fraction.flatMap fun d => digits d

namespace GoFloat

/-- The digits of a finite number as an integer, with so many places after the point. -/
def scaled (places : Nat) (negative : Bool) (whole : Nat) (fraction : List (Fin 10)) : Int :=
  let digits := fraction.map Fin.val ++ List.replicate (places - fraction.length) 0
  let n := digits.foldl (fun n digit => 10 * n + digit) whole
  if negative then -n else n

/-- The comparison `<` of floating-point numbers. -/
def lt : GoFloat → GoFloat → Bool
  | nan, _ => false
  | _, nan => false
  | infinite negative, infinite other => negative && !other
  | infinite negative, finite _ _ _ => negative
  | finite _ _ _, infinite negative => !negative
  | finite negative whole fraction, finite negative' whole' fraction' =>
    let places := max fraction.length fraction'.length
    scaled places negative whole fraction < scaled places negative' whole' fraction'

def le (a b : GoFloat) : Bool := a != nan && b != nan && !b.lt a

end GoFloat

def formatBool (b : Bool) : Str := Str.bytes (if b then "true" else "false")

inductive Panic where
  | nilPointer
deriving DecidableEq

/-- How a value of a type that is not predeclared prints: what its methods `String` and `Error`
do, if it has them, and what `fmt.Sprint` prints. -/
structure Printing where
  string : Option (Except Panic Str) := none
  error : Option (Except Panic Str) := none
  sprint : Str

/-- An error prints as that, a `Stringer` as its string, and the rest with `fmt.Sprint`. -/
def Printing.text (printing : Printing) : Except Panic Str :=
  printing.error.getD (printing.string.getD (.ok printing.sprint))

/-- A value with its dynamic type. The numbers, `string` and `bytes` are of the predeclared
types; a type of any other name or shape is `other`. A time is what its method `String`
returns. An `interface` is a variable of an interface type, to which a pointer may lead. -/
inductive GoValue where
  | nil
  | bool (b : Bool)
  | int (i : Int)
  | uint (n : Nat)
  | float (f : GoFloat)
  | string (s : Str)
  | bytes (s : Str)
  | time (text : Str)
  | nilTime
  | nilPointer (printing : Printing)
  | pointer (printing : Printing) (elem : GoValue)
  | interface (content : GoValue)
  | other (printing : Printing)

namespace GoValue

/-- The printing of a value whose type is not predeclared. The methods of a time are those of
a pointer to it as well. -/
def printing : GoValue → Printing
  | .time text => { string := some (.ok text), sprint := text }
  | .nilTime => { string := some (.error .nilPointer), sprint := Str.bytes "<nil>" }
  | .pointer _ (.time text) => { string := some (.ok text), sprint := text }
  | .pointer printing _ | .nilPointer printing | .other printing => printing
  | _ => { sprint := Str.bytes "<nil>" }

/-- Follows pointers until one is nil or leads to something else. -/
def elem : GoValue → GoValue
  | .pointer _ value => value.elem
  | value => value

/-- `reflect.Value.Interface`: the content of an interface variable, or the value. -/
def dynamic : GoValue → GoValue
  | .interface content => content
  | value => value

/-- The switch of `reprOfValue` on the dynamic type. -/
def reprOf : GoValue → Except Panic Str
  | .bool b => .ok (formatBool b)
  | .float f => .ok (formatFloat f)
  | .int i => .ok (formatInt i)
  | .string s => .ok s
  | .uint n => .ok (digits n)
  | .bytes s => .ok s
  | value => value.printing.text

/-- `lang.Repr`. -/
def repr : GoValue → Except Panic Str
  | .nil => .ok []
  | value =>
    match value.printing.string with
    | some text => text
    | none => value.elem.dynamic.reprOf

end GoValue

end FastGoZero.Lang
