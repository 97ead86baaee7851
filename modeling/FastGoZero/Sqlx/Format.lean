import FastGoZero.Lang.Repr
import FastGoZero.Lib.Utf8
import Mathlib.Algebra.Group.Nat.Defs

/-!
# Formatting an SQL statement

`format` writes the arguments into the placeholders of a query. Strings are escaped and
quoted, times are quoted, and what is of any other type is written as it prints.
-/

namespace FastGoZero.Sqlx

open Lib Lang
open Lib.Str (bytes)

def quote : UInt8 := 39

def doubleQuote : UInt8 := 34

def backquote : UInt8 := 96

def backslash : UInt8 := 92

/-- What `escape` writes for a rune. -/
def escapeRune (ch : Nat) : Str :=
  if ch = 0x00 then bytes "\\x00"
  else if ch = 0x0D then bytes "\\r"
  else if ch = 0x0A then bytes "\\n"
  else if ch = 0x5C then bytes "\\\\"
  else if ch = 0x27 then bytes "\\'"
  else if ch = 0x22 then bytes "\\\""
  else if ch = 0x1A then bytes "\\x1a"
  else Utf8.encodeRune ch

def escape (input : Str) : Str := (Utf8.runes input).flatMap escapeRune

def quoted (text : Str) : Str := [quote] ++ text ++ [quote]

/-- What `writeValue` writes for an argument. -/
def writeValue : GoValue → Except Panic Str
  | .bool b => .ok (bytes (if b then "1" else "0"))
  | .string s => .ok (quoted (escape s))
  | .time text | .pointer _ (.time text) => .ok (quoted text)
  | .nilTime => .error .nilPointer
  | value => value.repr

inductive FormatError where
  | tooFewArguments (marks args : Nat)
  | outOfRange (number : Str)
  | wrongIndex (index : Int)
  | unbalancedEscape
  | notMatching (args : Nat)
deriving DecidableEq

def isDigit (b : UInt8) : Bool := 48 ≤ b && b ≤ 57

/-- `strconv.Atoi` of digits. -/
def atoi (number : Str) : Option Nat :=
  let value := number.foldl (fun value digit => 10 * value + (digit.toNat - 48)) 0
  if value < 2 ^ 63 then some value else none

/-- The loop over a quoted part: what it writes, and what follows the closing quote, if there
is one. -/
def scanQuoted (ch : UInt8) : Str → Except FormatError (Str × Option Str)
  | [] => .ok ([], none)
  | cur :: rest =>
    if cur = backslash then
      match rest with
      | [] => .error .unbalancedEscape
      | next :: rest => (scanQuoted ch rest).map fun scanned =>
          (cur :: next :: scanned.1, scanned.2)
    else if cur = ch then .ok ([cur], some rest)
    else (scanQuoted ch rest).map fun scanned => (cur :: scanned.1, scanned.2)

/-- The loop of `format` over what is left of the query. -/
def formatLoop (args : List GoValue) :
    Nat → Str → Nat → Str → Except Panic (Except FormatError Str)
  | fuel + 1, ch :: rest, argIndex, out =>
    if ch = 63 then
      match args[argIndex]? with
      | none => .ok (.error (.tooFewArguments (argIndex + 1) args.length))
      | some arg =>
        match writeValue arg with
        | .error panic => .error panic
        | .ok text => formatLoop args fuel rest (argIndex + 1) (out ++ text)
    else if ch = 58 ∨ ch = 36 then
      let number := rest.takeWhile isDigit
      if number = [] then formatLoop args fuel rest argIndex out
      else match atoi number with
        | none => .ok (.error (.outOfRange number))
        | some 0 => .ok (.error (.wrongIndex (-1)))
        | some (index + 1) =>
          match args[index]? with
          | none => .ok (.error (.wrongIndex index))
          | some arg =>
            match writeValue arg with
            | .error panic => .error panic
            | .ok text =>
              formatLoop args fuel (rest.drop number.length) (max argIndex (index + 1)) (out ++ text)
    else if ch = quote ∨ ch = doubleQuote ∨ ch = backquote then
      match scanQuoted ch rest with
      | .error err => .ok (.error err)
      -- Without a closing quote the index stays, and the rest is gone through once more.
      | .ok (written, following) =>
        formatLoop args fuel (following.getD rest) argIndex (out ++ [ch] ++ written)
    else formatLoop args fuel rest argIndex (out ++ [ch])
  | _, _, argIndex, out =>
    if argIndex < args.length then .ok (.error (.notMatching argIndex)) else .ok (.ok out)

def format (query : Str) (args : List GoValue) : Except Panic (Except FormatError Str) :=
  if args.isEmpty then .ok (.ok query) else formatLoop args query.length query 0 []

end FastGoZero.Sqlx
