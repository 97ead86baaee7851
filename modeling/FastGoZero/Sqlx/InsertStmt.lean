import FastGoZero.Lib.Utf8

/-!
# The parts of an insert statement

`parseInsertStmt` cuts a statement behind the word `values` and behind the parenthesis with the
placeholders. It finds the places in the lower-case spelling and cuts the statement itself there.
What `strings.ToLower` does is left open: for other letters than ASCII ones the places may differ,
and a cut outside of the statement panics.
-/

namespace FastGoZero.Sqlx

open Lib

structure BulkStmt where
  prefixText : Str
  valueFormat : Str
  suffix : Str
deriving DecidableEq

inductive StmtError where
  | badSql (stmt : Str)
  | noVariables (stmt : Str)
  | mismatch (stmt : Str)
deriving DecidableEq

inductive StmtPanic where
  | sliceOutOfRange
deriving DecidableEq

def valuesKeyword : Str := Str.bytes "values"

/-- `text[low:high]`. -/
def slice (text : Str) (low high : Nat) : Except StmtPanic Str :=
  if low ≤ high ∧ high ≤ text.length then .ok ((text.take high).drop low)
  else .error .sliceOutOfRange

/-- The number of the columns in the last parenthesis before the keyword. -/
def countColumns (lower : Str) (pos : Nat) : Nat :=
  match Str.lastIndexByte (lower.take pos) 41 with
  | some (right + 1) =>
    match Str.lastIndexByte (lower.take (right + 1)) 40 with
    | some (left + 1) =>
      let values := (lower.take (right + 1)).drop (left + 2)
      let letters := (Utf8.runes values).filter fun r => !(r == 32 || r == 9 || r == 13 || r == 10)
      ((letters.splitOn 44).filter fun field : List Nat => !field.isEmpty).length
    | _ => 0
  | _ => 0

/-- Where the parenthesis after the keyword begins, and how far it is to its end. -/
def valuesRange (lower : Str) (pos : Nat) : Option (Nat × Nat) :=
  match Str.indexByte (lower.drop pos) 40 with
  | some (left + 1) =>
    match Str.indexByte (lower.drop (pos + (left + 1))) 41 with
    | some (right + 1) => some (pos + (left + 1), right + 1)
    | _ => none
  | _ => none

def parseInsertStmt (toLower : Str → Str) (stmt : Str) :
    Except StmtPanic (Except StmtError BulkStmt) := do
  let lower := toLower stmt
  match Str.index lower valuesKeyword with
  | some (pos + 1) =>
    let columns := countColumns lower (pos + 1)
    match valuesRange lower (pos + 1) with
    | none => pure (.error (.noVariables stmt))
    | some (left, right) =>
      let values := (lower.take (left + right)).drop left
      let marks := (Utf8.runes values).count 63
      let valueFormat ← slice stmt left (left + right + 1)
      let suffix := Utf8.trimSpace (← slice stmt (left + right + 1) stmt.length)
      if marks = 0 then pure (.error (.noVariables stmt))
      else if 0 < columns ∧ columns ≠ marks then pure (.error (.mismatch stmt))
      else
        let prefixText ← slice stmt 0 (pos + 1 + valuesKeyword.length)
        pure (.ok ⟨prefixText, valueFormat, suffix⟩)
  | _ => pure (.error (.badSql stmt))

end FastGoZero.Sqlx
