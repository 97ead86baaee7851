import FastGoZero.Api.Token
import FastGoZero.Lib.Utf8

/-!
# The scanner

The scanner reads runes, one ahead, and gives one token for each call of `NextToken`. Past the
input it sees the rune 0, so a rune 0 in the input ends it too. Of the starts of the lines only
the number and the last one are read.
-/

namespace FastGoZero.Api

open Lib Lib.Str

/-- What stops a Go program. A model that runs out of fuel would not return. -/
inductive Panic where
  | indexOutOfRange
  | sliceBounds
  | nilPointer
  | outOfFuel
deriving DecidableEq

structure Scanner where
  filename : Str
  data : List Nat
  position : Nat := 0
  lines : Nat := 1
  lineStart : Int := -1
deriving DecidableEq

/-- A token, the error that may come with it, and the scanner after it. -/
structure Scan where
  token : Token
  err : Option Str := none
  scanner : Scanner

namespace Scanner

def isDigit (r : Nat) : Bool := '0'.toNat ≤ r && r ≤ '9'.toNat

def isLetter (r : Nat) : Bool :=
  ('a'.toNat ≤ r && r ≤ 'z'.toNat) || ('A'.toNat ≤ r && r ≤ 'Z'.toNat)

def isIdentifierLetter (r : Nat) : Bool := isLetter r || r == '_'.toNat

/-- Blank, tab, carriage return, form feed, vertical tab and newline. -/
def isBlank (r : Nat) : Bool := r == 32 || r == 9 || r == 13 || r == 12 || r == 11 || r == 10

def backquote : Nat := 96

def micro : Nat := 0xB5

def encode (runes : List Nat) : Str := runes.flatMap Utf8.encodeRune

variable (s : Scanner)

def ch : Nat := s.data[s.position]?.getD 0

def peekRune : Nat := s.data[s.position + 1]?.getD 0

def readRune : Scanner := { s with position := s.position + 1 }

def remaining : Nat := s.data.length - s.position

def readWhileFrom (p : Nat → Bool) : Nat → Scanner → Scanner
  | 0, s => s
  | fuel + 1, s => if p s.ch then readWhileFrom p fuel s.readRune else s

/-- Reads on while the rune has the property, which the rune 0 does not have. -/
def readWhile (p : Nat → Bool) (s : Scanner) : Scanner := readWhileFrom p s.remaining s

def newPosition (position : Nat) : Position :=
  ⟨s.filename, s.lines, position - s.lineStart⟩

def positionAt : Position := s.newPosition s.position

/-- `isWhiteSpace` notes the start of a line when it sees a newline. -/
def skipBlank : Scanner :=
  if s.ch = 10 then
    { s.readRune with lines := s.lines + 1, lineStart := s.position }
  else s.readRune

def skipWhiteSpaceFrom : Nat → Scanner → Scanner
  | 0, s => s
  | fuel + 1, s => if isBlank s.ch then skipWhiteSpaceFrom fuel s.skipBlank else s

def skipWhiteSpace : Scanner := skipWhiteSpaceFrom s.remaining s

/-- `string(s.data[start:s.position])`. -/
def textFrom (start : Nat) : Except Panic Str :=
  if start ≤ s.position ∧ s.position ≤ s.data.length then
    .ok (encode ((s.data.drop start).take (s.position - start)))
  else .error .sliceBounds

def assertExpectedString (actual : Str) (expected : List Str) : Str :=
  s.positionAt.text ++ bytes " expected " ++
    List.intercalate (bytes " | ") (expected.map fun e => bytes "'" ++ e ++ bytes "'") ++
    bytes ", got '" ++ actual ++ bytes "'"

def assertExpected (actual : TokenType) (expected : List TokenType) : Str :=
  s.assertExpectedString actual.text (expected.map TokenType.text)

def fail (text : Str) : Except Panic Scan := .ok ⟨.error, some text, s⟩

def newToken (tp : TokenType) : Scan :=
  ⟨⟨tp, encode [s.ch], s.positionAt⟩, none, s.readRune⟩

/-- The token that has been read from the start up to the current rune. -/
def finish (tp : TokenType) (start : Nat) : Except Panic Scan :=
  (s.textFrom start).map fun text => ⟨⟨tp, text, s.newPosition start⟩, none, s⟩

def illegalToken : Scan := s.newToken .illegal

def scanLineComment : Except Panic Scan :=
  (s.readWhile fun r => r ≠ 10 && r ≠ 0).finish .comment s.position

inductive DocumentMode where
  | init | halfOpen | opened | halfClose
deriving DecidableEq

def scanDocumentLoop (start : Nat) : Nat → DocumentMode → Scanner → Except Panic Scan
  | 0, _, _ => .error .outOfFuel
  | fuel + 1, mode, s =>
    if s.ch = '*'.toNat then
      match mode with
      | .init => scanDocumentLoop start fuel .init s.readRune
      | .halfOpen => scanDocumentLoop start fuel .opened s.readRune
      | .opened | .halfClose => scanDocumentLoop start fuel .halfClose s.readRune
    else if s.ch = 0 then
      match mode with
      | .halfClose => s.fail (s.assertExpected .eof [.quo])
      | _ => s.fail (s.assertExpected .eof [.mul])
    else if s.ch = '/'.toNat then
      match mode with
      | .init => scanDocumentLoop start fuel .halfOpen s.readRune
      | .halfOpen => s.fail (s.assertExpected .quo [.mul])
      | .opened => scanDocumentLoop start fuel .opened s.readRune
      | .halfClose => s.readRune.finish .document start
    else scanDocumentLoop start fuel mode s.readRune

/-- After a '*' the next '/' ends the comment, whatever stands between them. -/
def scanDocument : Except Panic Scan :=
  scanDocumentLoop s.position (s.remaining + 1) .init s

inductive StringMode where
  | init | opened | closed
deriving DecidableEq

def scanStringLoop (delim : Nat) (tp : TokenType) (start : Nat) :
    Nat → StringMode → Scanner → Except Panic Scan
  | 0, _, _ => .error .outOfFuel
  | fuel + 1, mode, s =>
    if s.ch = delim then
      match mode with
      | .init => scanStringLoop delim tp start fuel .opened s.readRune
      | .opened => s.readRune.finish tp start
      | .closed => scanStringLoop delim tp start fuel .closed s.readRune
    else if s.ch = 0 then
      match mode with
      | .init => s.fail (s.assertExpected .eof [tp])
      | .opened => s.fail (s.assertExpectedString TokenType.eof.text [encode [delim]])
      | .closed => s.finish tp start
    else scanStringLoop delim tp start fuel mode s.readRune

def scanString (delim : Nat) (tp : TokenType) : Except Panic Scan :=
  scanStringLoop delim tp s.position (s.remaining + 1) .init s

def scanAt : Except Panic Scan :=
  if !isLetter s.peekRune then
    if s.peekRune = 0 then .ok ⟨⟨.illegal, encode [s.ch], s.positionAt⟩, none, s⟩
    else s.fail (s.assertExpectedString (encode [s.peekRune]) [TokenType.ident.text])
  else
    let after := s.readRune.readWhile isLetter
    match after.textFrom (s.position + 1) with
    | .error reason => .error reason
    | .ok letters =>
      if letters = bytes "handler" then
        .ok ⟨⟨.atHandler, bytes "@handler", after.newPosition s.position⟩, none, after⟩
      else if letters = bytes "server" then
        .ok ⟨⟨.atServer, bytes "@server", after.newPosition s.position⟩, none, after⟩
      else if letters = bytes "doc" then
        .ok ⟨⟨.atDoc, bytes "@doc", after.newPosition s.position⟩, none, after⟩
      else
        after.fail (after.assertExpectedString (bytes "@" ++ letters)
          [TokenType.atDoc.text, TokenType.atHandler.text, TokenType.atServer.text])

def scanIdent : Except Panic Scan :=
  let after := s.readWhile fun r => isIdentifierLetter r || isDigit r
  match after.textFrom s.position with
  | .error reason => .error reason
  | .ok ident =>
    if after.ch = ':'.toNat then after.readRune.finish .key s.position
    else if ident = bytes "interface" ∧ after.ch = 123 ∧ after.peekRune = 125 then
      after.readRune.readRune.finish .any s.position
    else .ok ⟨⟨.ident, ident, after.newPosition s.position⟩, none, after⟩

/-! ## Durations

The units come in descending order: hours, minutes, seconds, milliseconds, microseconds and
nanoseconds. -/

variable (start : Nat)

def scanNanosecond : Except Panic Scan :=
  let s := s.readRune
  if s.ch ≠ 's'.toNat then .ok s.illegalToken else s.readRune.finish .duration start

def scanMicrosecond : Except Panic Scan :=
  let s := s.readRune
  if s.ch ≠ 's'.toNat then .ok s.illegalToken
  else
    let s := s.readRune
    if !isDigit s.ch then s.finish .duration start
    else
      let s := s.readWhile isDigit
      if s.ch ≠ 'n'.toNat then .ok s.illegalToken else s.scanNanosecond start

def scanMillisecond : Except Panic Scan :=
  let s := s.readRune
  if !isDigit s.ch then s.finish .duration start
  else
    let s := s.readWhile isDigit
    if s.ch = 'n'.toNat then s.scanNanosecond start
    else if s.ch = micro then s.scanMicrosecond start
    else .ok s.illegalToken

/-- Milliseconds after seconds or minutes: the 'm' has to be followed by an 's'. -/
def scanMilli : Except Panic Scan :=
  let s := s.readRune
  if s.ch ≠ 's'.toNat then .ok s.illegalToken else s.scanMillisecond start

def scanSecond : Except Panic Scan :=
  let s := s.readRune
  if !isDigit s.ch then s.finish .duration start
  else
    let s := s.readWhile isDigit
    if s.ch = 'n'.toNat then s.scanNanosecond start
    else if s.ch = micro then s.scanMicrosecond start
    else if s.ch = 'm'.toNat then s.scanMilli start
    else .ok s.illegalToken

def scanMinute : Except Panic Scan :=
  if !isDigit s.ch then s.finish .duration start
  else
    let s := s.readWhile isDigit
    if s.ch = 'n'.toNat then s.scanNanosecond start
    else if s.ch = micro then s.scanMicrosecond start
    else if s.ch = 'm'.toNat then s.scanMilli start
    else if s.ch = 's'.toNat then s.scanSecond start
    else .ok s.illegalToken

def scanMillisecondOrMinute : Except Panic Scan :=
  let s := s.readRune
  if s.ch ≠ 's'.toNat then
    if s.ch = 0 || !isDigit s.ch then s.finish .duration start else s.scanMinute start
  else s.scanMillisecond start

def scanHour : Except Panic Scan :=
  let s := s.readRune
  if !isDigit s.ch then s.finish .duration start
  else
    let s := s.readWhile isDigit
    if s.ch = 'n'.toNat then s.scanNanosecond start
    else if s.ch = micro then s.scanMicrosecond start
    else if s.ch = 'm'.toNat then s.scanMillisecondOrMinute start
    else if s.ch = 's'.toNat then s.scanSecond start
    else .ok s.illegalToken

def scanIntOrDuration : Except Panic Scan :=
  let start := s.position
  let s := s.readWhile isDigit
  if s.ch = 'n'.toNat then s.scanNanosecond start
  else if s.ch = micro then s.scanMicrosecond start
  else if s.ch = 'm'.toNat then s.scanMillisecondOrMinute start
  else if s.ch = 's'.toNat then s.scanSecond start
  else if s.ch = 'h'.toNat then s.scanHour start
  else s.finish .int start

def operators : List (Nat × TokenType) :=
  [('-'.toNat, .sub), ('*'.toNat, .mul), ('('.toNat, .lparen), ('['.toNat, .lbrack), (123, .lbrace),
    (','.toNat, .comma), (')'.toNat, .rparen), (']'.toNat, .rbrack), (125, .rbrace),
    (';'.toNat, .semicolon), (':'.toNat, .colon), ('='.toNat, .assign)]

def operator (r : Nat) : Option TokenType :=
  (operators.find? fun entry => entry.1 == r).map Prod.snd

/-- One '.' or three. After two the first is passed over. -/
def scanDots : Scan :=
  if s.peekRune ≠ '.'.toNat then s.newToken .dot
  else
    let second := s.readRune
    if second.peekRune ≠ '.'.toNat then second.newToken .dot
    else
      let after := second.readRune.readRune
      ⟨⟨.ellipsis, bytes "...", after.newPosition s.position⟩, none, after⟩

def scanToken : Except Panic Scan :=
  match operator s.ch with
  | some tp => .ok (s.newToken tp)
  | none =>
    if s.ch = '/'.toNat then
      if s.peekRune = '/'.toNat then s.scanLineComment
      else if s.peekRune = '*'.toNat then s.scanDocument
      else .ok (s.newToken .quo)
    else if s.ch = '.'.toNat then .ok s.scanDots
    else if s.ch = '@'.toNat then s.scanAt
    else if s.ch = '"'.toNat then s.scanString '"'.toNat .string
    else if s.ch = backquote then s.scanString backquote .rawString
    else if s.ch = 0 then .ok ⟨.eof, none, s⟩
    else if isIdentifierLetter s.ch then s.scanIdent
    else if isDigit s.ch then s.scanIntOrDuration
    else .ok s.illegalToken

def nextToken : Except Panic Scan := s.skipWhiteSpace.scanToken

end Scanner

end FastGoZero.Api
