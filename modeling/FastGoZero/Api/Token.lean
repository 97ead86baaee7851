import FastGoZero.Lang.Repr

/-!
# Tokens of an api file

A token has a type, a text and a position. The tables are those of the package `token`: what a
type prints as, the keywords of Go, the methods of HTTP and the base types.
-/

namespace FastGoZero.Api

open Lib Lib.Str

inductive TokenType where
  -- the zero value, and the token that comes with an error
  | none | error
  | illegal | eof | comment | document
  | ident | int | duration | string | rawString | path | key
  | sub | mul | quo | assign
  | lparen | lbrack | lbrace | comma | dot
  | rparen | rbrace | rbrack | semicolon | colon | ellipsis
  | «break» | «case» | chan | const | «continue»
  | default | defer | «else» | fallthrough | «for»
  | func | go | goto | «if» | «import»
  | interface | map | package | range | «return»
  | select | struct | switch | type | var
  | atDoc | atHandler | atServer | any
deriving DecidableEq

def TokenType.text : TokenType → Str
  | .none => []
  | .error => []
  | .illegal => bytes "ILLEGAL"
  | .eof => bytes "EOF"
  | .comment => bytes "COMMENT"
  | .document => bytes "DOCUMENT"
  | .ident => bytes "IDENT"
  | .int => bytes "INT"
  | .duration => bytes "DURATION"
  | .string => bytes "STRING"
  | .rawString => bytes "RAW_STRING"
  | .path => bytes "PATH"
  | .key => bytes "KEY"
  | .sub => bytes "-"
  | .mul => bytes "*"
  | .quo => bytes "/"
  | .assign => bytes "="
  | .lparen => bytes "("
  | .lbrack => bytes "["
  | .lbrace => bytes "\x7b"
  | .comma => bytes ","
  | .dot => bytes "."
  | .rparen => bytes ")"
  | .rbrack => bytes "]"
  | .rbrace => bytes "\x7d"
  | .semicolon => bytes ";"
  | .colon => bytes ":"
  | .ellipsis => bytes "..."
  | .break => bytes "break"
  | .case => bytes "case"
  | .chan => bytes "chan"
  | .const => bytes "const"
  | .continue => bytes "continue"
  | .default => bytes "default"
  | .defer => bytes "defer"
  | .else => bytes "else"
  | .fallthrough => bytes "fallthrough"
  | .for => bytes "for"
  | .func => bytes "func"
  | .go => bytes "go"
  | .goto => bytes "goto"
  | .if => bytes "if"
  | .import => bytes "import"
  | .interface => bytes "interface"
  | .map => bytes "map"
  | .package => bytes "package"
  | .range => bytes "range"
  | .return => bytes "return"
  | .select => bytes "select"
  | .struct => bytes "struct"
  | .switch => bytes "switch"
  | .type => bytes "type"
  | .var => bytes "var"
  | .atDoc => bytes "@doc"
  | .atHandler => bytes "@handler"
  | .atServer => bytes "@server"
  | .any => bytes "interface\x7b\x7d"

def keywords : List TokenType :=
  [.break, .case, .chan, .const, .continue, .default, .defer, .else, .fallthrough, .for, .func,
    .go, .goto, .if, .import, .interface, .map, .package, .range, .return, .select, .struct,
    .switch, .type, .var]

def lookupKeyword (ident : Str) : Option TokenType :=
  keywords.find? fun tp => tp.text == ident

def httpMethods : List Str :=
  ["get", "head", "post", "put", "patch", "delete", "connect", "options", "trace"].map bytes

def baseTypes : List Str :=
  ["bool", "int", "int8", "int16", "int32", "int64", "uint", "uint8", "uint16", "uint32", "uint64",
    "uintptr", "float32", "float64", "complex64", "complex128", "string", "byte", "rune",
    "any"].map bytes

def isBaseType (text : Str) : Bool := baseTypes.contains text

structure Position where
  filename : Str := []
  line : Nat := 0
  column : Int := 0
deriving DecidableEq

def Position.text (p : Position) : Str :=
  (if p.filename = [] then [] else p.filename ++ bytes " ") ++
    (Lang.formatInt p.line ++ bytes ":" ++ Lang.formatInt p.column)

structure Token where
  type : TokenType := .none
  text : Str := []
  position : Position := {}
deriving DecidableEq

namespace Token

def eof : Token := { type := .eof }

def error : Token := { type := .error }

def fork (t : Token) (tp : TokenType) : Token := { t with type := tp }

/-- Only the zero value is not valid. -/
def valid (t : Token) : Bool := t.type ≠ .none

def line (t : Token) : Nat := t.position.line

end Token

/-- What a parser compares a token with: a type, or a text. -/
inductive Expected where
  | ofType (tp : TokenType)
  | ofText (text : Str)
deriving DecidableEq

namespace Expected

def holds (expected : Expected) (t : Token) : Bool :=
  match expected with
  | .ofType tp => t.type = tp
  | .ofText text => t.text = text

/-- What is expected, as messages print it. -/
def quoted : Expected → Str
  | .ofType tp => bytes "'" ++ tp.text ++ bytes "'"
  | .ofText text => bytes "'" ++ text ++ bytes "'"

end Expected

def Token.is (t : Token) (expected : List Expected) : Bool := expected.any fun e => e.holds t

def quotedList (expected : List Expected) : Str :=
  List.intercalate (bytes " | ") (expected.map Expected.quoted)

end FastGoZero.Api
