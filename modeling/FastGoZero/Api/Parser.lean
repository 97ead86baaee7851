import FastGoZero.Api.Ast
import FastGoZero.Api.Scanner

/-!
# The state of the parser

The parser holds the current token and the one after it. A parsing function returns a node, or nil
after it has noted an error; nil ends every function that gets it from another. The map from
tokens to nodes is only ever asked for the node of the current token, so that is what is kept of
it; it is nil for the token at the end of the file. Following a nil node is a panic, here already
when it is asked for.
-/

namespace FastGoZero.Api

open Lib Lib.Str

structure Parser where
  scanner : Scanner
  errors : List Str := []
  curTok : Token := {}
  peekTok : Token := {}
  headCommentGroup : List Token := []
  stmts : List Stmt := []
  curNode : Option TokenNode := none

def Parse (α : Type) : Type := Parser → Except Panic (Option α × Parser)

namespace Parse

instance : Monad Parse where
  pure a := fun p => .ok (some a, p)
  bind m f := fun p =>
    match m p with
    | .error reason => .error reason
    | .ok (none, p) => .ok (none, p)
    | .ok (some a, p) => f a p

variable {α : Type}

def panic (reason : Panic) : Parse α := fun _ => .error reason

/-- Notes an error and returns nil. -/
def refuse (text : Parser → Str) : Parse α := fun p =>
  .ok (none, { p with errors := p.errors ++ [text p] })

/-- Goes on even after nil. -/
def ignoring (m : Parse Unit) : Parse Unit := fun p =>
  match m p with
  | .error reason => .error reason
  | .ok (_, p) => .ok (some (), p)

def ask (f : Parser → α) : Parse α := fun p => .ok (some (f p), p)

def change (f : Parser → Parser) : Parse Unit := fun p => .ok (some (), f p)

/-- A loop of the parser, which runs at most once for each rune that is left and for the tokens
that have been read. -/
def whileLoop (cond : Parser → Bool) (body : Parse α) : Nat → Parse (List α)
  | 0 => panic .outOfFuel
  | fuel + 1 => fun p =>
    if cond p then
      (do
        let first ← body
        let rest ← whileLoop cond body fuel
        pure (first :: rest) : Parse (List α)) p
    else .ok (some [], p)

def forWhile (cond : Parser → Bool) (body : Parse α) : Parse (List α) := fun p =>
  whileLoop cond body (p.scanner.remaining + 3) p

end Parse

open Parse

namespace Parser

def curTokenIsNotEof (p : Parser) : Bool := p.curTok.type ≠ .eof

def curTokenIs (p : Parser) (expected : List Expected) : Bool := p.curTok.is expected

def peekTokenIs (p : Parser) (expected : List Expected) : Bool := p.peekTok.is expected

def peekTokenIsNot (p : Parser) (expected : List Expected) : Bool := !p.peekTok.is expected

def syntaxError (position : Position) (expected : List Expected) (got : Str) : Str :=
  position.text ++ bytes " syntax error: expected " ++ quotedList expected ++ bytes ", got '" ++
    got ++ bytes "'"

variable (expected : List Expected)

/-- Something else than the next token was expected. At the end of the file the error is placed
behind the current token. -/
def peekError (p : Parser) : Str :=
  let got := if p.peekTok.type = .illegal then p.peekTok.text else p.peekTok.type.text
  let position := p.curTok.position
  if p.peekTok.type = .eof then
    syntaxError { position with column := position.column + p.curTok.text.length } expected got
  else syntaxError p.peekTok.position expected got

def scanPeek : Parse Token := fun p =>
  match p.scanner.nextToken with
  | .error reason => .error reason
  | .ok ⟨token, none, scanner⟩ =>
    .ok (some token, { p with peekTok := token, scanner := scanner })
  | .ok ⟨token, some text, scanner⟩ =>
    .ok (none, { p with peekTok := token, scanner := scanner, errors := p.errors ++ [text] })

/-- Reads up to a token that is no comment. Comments on the line go with the current token, the
others wait for the next one. -/
def skipComments (line : Option Nat) : Nat → Parse (List Token)
  | 0 => panic .outOfFuel
  | fuel + 1 => do
    let token ← scanPeek
    if token.type = .comment ∨ token.type = .document then
      if some token.line = line then
        let rest ← skipComments line fuel
        pure (token :: rest)
      else
        change fun p => { p with headCommentGroup := p.headCommentGroup ++ [token] }
        skipComments line fuel
    else pure []

def loadPeek (line : Option Nat) : Parse (List Token) := fun p =>
  skipComments line (p.scanner.remaining + 1) p

/-- The next token becomes the current one. At the end of the file the comments that are left
become statements. -/
def nextToken : Parse Unit := fun p =>
  if !p.peekTok.valid then
    (loadPeek none >>= fun _ => pure ()) { p with curTok := p.peekTok, curNode := none }
  else if p.peekTok.type = .eof then
    .ok (some (), { p with
      curTok := p.peekTok
      curNode := none
      stmts := p.stmts ++ p.headCommentGroup.map Stmt.ofComment
      headCommentGroup := [] })
  else
    let node : TokenNode := { headCommentGroup := p.headCommentGroup, token := p.peekTok }
    (loadPeek (some p.peekTok.line) >>= fun leading => change fun p =>
      { p with curNode := some { node with leadingCommentGroup := leading } })
      { p with curTok := p.peekTok, curNode := some node, headCommentGroup := [] }

def curTokenNode : Parse TokenNode := fun p =>
  match p.curNode with
  | none => .error .nilPointer
  | some node => .ok (some node, p)

def expectPeekToken : Parse Unit := fun p =>
  if p.peekTokenIs expected then .ok (some (), p) else refuse (peekError expected) p

/-- The callers return nil if the next token is none of the expected ones, so this is
`expectPeekToken` again. -/
def notExpectPeekToken : Parse Unit := expectPeekToken expected

def advanceIfPeekTokenIs : Parse Unit := do
  expectPeekToken expected
  nextToken

/-- There has to be no comment behind the current token. -/
def notExpectPeekTokenGotComment : Parse Unit := do
  let node ← curTokenNode
  match node.leadingCommentGroup with
  | [] => pure ()
  | comment :: _ => refuse fun p => syntaxError p.peekTok.position expected comment.type.text

def expectIdentError (token : Token) (expected : List Expected) : Str :=
  syntaxError token.position expected token.type.text

def curTokenIsKeyword : Parse Unit := fun p =>
  match lookupKeyword p.curTok.text with
  | none => .ok (some (), p)
  | some tp => refuse (fun p => expectIdentError (p.curTok.fork tp) [.ofType .ident]) p

end Parser

end FastGoZero.Api
