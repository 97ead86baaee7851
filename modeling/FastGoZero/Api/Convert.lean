import FastGoZero.Api.Statements

/-!
# The api of one file

`convert2API` sorts the statements of a file. A file has at most one syntax statement and one info
statement; without a syntax statement at its beginning its syntax is "v1".
-/

namespace FastGoZero.Api

open Lib Lib.Str

/-- Why a file has no api: the program ends (`log.Fatalln`), it panics, the parser has noted errors,
or a statement stands twice, with its position and the message. -/
inductive LoadFailure where
  | fatal
  | panics (reason : Panic)
  | errors (texts : List Str)
  | duplicateStmt (position : Position) (msg : Str)
deriving DecidableEq

/-- `util.IsEmptyStringOrWhiteSpace`. -/
def isWhiteSpace (text : Str) : Bool :=
  text.all fun b => b == 32 || b == 9 || b == 10 || b == 12 || b == 13

/-- `CommentGroup.List`. -/
def commentTexts (comments : List Token) : List Str :=
  (comments.map Token.text).filter fun text => !isWhiteSpace text

namespace TokenNode

/-- The position of the first comment before the token, or of the token. -/
def pos (node : TokenNode) : Position :=
  match node.headCommentGroup with
  | [] => node.token.position
  | comment :: _ => comment.position

/-- `Format` without an indent. -/
def format (node : TokenNode) : Str :=
  let leading := commentTexts node.leadingCommentGroup
  let text :=
    if leading = [] then node.token.text
    else node.token.text ++ bytes " " ++ [32].intercalate leading
  [10].intercalate (node.headCommentGroup.map Token.text ++ [text])

def rawText (node : TokenNode) : Str :=
  let trim (quote : UInt8) (text : Str) : Str :=
    if text.getLast? = some quote then text.dropLast else text
  match node.token.text with
  | 96 :: text => trim 96 text
  | 34 :: text => trim 34 text
  | text => text

end TokenNode

structure API where
  filename : Str
  syntaxStmt : SyntaxStmt
  info : Option InfoStmt := none
  importStmt : List ImportStmt := []
  typeStmt : List TypeStmt := []
  serviceStmts : List ServiceStmt := []

/-- The syntax of a file whose first statement says nothing about it. -/
def defaultSyntax : SyntaxStmt where
  keyword := { token := { type := .ident, text := bytes "syntax" } }
  assign := { token := { type := .assign, text := bytes "=" } }
  value := { token := { type := .string, text := bytes "\"v1\"" } }

/-- One statement. The flag says that a syntax statement was seen. -/
def API.addStmt (state : API × Bool) : Stmt → Except LoadFailure (API × Bool)
  | .ofSyntax stmt =>
    if state.2 then
      .error (.duplicateStmt stmt.keyword.pos (bytes "duplicate syntax statement"))
    else .ok (state.1, true)
  | .ofInfo stmt =>
    match state.1.info with
    | some _ => .error (.duplicateStmt stmt.info.pos (bytes "duplicate info statement"))
    | none => .ok ({ state.1 with info := some stmt }, state.2)
  | .ofImport stmt =>
    .ok ({ state.1 with importStmt := state.1.importStmt ++ [stmt] }, state.2)
  | .ofType stmt => .ok ({ state.1 with typeStmt := state.1.typeStmt ++ [stmt] }, state.2)
  | .ofService stmt =>
    .ok ({ state.1 with serviceStmts := state.1.serviceStmts ++ [stmt] }, state.2)
  | .ofComment _ => .ok state

def convert2API (a : AST) : Except LoadFailure API :=
  match a.stmts with
  | [] => .error (.panics .indexOutOfRange)
  | one :: _ =>
    let syntaxStmt :=
      match one with
      | .ofSyntax stmt => stmt
      | _ => defaultSyntax
    (a.stmts.foldlM API.addStmt ({ filename := a.filename, syntaxStmt }, false)).map Prod.fst

/-- `New`, `Parse`, `CheckErrors` and `convert2API`. -/
def Parser.Parsed.load : Parser.Parsed → Except LoadFailure API
  | .fatal => .error .fatal
  | .panics reason => .error (.panics reason)
  | .errors texts => .error (.errors texts)
  | .ast a => convert2API a

end FastGoZero.Api
