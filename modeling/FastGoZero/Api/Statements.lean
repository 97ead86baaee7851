import FastGoZero.Api.Parser
import FastGoZero.Lib.FilePath

/-!
# The statements of an api file

The parsing functions, one for each kind of statement and expression. They look at the token after
the current one and go on to it when it is one of those expected.
-/

namespace FastGoZero.Api

open Lib Lib.Str

namespace Parser

open Parse

def idAPI : Str := bytes "api"

def summaryKeyExprText : Str := bytes "summary:"

/-- The keywords of the language, which the scanner takes for identifiers. -/
def word (text : String) : Expected := .ofText (bytes text)

variable (expected : List Expected)

def peekIs : Parse Bool := ask fun p => p.peekTokenIs expected

def curIs : Parse Bool := ask fun p => p.curTokenIs expected

def currentTok : Parse Token := ask fun p => p.curTok

/-- A loop that ends before one of the tokens, or at the end of the file. -/
def untilPeek {α : Type} (ends : List Expected) (body : Parse α) : Parse (List α) :=
  forWhile (fun p => p.curTokenIsNotEof && p.peekTokenIsNot ends) body

/-- Goes on to an expected token and gives its node. -/
def advance : Parse TokenNode := do
  advanceIfPeekTokenIs expected
  curTokenNode

/-- Goes on to the next token, whatever it is, and gives its node. -/
def next : Parse TokenNode := do
  nextToken
  curTokenNode

/-- A node of a token that is put together from several, with the comments behind the last. -/
def joinedNode (token : Token) : Parse TokenNode := do
  let last ← curTokenNode
  pure { token := token, leadingCommentGroup := last.leadingCommentGroup }

def parseKVExpression : Parse KVExpr := do
  let key ← advance [.ofType .key]
  let value ← advance [.ofType .string]
  pure { key, value }

/-- `'(' KVExpr* ')'`. -/
def parseKVGroup (kv : Parse KVExpr) : Parse (TokenNode × List KVExpr × TokenNode) := do
  let lparen ← advance [.ofType .lparen]
  let values ← untilPeek [.ofType .rparen] do
    let expr ← kv
    notExpectPeekToken [.ofType .rparen, .ofType .key]
    pure expr
  let rparen ← advance [.ofType .rparen]
  pure (lparen, values, rparen)

/-- `IDENT ('-' IDENT)?`, after what has been read of the text. -/
def parseHyphened (text : Str) : Parse Str := do
  advanceIfPeekTokenIs [.ofType .ident]
  let text := text ++ (← currentTok).text
  if ← peekIs [.ofType .sub] then
    nextToken
    let text := text ++ (← currentTok).text
    advanceIfPeekTokenIs [.ofType .ident]
    pure (text ++ (← currentTok).text)
  else pure text

/-- `(sep IDENT)*`, of which the texts are put together. -/
def parseSeparated (separator : TokenType) : Parse Str := do
  let parts ← forWhile (fun p => p.peekTokenIs [.ofType separator]) do
    nextToken
    let sep ← currentTok
    advanceIfPeekTokenIs [.ofType .ident]
    pure (sep.text ++ (← currentTok).text)
  pure parts.flatten

/-- `('/' IDENT ('-' IDENT)?)*`. -/
def parseSlashes : Parse Str := do
  let parts ← forWhile (fun p => p.peekTokenIs [.ofType .quo]) do
    nextToken
    let slash ← currentTok
    parseHyphened slash.text
  pure parts.flatten

def parseAtServerValue (key : TokenNode) : Parse TokenNode := do
  notExpectPeekToken [.ofType .quo, .ofType .duration, .ofType .ident, .ofType .int,
    .ofType .string]
  if ← peekIs [.ofType .quo] then
    nextToken
    let slash ← currentTok
    let first ← parseHyphened slash.text
    let _ ← curTokenNode
    let rest ← parseSlashes
    joinedNode ⟨.path, first ++ rest, slash.position⟩
  else if ← peekIs [.ofType .duration] then
    nextToken
    joinedNode (← currentTok)
  else if ← peekIs [.ofType .int] then
    nextToken
    joinedNode (← currentTok)
  else if ← peekIs [.ofType .string] then
    if key.token.text ≠ summaryKeyExprText then
      notExpectPeekToken [.ofType .quo, .ofType .duration, .ofType .ident, .ofType .int]
    nextToken
    joinedNode (← currentTok)
  else
    advanceIfPeekTokenIs [.ofType .ident]
    let first ← currentTok
    let _ ← curTokenNode
    let rest ←
      if ← peekIs [.ofType .comma] then parseSeparated .comma
      else if ← peekIs [.ofType .sub] then parseSeparated .sub
      else parseSlashes
    joinedNode ⟨.path, first.text ++ rest, first.position⟩

def parseAtServerKVExpression : Parse KVExpr := do
  let key ← advance [.ofType .key, .ofType .rparen]
  let value ← parseAtServerValue key
  pure { key, value }

def parseAtServerStmt : Parse AtServerStmt := do
  let atServer ← curTokenNode
  let (lparen, values, rparen) ← parseKVGroup parseAtServerKVExpression
  pure { atServer, lparen, values, rparen }

def parseAtDocGroupStmt : Parse AtDocStmt := do
  let atDoc ← curTokenNode
  let (lparen, values, rparen) ← parseKVGroup parseKVExpression
  pure (.group atDoc lparen values rparen)

def parseAtDocLiteralStmt : Parse AtDocStmt := do
  let atDoc ← curTokenNode
  let value ← advance [.ofType .string]
  pure (.literal atDoc value)

def parseAtDocStmt : Parse AtDocStmt := do
  notExpectPeekToken [.ofType .lparen, .ofType .string]
  if ← peekIs [.ofType .lparen] then parseAtDocGroupStmt else parseAtDocLiteralStmt

def parseAtHandlerStmt : Parse AtHandlerStmt := do
  let atHandler ← curTokenNode
  let name ← advance [.ofType .ident]
  pure { atHandler, name }

def pathEnds : List Expected :=
  [.ofType .lparen, word "returns", .ofType .atDoc, .ofType .atHandler, .ofType .semicolon,
    .ofType .rbrace]

/-- `(IDENT | INT) ('-' IDENT | IDENT)*`. -/
def parsePathItem : Parse (List Token) := do
  advanceIfPeekTokenIs [.ofType .ident, .ofType .int]
  let first ← currentTok
  let rest ← untilPeek [.ofType .quo, .ofType .lparen, word "returns", .ofType .atDoc,
      .ofType .atHandler, .ofType .rbrace, .ofType .semicolon, .ofType .eof] do
    if ← peekIs [.ofType .sub] then
      nextToken
      let sub ← currentTok
      advanceIfPeekTokenIs [.ofType .ident]
      pure [sub, ← currentTok]
    else
      advanceIfPeekTokenIs [.ofType .ident]
      pure [← currentTok]
  pure (first :: rest.flatten)

/-- One round of the loop over the path. After a slash the path may end. -/
def parsePathPart : Parse (List Token) := do
  advanceIfPeekTokenIs [.ofType .quo]
  let slash ← currentTok
  if ← peekIs pathEnds then pure [slash]
  else
    notExpectPeekTokenGotComment [.ofType .colon, .ofType .ident, .ofType .int]
    notExpectPeekToken [.ofType .colon, .ofType .ident, .ofType .int]
    notExpectPeekTokenGotComment [.ofType .colon]
    let colon ←
      if ← peekIs [.ofType .colon] then
        nextToken
        pure [← currentTok]
      else pure []
    let item ← parsePathItem
    notExpectPeekToken (.ofType .quo :: pathEnds)
    pure (slash :: colon ++ item)

def parsePathExpr : Parse TokenNode := do
  let parts ← untilPeek pathEnds parsePathPart
  match parts.flatten with
  -- `values[0]` of a path without tokens
  | [] => panic .indexOutOfRange
  | first :: values =>
    joinedNode ⟨.path, (first :: values).flatMap Token.text, first.position⟩

def parseBodyExpr : Parse BodyExpr := do
  if ← peekIs [.ofType .lbrack] then
    let lbrack ← next
    let rbrack ← advance [.ofType .rbrack]
    if ← peekIs [.ofType .mul] then
      let star ← next
      let value ← advance [.ofType .ident]
      pure { lbrack := some lbrack, rbrack := some rbrack, star := some star, value }
    else if ← peekIs [.ofType .ident] then
      let value ← next
      pure { lbrack := some lbrack, rbrack := some rbrack, value }
    else refuse (peekError [.ofType .mul, .ofType .ident])
  else if ← peekIs [.ofType .mul] then
    let star ← next
    let value ← advance [.ofType .ident]
    pure { star := some star, value }
  else if ← peekIs [.ofType .ident] then
    let value ← next
    pure { value }
  else refuse (peekError [.ofType .lbrack, .ofType .mul, .ofType .ident])

def parseBodyStmt : Parse BodyStmt := do
  let lparen ← advance [.ofType .lparen]
  if ← peekIs [.ofType .rparen] then
    let rparen ← next
    pure { lparen, body := none, rparen }
  else
    let expr ← parseBodyExpr
    let rparen ← advance [.ofType .rparen]
    pure { lparen, body := some expr, rparen }

/-- A ';' is passed over, and what comes of that is not looked at. -/
def skipSemicolon : Parse Unit := do
  if ← peekIs [.ofType .semicolon] then ignoring nextToken

def parseRouteBodies (method path : TokenNode) : Parse RouteStmt := do
  notExpectPeekToken [word "returns", .ofType .lparen]
  let request ←
    if ← peekIs [.ofType .lparen] then pure (some (← parseBodyStmt)) else pure none
  notExpectPeekToken [word "returns", .ofType .atDoc, .ofType .atHandler, .ofType .rbrace,
    .ofType .semicolon]
  let (returns, response) ←
    if ← peekIs [word "returns"] then
      let returns ← next
      let response ← parseBodyStmt
      pure (some returns, some response)
    else pure (none, none)
  skipSemicolon
  pure { method, path, request, returns, response }

def parseRouteStmt : Parse RouteStmt := do
  let method ← advance (httpMethods.map .ofText)
  let path ← parsePathExpr
  if ← peekIs [.ofType .atDoc, .ofType .atHandler, .ofType .rbrace] then pure { method, path }
  else if ← peekIs [.ofType .semicolon] then
    ignoring nextToken
    pure { method, path }
  else parseRouteBodies method path

def parseServiceItemStmt : Parse ServiceItemStmt := do
  let atDoc ←
    if ← peekIs [.ofType .atDoc] then
      nextToken
      pure (some (← parseAtDocStmt))
    else pure none
  advanceIfPeekTokenIs [.ofType .atHandler, .ofType .rbrace]
  if ← peekIs [.ofType .rbrace] then pure { atDoc }
  else
    let atHandler ← parseAtHandlerStmt
    let route ← parseRouteStmt
    pure { atDoc, atHandler := some atHandler, route := some route }

/-- When the next token closes the service, the loop ends. -/
def parseServiceItemsStmt : Parse (List ServiceItemStmt) :=
  untilPeek [.ofType .rbrace] do
    let item ← parseServiceItemStmt
    notExpectPeekToken [.ofType .atDoc, .ofType .atHandler, .ofType .rbrace]
    pure item

def parseServiceNameExpr : Parse TokenNode := do
  let name ← currentTok
  let suffix ←
    if ← peekIs [.ofType .sub] then
      nextToken
      let sub ← currentTok
      expectPeekToken [.ofText idAPI]
      nextToken
      pure (sub.text ++ (← currentTok).text)
    else pure []
  joinedNode ⟨.ident, name.text ++ suffix, name.position⟩

def parseService : Parse ServiceStmt := do
  let atServerStmt ←
    if ← curIs [.ofType .atServer] then
      let stmt ← parseAtServerStmt
      advanceIfPeekTokenIs [word "service"]
      pure (some stmt)
    else pure none
  let service ← curTokenNode
  advanceIfPeekTokenIs [.ofType .ident]
  let name ← parseServiceNameExpr
  let lbrace ← advance [.ofType .lbrace]
  let routes ← parseServiceItemsStmt
  let rbrace ← advance [.ofType .rbrace]
  pure { atServerStmt, service, name, lbrace, routes, rbrace }

/-- What a type may begin with, where one is asked for. -/
def elemBegins : List Expected := [.ofType .ident, .ofType .mul, .ofType .rbrace]

/-- `(',' IDENT)*`. -/
def parseMoreNames : Parse (List TokenNode) :=
  forWhile (fun p => p.peekTokenIs [.ofType .comma]) do
    nextToken
    advanceIfPeekTokenIs [.ofType .ident]
    curTokenIsKeyword
    curTokenNode

def namedType : Parse DataType := do
  let node ← curTokenNode
  if ← curIs [word "any"] then pure (.any node) else pure (.base node)

section

/- The parser of the types inside of a type. -/
variable (dataType : Parse DataType)

def parseElemType : Parse (List TokenNode × DataType) := do
  advanceIfPeekTokenIs [.ofType .ident, .ofType .mul]
  curTokenIsKeyword
  let identNode ← curTokenNode
  if ← curIs [.ofType .mul] then
    advanceIfPeekTokenIs [.ofType .ident]
    let dt ← namedType
    pure ([], .pointer identNode dt)
  else if ← ask fun p => decide (identNode.token.line < p.peekTok.line) ||
      p.peekTokenIs [.ofType .rawString] then
    let dt ← namedType
    pure ([], dt)
  else
    notExpectPeekToken [.ofType .comma, .ofType .ident, .ofType .lbrack, .ofType .any,
      .ofType .mul, .ofType .lbrace]
    let more ← parseMoreNames
    let dt ← dataType
    pure (identNode :: more, dt)

def parseElemExpr : Parse ElemExpr := do
  let (name, dt) ← parseElemType dataType
  notExpectPeekToken [.ofType .rawString, .ofType .mul, .ofType .ident, .ofType .rbrace]
  if ← peekIs [.ofType .rawString] then
    let tag ← next
    pure (.mk name dt (some tag))
  else pure (.mk name dt none)

def parseElemExprList : Parse (List ElemExpr) :=
  untilPeek [.ofType .rbrace, .ofType .eof] do
    notExpectPeekToken elemBegins
    let expr ← parseElemExpr dataType
    notExpectPeekToken elemBegins
    pure expr

def parseStructDataType : Parse DataType := do
  let lbrace ← next
  notExpectPeekToken elemBegins
  let elements ← parseElemExprList dataType
  let rbrace ← advance [.ofType .rbrace]
  pure (.struct lbrace elements rbrace)

def parseMapDataType : Parse DataType := do
  let map ← next
  let lbrack ← advance [.ofType .lbrack]
  let key ← dataType
  let rbrack ← advance [.ofType .rbrack]
  let value ← dataType
  pure (.map map lbrack key rbrack value)

def parsePointerDataType : Parse DataType := do
  let star ← next
  notExpectPeekToken [.ofType .ident, .ofType .lbrack, .ofType .any, .ofType .mul]
  let dt ← dataType
  pure (.pointer star dt)

def parseSliceDataType : Parse DataType := do
  let lbrack ← curTokenNode
  let rbrack ← advance [.ofType .rbrack]
  let dt ← dataType
  pure (.slice lbrack rbrack dt)

def parseArrayDataType : Parse DataType := do
  let lbrack ← curTokenNode
  let length ← next
  let rbrack ← advance [.ofType .rbrack]
  let dt ← dataType
  pure (.array lbrack length rbrack dt)

def parseDataTypeStep : Parse DataType := do
  if ← peekIs [word "any"] then pure (.any (← next))
  else if ← peekIs [.ofType .lbrace] then parseStructDataType dataType
  else if ← peekIs [.ofType .ident] then
    if ← peekIs [word "map"] then parseMapDataType dataType
    else
      nextToken
      curTokenIsKeyword
      pure (.base (← curTokenNode))
  else if ← peekIs [.ofType .lbrack] then
    nextToken
    if ← peekIs [.ofType .rbrack] then parseSliceDataType dataType
    else if ← peekIs [.ofType .int, .ofType .ellipsis] then parseArrayDataType dataType
    else refuse (peekError [.ofType .rbrack, .ofType .int, .ofType .ellipsis])
  else if ← peekIs [.ofType .any] then pure (.interface (← next))
  else if ← peekIs [.ofType .mul] then parsePointerDataType dataType
  else
    refuse (peekError [.ofType .ident, .ofType .lbrack, .ofType .any, .ofType .mul,
      .ofType .lbrace])

end

def parseDataTypeFrom : Nat → Parse DataType
  | 0 => panic .outOfFuel
  | fuel + 1 => parseDataTypeStep (parseDataTypeFrom fuel)

/-- Types are nested no deeper than there are tokens. -/
def parseDataType : Parse DataType := fun p => parseDataTypeFrom (p.scanner.remaining + 3) p

def parseTypeExpr : Parse TypeExpr := do
  advanceIfPeekTokenIs [.ofType .ident]
  curTokenIsKeyword
  let name ← curTokenNode
  let assign ← if ← peekIs [.ofType .assign] then pure (some (← next)) else pure none
  let dataType ← parseDataType
  pure { name, assign, dataType }

def parseTypeExprList : Parse (List TypeExpr) := do
  expectPeekToken [.ofType .ident, .ofType .rparen]
  untilPeek [.ofType .rparen, .ofType .eof] do
    let expr ← parseTypeExpr
    expectPeekToken [.ofType .ident, .ofType .rparen]
    pure expr

def parseTypeGroupStmt : Parse TypeStmt := do
  let type ← curTokenNode
  let lparen ← next
  let exprList ← parseTypeExprList
  let rparen ← advance [.ofType .rparen]
  pure (.group type lparen exprList rparen)

def parseTypeLiteralStmt : Parse TypeStmt := do
  let type ← curTokenNode
  let expr ← parseTypeExpr
  pure (.literal type expr)

def parseTypeStmt : Parse TypeStmt := do
  if ← peekIs [.ofType .lparen] then parseTypeGroupStmt
  else if ← peekIs [.ofType .ident] then parseTypeLiteralStmt
  else refuse (peekError [.ofType .lparen, .ofType .ident])

def parseImportLiteralStmt : Parse ImportStmt := do
  let keyword ← curTokenNode
  let value ← advance [.ofType .string]
  pure (.literal keyword value)

def parseImportGroupStmt : Parse ImportStmt := do
  let keyword ← curTokenNode
  let lparen ← advance [.ofType .lparen]
  let values ← untilPeek [.ofType .rparen] do
    let value ← advance [.ofType .string]
    notExpectPeekToken [.ofType .rparen, .ofType .string]
    pure value
  let rparen ← advance [.ofType .rparen]
  pure (.group keyword lparen values rparen)

def parseImportStmt : Parse ImportStmt := do
  notExpectPeekToken [.ofType .lparen, .ofType .string]
  if ← peekIs [.ofType .lparen] then parseImportGroupStmt else parseImportLiteralStmt

def parseInfoStmt : Parse InfoStmt := do
  let info ← curTokenNode
  let (lparen, values, rparen) ← parseKVGroup parseKVExpression
  pure { info, lparen, values, rparen }

def parseSyntaxStmt : Parse SyntaxStmt := do
  let keyword ← curTokenNode
  let assign ← advance [.ofType .assign]
  let value ← advance [.ofType .string]
  pure { keyword, assign, value }

def parseStmt : Parse Stmt := do
  if ← curIs [.ofType .ident] then
    if ← curIs [word "syntax"] then pure (.ofSyntax (← parseSyntaxStmt))
    else if ← curIs [word "info"] then pure (.ofInfo (← parseInfoStmt))
    else if ← curIs [word "service"] then pure (.ofService (← parseService))
    else if ← curIs [word "type"] then pure (.ofType (← parseTypeStmt))
    else if ← curIs [word "import"] then pure (.ofImport (← parseImportStmt))
    else refuse fun p =>
      expectIdentError p.curTok [word "syntax", word "info", word "service", .ofType .type]
  else if ← curIs [.ofType .atServer] then pure (.ofService (← parseService))
  else refuse fun p =>
    p.curTok.position.text ++ bytes " unexpected token '" ++ p.peekTok.text ++ bytes "'"

def appendStmt (stmt : Stmt) : Parse Unit := change fun p => { p with stmts := p.stmts ++ [stmt] }

def init : Parse Unit := do
  nextToken
  nextToken

/-- `Parse`: the statements up to the end of the file. -/
def parseStmts : Parse Unit := do
  init
  let _ ← forWhile curTokenIsNotEof do
    appendStmt (← parseStmt)
    nextToken

/-- What `New`, `Parse` and `CheckErrors` do with the content of a file: an empty one ends the
program. -/
inductive Parsed where
  | fatal
  | panics (reason : Panic)
  | errors (texts : List Str)
  | ast (ast : AST)

/-- The positions of the tokens have the last element of the path only. -/
def new (path : Str) (data : Str) : Parser :=
  { scanner := { filename := FilePath.base path, data := Utf8.runes data } }

def parseFile (path : Str) (data : Str) : Parsed :=
  if data = [] then .fatal
  else
    match parseStmts (new path data) with
    | .error reason => .panics reason
    | .ok (result, p) =>
      if p.errors ≠ [] then .errors p.errors
      else
        match result with
        | some _ => .ast { filename := path, stmts := p.stmts }
        -- the callers follow the nil tree
        | none => .panics .nilPointer

end Parser

end FastGoZero.Api
