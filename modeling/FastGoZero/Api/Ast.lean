import FastGoZero.Api.Token

/-!
# The syntax tree of an api file

The nodes of the package `ast`. A field that the parser may leave nil is an `Option`; the other
pointers are set whenever a node is returned. The flags that only the formatter uses are left out.
-/

namespace FastGoZero.Api

open Lib

/-- A token with the comments on the lines before it and behind it on its own line. -/
structure TokenNode where
  headCommentGroup : List Token := []
  token : Token
  leadingCommentGroup : List Token := []
deriving DecidableEq

structure KVExpr where
  key : TokenNode
  value : TokenNode

structure SyntaxStmt where
  keyword : TokenNode
  assign : TokenNode
  value : TokenNode

structure InfoStmt where
  info : TokenNode
  lparen : TokenNode
  values : List KVExpr
  rparen : TokenNode

inductive ImportStmt where
  | literal (keyword value : TokenNode)
  | group (keyword lparen : TokenNode) (values : List TokenNode) (rparen : TokenNode)

mutual

inductive DataType where
  | any (any : TokenNode)
  | array (lbrack length rbrack : TokenNode) (dataType : DataType)
  | base (base : TokenNode)
  | interface (interface : TokenNode)
  | map (map lbrack : TokenNode) (key : DataType) (rbrack : TokenNode) (value : DataType)
  | pointer (star : TokenNode) (dataType : DataType)
  | slice (lbrack rbrack : TokenNode) (dataType : DataType)
  | struct (lbrace : TokenNode) (elements : List ElemExpr) (rbrace : TokenNode)

/-- An element of a structure, anonymous if it has no names. -/
inductive ElemExpr where
  | mk (name : List TokenNode) (dataType : DataType) (tag : Option TokenNode)

end

structure TypeExpr where
  name : TokenNode
  assign : Option TokenNode
  dataType : DataType

inductive TypeStmt where
  | literal (type : TokenNode) (expr : TypeExpr)
  | group (type lparen : TokenNode) (exprList : List TypeExpr) (rparen : TokenNode)

def TypeStmt.exprs : TypeStmt → List TypeExpr
  | .literal _ expr => [expr]
  | .group _ _ exprList _ => exprList

structure AtServerStmt where
  atServer : TokenNode
  lparen : TokenNode
  values : List KVExpr
  rparen : TokenNode

inductive AtDocStmt where
  | literal (atDoc value : TokenNode)
  | group (atDoc lparen : TokenNode) (values : List KVExpr) (rparen : TokenNode)

structure AtHandlerStmt where
  atHandler : TokenNode
  name : TokenNode

structure BodyExpr where
  lbrack : Option TokenNode := none
  rbrack : Option TokenNode := none
  star : Option TokenNode := none
  value : TokenNode

structure BodyStmt where
  lparen : TokenNode
  body : Option BodyExpr
  rparen : TokenNode

structure RouteStmt where
  method : TokenNode
  path : TokenNode
  request : Option BodyStmt := none
  returns : Option TokenNode := none
  response : Option BodyStmt := none

structure ServiceItemStmt where
  atDoc : Option AtDocStmt := none
  atHandler : Option AtHandlerStmt := none
  route : Option RouteStmt := none

structure ServiceStmt where
  atServerStmt : Option AtServerStmt
  service : TokenNode
  name : TokenNode
  lbrace : TokenNode
  routes : List ServiceItemStmt
  rbrace : TokenNode

inductive Stmt where
  | ofSyntax (stmt : SyntaxStmt)
  | ofInfo (stmt : InfoStmt)
  | ofImport (stmt : ImportStmt)
  | ofType (stmt : TypeStmt)
  | ofService (stmt : ServiceStmt)
  | ofComment (comment : Token)

structure AST where
  filename : Str
  stmts : List Stmt

end FastGoZero.Api
