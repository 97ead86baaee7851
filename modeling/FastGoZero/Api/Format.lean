import FastGoZero.Api.Convert

/-!
# The text of a route

The duplicate checks compare routes by their formatted text. A `Writer` puts the texts of its nodes
on one line, but for comments that stand on lines of their own. The text goes through a
`text/tabwriter`, and the name of a service through `fmt.Fprintf` as a format without arguments;
what these two make of a text is left open.
-/

namespace FastGoZero.Api

open Lib

/-- What a `tabwriter` makes of a text until it is flushed, and `Fprintf` of a format without
arguments. -/
structure Printing where
  align : Str → Str
  directives : Str → Str

/-- A text without tabs, line ends and percent signs stays as it is. -/
def Printing.plain : Printing := ⟨id, id⟩

/-- What the writer asks of a node. -/
structure Node where
  pos : Position
  «end» : Position
  text : Str
  hasHeadCommentGroup : Bool
  hasLeadingCommentGroup : Bool

namespace TokenNode

/-- The position of the last comment behind the token, or of the token. -/
def endPos (node : TokenNode) : Position :=
  match node.leadingCommentGroup.getLast? with
  | none => node.token.position
  | some comment => comment.position

def hasHeadCommentGroup (node : TokenNode) : Bool := !node.headCommentGroup.isEmpty

def hasLeadingCommentGroup (node : TokenNode) : Bool := !node.leadingCommentGroup.isEmpty

def ignoreHeadComment (node : TokenNode) : TokenNode := { node with headCommentGroup := [] }

def ignoreLeadingComment (node : TokenNode) : TokenNode := { node with leadingCommentGroup := [] }

def ignoreComment (node : TokenNode) : TokenNode := { token := node.token }

def node (node : TokenNode) : Node :=
  ⟨node.pos, node.endPos, node.format, node.hasHeadCommentGroup, node.hasLeadingCommentGroup⟩

/-- A `PathExpr` has the comments of its value but does not print them. -/
def pathNode (path : TokenNode) : Node := { path.node with text := path.token.text }

end TokenNode

/-- The texts of the nodes that follow one that ends at the line and has a comment behind it or
not. -/
def nodeTexts (sameLine : Bool) : Bool → Nat → List Node → List Str
  | _, _, [] => []
  | commented, line, node :: nodes =>
    let auto := !sameLine || node.hasHeadCommentGroup || commented
    (if auto && decide (line < node.pos.line) then [[10]] else []) ++
      (if isWhiteSpace node.text then [] else [node.text]) ++
      nodeTexts sameLine node.hasLeadingCommentGroup node.end.line nodes

/-- `strings.ReplaceAll` of two bytes by one. -/
def replacePair (first second replacement : UInt8) : Str → Str
  | a :: b :: rest =>
    if a = first ∧ b = second then replacement :: replacePair first second replacement rest
    else a :: replacePair first second replacement (b :: rest)
  | rest => rest

/-- `Writer.write`, with its nodes on the same line where that is possible or with new lines as in
the source. -/
def write (sameLine : Bool) (separator : Str) : List Node → Str
  | [] => []
  | node :: nodes =>
    let text := separator.intercalate (nodeTexts sameLine false node.end.line (node :: nodes))
    replacePair 10 32 10 (replacePair 32 10 10 text)

section

variable (printing : Printing)

def BodyExpr.format (e : BodyExpr) : Str :=
  let front :=
    match e.lbrack with
    | some lbrack => lbrack :: e.rbrack.toList ++ e.star.toList
    | none => e.star.toList
  printing.align <|
    if front.isEmpty then write false [32] [e.value.node]
    else write true [] (front.map (fun node => node.ignoreComment.node) ++ [e.value.node])

def BodyExpr.first (e : BodyExpr) : TokenNode := (e.lbrack.or e.star).getD e.value

def BodyExpr.node (e : BodyExpr) : Node where
  pos := e.first.pos
  «end» := e.value.endPos
  text := e.format printing
  hasHeadCommentGroup := e.first.hasHeadCommentGroup
  hasLeadingCommentGroup := e.value.hasLeadingCommentGroup

def BodyStmt.format (b : BodyStmt) : Str :=
  match b.body with
  | none => []
  | some body => printing.align (write true [] [b.lparen.node, body.node printing, b.rparen.node])

def BodyStmt.node (b : BodyStmt) : Node where
  pos := b.lparen.pos
  «end» := b.rparen.endPos
  text := b.format printing
  hasHeadCommentGroup := b.lparen.hasHeadCommentGroup
  hasLeadingCommentGroup := b.rparen.hasLeadingCommentGroup

/-- The comments before the right parenthesis of the last body are dropped. -/
def BodyStmt.ignoreHeadComment (b : BodyStmt) : BodyStmt :=
  { b with rparen := b.rparen.ignoreHeadComment }

/-- `Format("")`. The parser sets `returns` whenever it sets `response`. -/
def RouteStmt.format (r : RouteStmt) : Str :=
  let method := r.method.ignoreLeadingComment.node
  let nodes :=
    match r.response, r.request with
    | some response, request =>
      let request := request.toList.map (BodyStmt.node printing)
      if response.body.isNone then method :: r.path.pathNode :: request
      else method :: r.path.pathNode :: request ++ r.returns.toList.map TokenNode.node ++
        [response.ignoreHeadComment.node printing]
    | none, some request =>
      [method, r.path.pathNode, request.ignoreHeadComment.node printing]
    | none, none => [method, r.path.ignoreHeadComment.node]
  printing.align (write true [32] nodes)

/-- The name of a service as `ServiceNameExpr.Format` prints it. -/
def serviceNameText (name : TokenNode) : Str :=
  printing.align (printing.directives name.format)

end

end FastGoZero.Api
