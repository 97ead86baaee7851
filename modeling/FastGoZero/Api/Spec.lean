import FastGoZero.Api.SelfCheck
import FastGoZero.Lib.StableSort

/-!
# The spec of an api

The analyzer turns a merged api into a spec: the declared structures, and for each service
statement a group of routes. Types, groups and the routes of a group are sorted at the end by
stable sorts.

The text of a composite type is what the formatter of the package `ast` prints for it; it is left
open, and so is `strings.Title`.
-/

namespace FastGoZero.Api

open Lib Lib.Str Lib.StableSort

/-- What the formatter and the library make of texts. -/
structure Rendering where
  printing : Printing
  typeText : DataType → Str
  title : Str → Str

namespace DataType

def pos : DataType → Position
  | .any node => node.pos
  | .array lbrack _ _ _ => lbrack.pos
  | .base node | .interface node => node.pos
  | .map keyword _ _ _ _ => keyword.pos
  | .pointer star _ => star.pos
  | .slice lbrack _ _ => lbrack.pos
  | .struct lbrace _ _ => lbrace.pos

def headComments : DataType → List Token
  | .any node => node.headCommentGroup
  | .array lbrack _ _ _ => lbrack.headCommentGroup
  | .base node | .interface node => node.headCommentGroup
  | .map keyword _ _ _ _ => keyword.headCommentGroup
  | .pointer star _ => star.headCommentGroup
  | .slice lbrack _ _ => lbrack.headCommentGroup
  | .struct lbrace _ _ => lbrace.headCommentGroup

def leadingComments : DataType → List Token
  | .any node => node.leadingCommentGroup
  | .array _ _ _ dataType => leadingComments dataType
  | .base node | .interface node => node.leadingCommentGroup
  | .map _ _ _ _ value => leadingComments value
  | .pointer _ dataType | .slice _ _ dataType => leadingComments dataType
  | .struct _ _ rbrace => rbrace.leadingCommentGroup

def containsStruct : DataType → Bool
  | .any _ => false
  | .array _ _ _ dataType => containsStruct dataType
  | .base _ => false
  | .interface _ => false
  | .map _ _ key _ value => containsStruct key || containsStruct value
  | .pointer _ dataType | .slice _ _ dataType => containsStruct dataType
  | .struct _ _ _ => true

mutual

def canEqual : DataType → Bool
  | .any _ => true
  | .array _ _ _ dataType => canEqual dataType
  | .base _ => true
  | .interface _ => true
  | .map _ _ _ _ _ => false
  | .pointer _ dataType => canEqual dataType
  | .slice _ _ _ => false
  | .struct _ elements _ => elementsCanEqual elements

def elementsCanEqual : List ElemExpr → Bool
  | [] => true
  | .mk _ dataType _ :: elements => canEqual dataType && elementsCanEqual elements

end

def isLiteralType : DataType → Bool
  | .base _ => true
  | .any _ => true
  | _ => false

/-- The verb `%T`. -/
def goType : DataType → Str
  | .any _ => bytes "*ast.AnyDataType"
  | .array _ _ _ _ => bytes "*ast.ArrayDataType"
  | .base _ => bytes "*ast.BaseDataType"
  | .interface _ => bytes "*ast.InterfaceDataType"
  | .map _ _ _ _ _ => bytes "*ast.MapDataType"
  | .pointer _ _ => bytes "*ast.PointerDataType"
  | .slice _ _ _ => bytes "*ast.SliceDataType"
  | .struct _ _ _ => bytes "*ast.StructDataType"

def rawText (r : Rendering) : DataType → Str
  | .any node | .base node | .interface node => node.token.text
  | dataType => r.typeText dataType

end DataType

mutual

inductive SpecType where
  | defineStruct (rawName : Str) (members : List Member) (docs : List Str)
  | nestedStruct (rawName : Str) (members : List Member)
  | primitive (rawName : Str)
  | map (rawName key : Str) (value : SpecType)
  | array (rawName : Str) (value : SpecType)
  | interface (rawName : Str)
  | pointer (rawName : Str) (type : SpecType)

inductive Member where
  | mk (name : Str) (type : SpecType) (tag comment : Str) (docs : List Str)
      (isInline : Bool)

end

structure DefineStruct where
  rawName : Str
  members : List Member
  docs : List Str

def DefineStruct.type (t : DefineStruct) : SpecType := .defineStruct t.rawName t.members t.docs

/-- A syntax error with its position and message, a type that is used and not declared, or a
panic. -/
inductive SpecFailure where
  | syntaxError (position : Position) (msg : Str)
  | typeNotDefined (name : Str)
  | panics (reason : Panic)
deriving DecidableEq

section

variable (r : Rendering)

mutual

def astTypeToSpec : DataType → Except SpecFailure SpecType
  | .base node =>
    let raw := node.token.text
    if isBaseType raw then .ok (.primitive raw) else .ok (.defineStruct raw [] [])
  | .any node => .error (.syntaxError node.pos (bytes "unsupported any type"))
  | .struct lbrace elements rbrace => do
    let members ← fieldsToMembers elements
    let raw := (DataType.struct lbrace elements rbrace).rawText r
    if raw = bytes "\x7b\x7d" then
      .error (.syntaxError lbrace.pos (bytes "unsupported empty struct"))
    else pure (.nestedStruct raw members)
  | .interface node => .ok (.interface node.token.text)
  | .map keyword lbrack key rbrack value =>
    if !key.isLiteralType then
      .error (.syntaxError keyword.pos
        (bytes "expected literal type, got <" ++ key.goType ++ bytes ">"))
    else if !key.canEqual then
      .error (.syntaxError keyword.pos
        (bytes "map key <" ++ key.goType ++ bytes "> must be equal data type"))
    else if value.containsStruct then
      .error (.syntaxError keyword.pos (bytes "map value unsupported nested struct"))
    else do
      let type ← astTypeToSpec value
      pure (.map ((DataType.map keyword lbrack key rbrack value).rawText r) (key.rawText r) type)
  | .pointer star dataType =>
    let raw := dataType.rawText r
    let rawName := (DataType.pointer star dataType).rawText r
    if isBaseType raw then .ok (.pointer rawName (.primitive raw))
    else do
      let type ← astTypeToSpec dataType
      pure (.pointer rawName type)
  | .array lbrack length rbrack dataType =>
    if length.token.type = .ellipsis then
      .error (.syntaxError lbrack.pos (bytes "array length unsupported dynamic length"))
    else if dataType.containsStruct then
      .error (.syntaxError lbrack.pos (bytes "array elements unsupported nested struct"))
    else do
      let type ← astTypeToSpec dataType
      pure (.array ((DataType.array lbrack length rbrack dataType).rawText r) type)
  | .slice lbrack rbrack dataType =>
    if dataType.containsStruct then
      .error (.syntaxError lbrack.pos (bytes "slice elements unsupported nested struct"))
    else do
      let type ← astTypeToSpec dataType
      pure (.array ((DataType.slice lbrack rbrack dataType).rawText r) type)

/-- `fieldToMember` for each element. -/
def fieldsToMembers : List ElemExpr → Except SpecFailure (List Member)
  | [] => pure []
  | .mk name dataType tag :: elements => do
    let type ← astTypeToSpec dataType
    let head := match name with
      | [] => dataType.headComments
      | first :: _ => first.headCommentGroup
    let leading := match tag with
      | none => dataType.leadingComments
      | some tag => tag.leadingCommentGroup
    let mem : Member := .mk ((bytes ", ").intercalate (name.map fun node => node.token.text)) type
      ((tag.map fun node => node.token.text).getD []) ([32].intercalate (commentTexts leading))
      (commentTexts head) name.isEmpty
    let members ← fieldsToMembers elements
    pure (mem :: members)

end

def fillTypeExpr (expr : TypeExpr) : Except SpecFailure DefineStruct :=
  match expr.dataType with
  | .struct _ elements _ => do
    let members ← fieldsToMembers r elements
    pure ⟨expr.name.token.text, members, commentTexts expr.name.headCommentGroup⟩
  | dataType => .error (.syntaxError expr.name.pos
      (bytes "expected <struct> expr, got <" ++ dataType.goType ++ bytes ">"))

variable (types : List DefineStruct)

def findDefinedType (name : Str) : Except SpecFailure SpecType :=
  match types.find? fun t => decide (t.rawName = name) with
  | some t => .ok t.type
  | none => .error (.typeNotDefined name)

/-- A declared type is put in the place of its name. -/
def resolveType : SpecType → Except SpecFailure SpecType
  | .defineStruct rawName _ _ => findDefinedType types rawName
  | type => .ok type

def resolveMember : Member → Except SpecFailure Member
  | .mk name type tag comment docs isInline => do
    let type ← resolveType types type
    pure (.mk name type tag comment docs isInline)

def resolveStruct (t : DefineStruct) : Except SpecFailure DefineStruct := do
  let members ← t.members.mapM (resolveMember types)
  pure { t with members }

def fillTypes (exprs : List TypeExpr) : Except SpecFailure (List DefineStruct) := do
  let types ← exprs.mapM (fillTypeExpr r)
  types.mapM (resolveStruct types)

/-- The properties are nil where there is no statement for them. -/
structure AtDoc where
  text : Str := []
  properties : Option (GoMap Str Str) := none

structure Route where
  method : Str
  path : Str
  requestType : Option SpecType
  responseType : Option SpecType
  handler : Str
  atDoc : AtDoc
  handlerDoc : List Str
  handlerComment : List Str
  doc : List Str
  comment : List Str

structure Group where
  properties : Option (GoMap Str Str)
  routes : List Route

/-- A property, the empty string if there is none. -/
def Group.property (group : Group) (key : Str) : Str :=
  (group.properties.bind fun properties => properties.lookup key).getD []

def convertKV (values : List KVExpr) : GoMap Str Str :=
  values.foldl (fun ret kv =>
    let key := trimSuffix kv.key.token.text (bytes ":")
    ret.insert key (if key = bytes "summary" then kv.value.rawText else kv.value.token.text)) ∅

def convertAtDoc : Option AtDocStmt → AtDoc
  | none => {}
  | some (.literal _ value) => { text := value.token.text }
  | some (.group _ _ values _) => { properties := some (convertKV values) }

def AtDocStmt.headComments : AtDocStmt → List Token
  | .literal atDoc _ | .group atDoc _ _ _ => atDoc.headCommentGroup

def RouteStmt.leadingComments (route : RouteStmt) : List Token :=
  match route.response, route.returns, route.request with
  | some response, _, _ => response.rparen.leadingCommentGroup
  | none, some returns, _ => returns.leadingCommentGroup
  | none, none, some request => request.rparen.leadingCommentGroup
  | none, none, none => []

def getType (body : BodyExpr) (req : Bool) : Except SpecFailure SpecType := do
  if req && body.lbrack.isSome then
    .error (.syntaxError body.first.pos (bytes "request body must be struct"))
  else
    let rawText := body.format r.printing
    let name := body.value.token.text
    let type ← if isBaseType name then .ok (.primitive name) else findDefinedType types name
    if body.star.isSome then pure (.pointer rawText type)
    else if body.lbrack.isSome then pure (.array rawText type)
    else pure type

/-- The type of a body, if there is one, as `getType` and `fillRouteType` give it. -/
def bodyType (stmt : Option BodyStmt) (req : Bool) : Except SpecFailure (Option SpecType) :=
  match stmt.bind BodyStmt.body with
  | none => .ok none
  | some body => do
    let type ← getType r types body req
    let type ← resolveType types type
    pure (some type)

def convertRoute (item : ServiceItemStmt) : Except SpecFailure Route :=
  match item.route with
  | none => .error (.panics .nilPointer)
  | some route =>
    match item.atDoc.map AtDocStmt.headComments <|>
        item.atHandler.map fun handler => handler.atHandler.headCommentGroup with
    | none => .error (.panics .nilPointer)
    | some head => do
      let requestType ← bodyType r types route.request true
      let responseType ← bodyType r types route.response false
      pure {
        method := route.method.token.text
        path := route.path.token.text
        requestType
        responseType
        handler := (item.atHandler.map fun handler => handler.name.token.text).getD []
        atDoc := convertAtDoc item.atDoc
        handlerDoc := (item.atHandler.map fun handler =>
          commentTexts handler.atHandler.headCommentGroup).getD []
        handlerComment := (item.atHandler.map fun handler =>
          commentTexts handler.name.leadingCommentGroup).getD []
        doc := commentTexts head
        comment := commentTexts route.leadingComments }

/-- One item: its route is added and the name of the service compared with those before. -/
def fillRoute (service : ServiceStmt) (state : Str × List Route) (item : ServiceItemStmt) :
    Except SpecFailure (Str × List Route) := do
  let route ← convertRoute r types item
  let name := serviceNameText r.printing service.name
  if state.1 ≠ [] ∧ state.1 ≠ name then
    .error (.syntaxError service.name.pos
      (bytes "multiple service names defined <" ++ name ++ bytes "> and <" ++ state.1 ++ bytes ">"))
  else pure (name, state.2 ++ [route])

def ServiceStmt.properties (service : ServiceStmt) : Option (GoMap Str Str) :=
  service.atServerStmt.map fun stmt => convertKV stmt.values

def fillGroup (state : Str × List Group) (service : ServiceStmt) :
    Except SpecFailure (Str × List Group) := do
  let (name, routes) ← service.routes.foldlM (fillRoute r types service) (state.1, [])
  pure (name, state.2 ++ [⟨service.properties, routes⟩])

def fillService (services : List ServiceStmt) : Except SpecFailure (Str × List Group) :=
  services.foldlM (fillGroup r types) ([], [])

structure Info where
  title : Str
  desc : Str
  version : Str
  author : Str
  email : Str
  properties : GoMap Str Str

def infoProperties (info : Option InfoStmt) : GoMap Str Str :=
  ((info.map InfoStmt.values).getD []).foldl
    (fun properties kv =>
      properties.insert (trimSuffix kv.key.token.text (bytes ":")) kv.value.rawText) ∅

/-- The loop over the properties goes in some order. -/
def fillInfo (order : GoMap.RangeOrder Str Str) (info : Option InfoStmt) : Info :=
  let properties := infoProperties info
  let infoKeyValue : GoMap Str Str := (properties.range order).foldl
    (fun set entry => set.insert (r.title (trimSuffix entry.1 (bytes ":"))) entry.2) ∅
  let value (key : String) : Str := (infoKeyValue.lookup (bytes key)).getD []
  { title := value "Title", desc := value "Desc", version := value "Version"
    author := value "Author", email := value "Email", properties }

structure ApiSpec where
  info : Info
  types : List DefineStruct
  serviceName : Str
  groups : List Group

def sortRoutes (group : Group) : Group :=
  { group with routes := stableSort lessString Route.path group.routes }

def convert2Spec (infoOrder : GoMap.RangeOrder Str Str) (api : API) :
    Except SpecFailure ApiSpec := do
  let types ← fillTypes r api.typeExprs
  let (name, groups) ← fillService r types api.serviceStmts
  pure {
    info := fillInfo r infoOrder api.info
    types := stableSort lessString DefineStruct.rawName types
    serviceName := name
    groups := stableSort lessString (fun group => group.property (bytes "group"))
      (groups.map sortRoutes) }

inductive ParseFailure where
  | load (failure : LoadFailure)
  | selfCheck (failure : SelfCheckFailure)
  | spec (failure : SpecFailure)
deriving DecidableEq

/-- The analyzer's `Parse` of the file at a path. -/
def parse (load : Str → Except LoadFailure API) (order : Importing → GoMap.RangeOrder Str Token)
    (infoOrder : GoMap.RangeOrder Str Str) (fuel : Nat) (path : Str) :
    Except ParseFailure ApiSpec :=
  match load path with
  | .error failure => .error (.load failure)
  | .ok root =>
    match root.selfCheck load order r.printing fuel with
    | .error failure => .error (.selfCheck failure)
    | .ok merged => (convert2Spec r infoOrder merged).mapError .spec

end

end FastGoZero.Api
