import FastGoZero.Api.Format
import FastGoZero.Api.Imports

/-!
# The checks of a merged api

`SelfCheck` merges the imported files into an api and then checks it. A filter takes a declaration
for a duplicate if another one with its text stands at a different position; the position that it
compares has the base name of the file, the line and the column. The errors of a check are
collected, and the first check with errors ends `SelfCheck`.
-/

namespace FastGoZero.Api

open Lib Lib.Str

inductive CheckError where
  | duplicateStmt (position : Position) (msg : Str)
  | multipleServiceName (position : Position)
  | unresolvedType (position : Position) (name : Str)
deriving DecidableEq

structure FilterBuilder where
  filename : Str
  m : GoMap Str Position := ∅
  checkExprName : Str
  errors : List CheckError := []

namespace FilterBuilder

/-- One node, whose text in the map is the key. -/
def checkKey (b : FilterBuilder) (key : Str) (node : TokenNode) : FilterBuilder :=
  let recorded := { b with m := b.m.insert key node.token.position }
  match b.m.lookup key with
  | some pos =>
    if pos ≠ node.token.position then
      { b with errors := b.errors ++
          [.duplicateStmt node.pos (bytes "duplicate " ++ b.checkExprName)] }
    else recorded
  | none => recorded

def check (b : FilterBuilder) (nodes : List TokenNode) : FilterBuilder :=
  nodes.foldl (fun b node => b.checkKey (b.filename ++ bytes "/" ++ node.token.text) node) b

def checkNodeWithPrefix (b : FilterBuilder) (front : Str) (nodes : List TokenNode) :
    FilterBuilder :=
  nodes.foldl (fun b node => b.checkKey (front ++ bytes "/" ++ node.token.text) node) b

end FilterBuilder

namespace API

def checkImportStmt (api : API) : List CheckError :=
  let b : FilterBuilder :=
    { filename := api.filename, checkExprName := bytes "import value expression" }
  (api.importStmt.foldl (fun b stmt => b.check stmt.values) b).errors

def checkInfoStmt (api : API) : List CheckError :=
  match api.info with
  | none => []
  | some info =>
    let b : FilterBuilder :=
      { filename := api.filename, checkExprName := bytes "info key expression" }
    (info.values.foldl (fun b kv => b.check [kv.key]) b).errors

def typeExprs (api : API) : List TypeExpr := api.typeStmt.flatMap TypeStmt.exprs

def checkTypeStmt (api : API) : List CheckError :=
  let b : FilterBuilder := { filename := api.filename, checkExprName := bytes "type expression" }
  (api.typeExprs.foldl (fun b expr => b.check [expr.name]) b).errors

mutual

def checkTypeExprContext (declared : List Str) : DataType → List CheckError
  | .array _ _ _ dataType => checkTypeExprContext declared dataType
  | .base base =>
    if isBaseType base.token.text || declared.contains base.token.text then []
    else [.unresolvedType base.pos base.token.text]
  | .map _ _ key _ value =>
    checkTypeExprContext declared key ++ checkTypeExprContext declared value
  | .pointer _ dataType | .slice _ _ dataType => checkTypeExprContext declared dataType
  | .struct _ elements _ => checkElements declared elements
  | .any _ => []
  | .interface _ => []

def checkElements (declared : List Str) : List ElemExpr → List CheckError
  | [] => []
  | .mk _ dataType _ :: elements =>
    checkTypeExprContext declared dataType ++ checkElements declared elements

end

def checkTypeDeclareContext (api : API) : List CheckError :=
  let declared := api.typeExprs.map fun expr => expr.name.token.text
  api.typeExprs.flatMap fun expr => checkTypeExprContext declared expr.dataType

end API

def getAtServerValue (atServer : Option AtServerStmt) (key : Str) : Str :=
  match atServer with
  | none => []
  | some stmt =>
    match stmt.values.find? fun kv => kv.key.token.text == key with
    | some kv => kv.value.token.text
    | none => []

def ServiceStmt.group (service : ServiceStmt) : Str :=
  getAtServerValue service.atServerStmt (bytes "group:")

def ServiceStmt.routePrefix (service : ServiceStmt) : Str :=
  getAtServerValue service.atServerStmt (bytes "prefix:")

def trimSuffix (text suffix : Str) : Str :=
  if suffix.isSuffixOf text then text.take (text.length - suffix.length) else text

structure ServiceCheck where
  serviceName : GoMap Str Str := ∅
  serviceNameErrors : List CheckError := []
  handlerChecker : FilterBuilder
  pathChecker : FilterBuilder

namespace ServiceCheck

def checkName (c : ServiceCheck) (name : Str) (pos : Position) : ServiceCheck :=
  match c.serviceName.lookup name with
  | some sn =>
    if sn ≠ name then
      { c with serviceNameErrors := c.serviceNameErrors ++ [.multipleServiceName pos] }
    else c
  | none => { c with serviceName := c.serviceName.insert name name }

/-- The node that stands for a route: its text with the prefix, at the position of the method. -/
def routeNode (printing : Printing) (service : ServiceStmt) (route : RouteStmt) : TokenNode where
  token :=
    { text := bytes "[" ++ service.routePrefix ++ bytes "]:" ++ route.format printing
      position := route.method.pos }

/-- An item without a handler or a route makes the check panic. -/
def checkItem (printing : Printing) (service : ServiceStmt) (c : ServiceCheck)
    (item : ServiceItemStmt) : Except Panic ServiceCheck :=
  match item.atHandler, item.route with
  | some handler, some route =>
    .ok { c with
      handlerChecker := c.handlerChecker.checkNodeWithPrefix service.group [handler.name]
      pathChecker := c.pathChecker.check [routeNode printing service route] }
  | _, _ => .error .nilPointer

def checkService (printing : Printing) (c : ServiceCheck) (service : ServiceStmt) :
    Except Panic ServiceCheck :=
  let name := trimSuffix (serviceNameText printing service.name) (bytes "-api")
  service.routes.foldlM (checkItem printing service) (c.checkName name service.name.pos)

end ServiceCheck

def API.checkServiceStmt (printing : Printing) (api : API) : Except Panic (List CheckError) := do
  let start : ServiceCheck :=
    { handlerChecker :=
        { filename := api.filename, checkExprName := bytes "handler expression" }
      pathChecker := { filename := api.filename, checkExprName := bytes "path expression" } }
  let c ← api.serviceStmts.foldlM (ServiceCheck.checkService printing) start
  pure (c.serviceNameErrors ++ c.handlerChecker.errors ++ c.pathChecker.errors)

inductive SelfCheckFailure where
  | imports (failure : ImportFailure)
  | checks (errors : List CheckError)
  | panics (reason : Panic)
deriving DecidableEq

def report (errors : List CheckError) : Except SelfCheckFailure Unit :=
  if errors = [] then .ok () else .error (.checks errors)

/-- What `SelfCheck` does once the imported files are merged. -/
def API.checkMerged (printing : Printing) (api : API) : Except SelfCheckFailure Unit := do
  report api.checkImportStmt
  report api.checkInfoStmt
  report api.checkTypeStmt
  match api.checkServiceStmt printing with
  | .error reason => .error (.panics reason)
  | .ok errors =>
    report errors
    report api.checkTypeDeclareContext

/-- The merged api, if there is nothing to report. -/
def API.selfCheck (load : Str → Except LoadFailure API)
    (order : Importing → GoMap.RangeOrder Str Token) (printing : Printing) (fuel : Nat)
    (api : API) : Except SelfCheckFailure API :=
  match parseReverse load order fuel api (startImporting api) with
  | .error failure => .error (.imports failure)
  | .ok (merged, _) => (merged.checkMerged printing).map fun _ => merged

end FastGoZero.Api
