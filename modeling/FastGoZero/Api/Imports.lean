import FastGoZero.Api.Convert
import FastGoZero.Lib.DepthFirst
import FastGoZero.Lib.GoMap

/-!
# Imported files

`parseImportedAPI` loads the files that an api imports and, through `parseReverse`, those that they
import, and `mergeAPI` puts their types and services into the importing api. A stack of paths
finds cycles, a set of paths keeps a file from being loaded twice. The paths are those of a
system whose separator is the slash.

How a path is loaded is left open here, and so is the order in which a loop over a map goes, which
may depend on all that has happened.
-/

namespace FastGoZero.Api

open Lib Lib.Str Lib.DepthFirst

/-- The error of `Push` comes with the position of the import, that of `mergeAPI` with the position
of the imported syntax and both values. -/
inductive ImportFailure where
  | load (path : Str) (failure : LoadFailure)
  | importCycle (position : Position)
  | multipleSyntaxValue (position : Position) (expected got : Str)
  | outOfFuel
deriving DecidableEq

/-- The import stack and the import set, in the order of the insertions. -/
abbrev Importing := Progress Str

def ImportStmt.values : ImportStmt → List TokenNode
  | .literal _ value => [value]
  | .group _ _ values _ => values

def importText (value : TokenNode) : Str := value.token.text.filter (· != 34)

/-- The import values of a file, each with the last token that has it. -/
def importValueSet (imports : List ImportStmt) : GoMap Str Token :=
  (imports.flatMap ImportStmt.values).foldl
    (fun set value => set.insert (importText value) value.token) ∅

def importPath (dir impPath : Str) : Str :=
  if impPath.head? = some FilePath.slash then impPath else FilePath.join [dir, impPath]

def API.syntaxValue (api : API) : Str := api.syntaxStmt.value.format

def mergeAPI (api imported : API) : Except ImportFailure API :=
  if api.syntaxValue ≠ imported.syntaxValue then
    .error (.multipleSyntaxValue imported.syntaxStmt.value.pos api.syntaxValue imported.syntaxValue)
  else .ok { api with
    typeStmt := api.typeStmt ++ imported.typeStmt
    serviceStmts := api.serviceStmts ++ imported.serviceStmts }

section

variable (load : Str → Except LoadFailure API)
  (order : Importing → GoMap.RangeOrder Str Token)

/-- The loop of `parseImportedAPI` over the import values. -/
def parseImports (reverse : API → Importing → Except ImportFailure (API × Importing)) (dir : Str) :
    List (Str × Token) → Importing → Except ImportFailure (List API × Importing)
  | [], s => .ok ([], s)
  | (impPath, tok) :: rest, s =>
    let path := importPath dir impPath
    if s.stack.contains path then .error (.importCycle tok.position)
    else if s.seen.contains path then parseImports reverse dir rest s
    else
      match load path with
      | .error failure => .error (.load path failure)
      | .ok nested => do
        let (nested, s) ← reverse nested (s.enter path)
        let (list, s) ← parseImports reverse dir rest s.leave
        pure (nested :: list, s)

/-- The files are imported no deeper than there are files. -/
def parseReverse : Nat → API → Importing → Except ImportFailure (API × Importing)
  | 0, _, _ => .error .outOfFuel
  | fuel + 1, api, s => do
    let values := (importValueSet api.importStmt).range (order s)
    let (list, s) ← parseImports load (parseReverse fuel) (FilePath.dir api.filename) values s
    let api ← list.foldlM mergeAPI api
    pure (api, s)

end

variable (files : Str → Option Str)

/-- What `readData` gives for an absolute path without a source: the content of the file, if there
is one and its name ends in `.api`. -/
def readData (path : Str) : Str :=
  if (bytes ".api").isSuffixOf path then (files path).getD [] else []

/-- `New`, `Parse`, `CheckErrors` and `convert2API` for an absolute path. -/
def loadFile (path : Str) : Except LoadFailure API :=
  (Parser.parseFile (FilePath.clean path) (readData files path)).load

def startImporting (root : API) : Importing := ⟨[root.filename], []⟩

def contents (files : List (String × String)) (path : Str) : Option Str :=
  (files.find? fun entry => bytes entry.1 == path).map fun entry => bytes entry.2

def storedOrder {K V : Type} : GoMap.RangeOrder K V := ⟨id, List.Perm.refl⟩

def loadRoot (path : Str) : API :=
  match loadFile files path with
  | .ok api => api
  | .error _ => { filename := path, syntaxStmt := defaultSyntax }

end FastGoZero.Api
