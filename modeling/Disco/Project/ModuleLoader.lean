import Disco.Project.Paths
import Disco.Library.Loop
import Disco.IR.Types

/-! # The module loader

`ModuleLoader`: source files are discovered along their imports, each file once, and
handed to the compiler in dependency order. The lexer, the parser and the projection of
declarations to their public interface are parameters, as is the file system. Positions
of diagnostics are left out.
-/

namespace Disco.Project

open Library IR

/-! ## What is loaded -/

structure TypeAliasBinding where
  type : Ty
  name : String
  sourcePath : Path := []
  line : Nat := 0
  column : Nat := 0

abbrev TypeAliasTable := List (String × TypeAliasBinding)

def maxTypeAliases : Nat := 4096

def builtinTypeAliases : TypeAliasTable :=
  let builtin name base size isUnsigned : String × TypeAliasBinding :=
    (name, { type := { base := base, sizeInBytes := size, isUnsigned := isUnsigned, space := .ram }, name := name })
  [builtin "u8" .byte 1 true, builtin "i8" .byte 1 false, builtin "u16" .word 2 true, builtin "i16" .word 2 false]

structure Preamble where
  moduleName : String
  imports : List Path

/-- The parts of the compiler that the loader calls. -/
structure Frontend (Source Decl : Type) where
  parsePreamble : Source → Except String Preamble
  parseProgram : Source → TypeAliasTable → Except String (List Decl)
  interfaceDeclaration : Decl → Bool
  typeAlias : Decl → Option TypeAliasBinding
  moduleInterface : Decl → Bool → Except String (Option Decl)
  isImported : Decl → Bool

structure LoadedModule (Decl : Type) where
  declarations : List Decl
  sourcePaths : List Path

structure ModuleNode where
  path : Path
  isInterface : Bool
  dependencies : List Nat

structure Record (Decl : Type) where
  declarations : List Decl := []
  exports : List Decl := []
  aliases : List Nat := []
  loaded : Bool := false
  taken : Bool := false
  completed : Bool := false

structure ModuleLoader (Decl : Type) where
  totalBytes : Int := 0
  importPaths : List Path := []
  graph : List ModuleNode := []
  records : List (Record Decl) := []
  active : List Nat := []
  order : List Nat := []
  moduleNames : List String := []
  aliasBindings : List TypeAliasBinding := []

/-- An element that must be there. -/
def elementAt {α : Type} (list : List α) (index : Nat) : Except Failure α :=
  match list[index]? with
  | some a => .ok a
  | none => .error .outOfRange

/-- A diagnostic of the lexer or the parser. -/
def diagnosed {α : Type} : Except String α → Except Failure α
  | .ok a => .ok a
  | .error message => .error (.diagnostic message)

def isInterface (path : Path) : Bool := ".dci".toList.isSuffixOf path

def insertAlias (index : Nat) : List Nat → List Nat
  | [] => [index]
  | other :: rest =>
      if index < other then index :: other :: rest
      else if index = other then other :: rest
      else other :: insertAlias index rest

/-- `Parser::addImportedAlias`. -/
def addImportedAlias (table : TypeAliasTable) (binding : TypeAliasBinding) : Except Failure TypeAliasTable :=
  match table.lookup binding.name with
  | some original =>
      if original.sourcePath ≠ binding.sourcePath ∨ original.line ≠ binding.line ∨ original.column ≠ binding.column
      then .error (.diagnostic ("Conflicting type alias '" ++ binding.name ++ "'."))
      else .ok table
  | none =>
      if table.length ≥ maxTypeAliases then .error (.diagnostic "Type alias count exceeds the supported limit of 4096.")
      else .ok (table ++ [(binding.name, binding)])

section Loader

variable {Source Decl : Type} (system : FileSystem Source) (frontend : Frontend Source Decl)

/-- Two names of one file. -/
def sameFile (left right : Path) : Bool := left == right || system.sameExistingFile left right

def findFile (s : ModuleLoader Decl) (path : Path) : Option Nat :=
  s.graph.findIdx? fun node => sameFile system path node.path

/-! ## Discovery -/

/-- The first directory with something of that name decides. -/
def resolveIn (lexeme : Path) : List Path → Except Failure Path
  | [] => .error (.diagnostic ("Cannot open module interface/source: " ++ String.ofList lexeme ++
      " (searched the importing directory and configured import paths)."))
  | directory :: rest => do
      let path ← absolutePath system lexeme directory
      match system.stat path with
      | some true => pure path
      | some false => .error (.diagnostic ("Imported module must be a regular file: " ++ String.ofList path))
      | none => resolveIn lexeme rest

def resolveImport (importPaths : List Path) (owner lexeme : Path) : Except Failure Path := do
  let directory ← parentPath system owner
  resolveIn system lexeme (directory :: importPaths)

def maxFileBytes : Int := 16 * 1024 * 1024

def maxTotalBytes : Int := 32 * 1024 * 1024

/-- The source of a file, and the bytes read so far. -/
def readFile (totalBytes : Int) (path : Path) : Except Failure (Source × Int) := do
  rejectIf (system.stat path = some false) (Failure.diagnostic ("Module must be a regular file: " ++ String.ofList path))
  match system.size path with
  | none => .error (.diagnostic ("Cannot open module interface/source: " ++ String.ofList path))
  | some size =>
      rejectIf (size < 0 ∨ size > maxFileBytes ∨ size > maxTotalBytes - totalBytes)
        (Failure.diagnostic "Module source exceeds per-file/total byte limit.")
      match system.read path with
      | none => .error (.diagnostic "Truncated module source.")
      | some source => pure (source, totalBytes + size)

/-- What has been found out about a module while its imports are followed. -/
structure Reading (Decl : Type) where
  aliases : List Nat
  table : TypeAliasTable
  loader : ModuleLoader Decl

def importAlias (r : Reading Decl) (index : Nat) : Except Failure (Reading Decl) := do
  let binding ← elementAt r.loader.aliasBindings index
  let table ← addImportedAlias r.table binding
  pure { r with table := table, aliases := insertAlias index r.aliases }

/-- An edge, unless it is there already. -/
def addDependency (dependency : Nat) (node : ModuleNode) : ModuleNode :=
  if dependency ∈ node.dependencies then node else { node with dependencies := node.dependencies ++ [dependency] }

/-- A recursive call: the loader so far, the path of the file and whether it is an interface. -/
abbrev Load (Decl : Type) := ModuleLoader Decl → Path → Bool → Except Failure (Nat × ModuleLoader Decl)

def importModule (load : Load Decl) (path : Path) (id : Nat) (r : Reading Decl) (lexeme : Path) : Except Failure (Reading Decl) := do
  let dependency ← resolveImport system r.loader.importPaths path lexeme
  let (dependencyId, s) ← load r.loader dependency (isInterface dependency)
  let _ ← elementAt s.graph id
  let s := { s with graph := s.graph.modify id (addDependency dependencyId) }
  let record ← elementAt s.records dependencyId
  foldAll importAlias { r with loader := s } record.aliases

/-- The aliases of a module's own declarations; an interface declares only what it may. -/
def declare (interface : Bool) (s : List Nat × List TypeAliasBinding) (declaration : Decl) :
    Except Failure (List Nat × List TypeAliasBinding) := do
  rejectIf (interface = true ∧ frontend.interfaceDeclaration declaration = false) (Failure.diagnostic
    "Interfaces allow types/aliases, constexpr, assertions, prototypes and extern storage only.")
  match frontend.typeAlias declaration with
  | none => pure s
  | some binding => do
      rejectIf (s.2.length ≥ maxTypeAliases) (Failure.diagnostic "Compilation type alias count exceeds 4096.")
      pure (insertAlias s.2.length s.1, s.2 ++ [binding])

/-- A module that is on the way. -/
def begin (s : ModuleLoader Decl) (path : Path) (interface : Bool) : ModuleLoader Decl :=
  { s with
    graph := s.graph ++ [⟨path, interface, []⟩]
    records := s.records ++ [{}]
    active := s.active ++ [s.graph.length] }

/-- A module whose imports are loaded. -/
def finish (s : ModuleLoader Decl) (id : Nat) (declarations : List Decl) (aliases : List Nat)
    (bindings : List TypeAliasBinding) : ModuleLoader Decl :=
  { s with
    records := s.records.modify id fun record => { record with declarations := declarations, aliases := aliases, loaded := true }
    active := s.active.dropLast
    order := s.order ++ [id]
    aliasBindings := bindings }

def nameModule (s : ModuleLoader Decl) (interface : Bool) (name : String) : Except Failure (ModuleLoader Decl) :=
  if interface = true then do
    rejectIf (name = "") (Failure.diagnostic "An interface requires a module declaration.")
    rejectIf (name ∈ s.moduleNames) (Failure.diagnostic ("Duplicate module name '" ++ name ++ "'."))
    pure { s with moduleNames := s.moduleNames ++ [name] }
  else .ok s

/-- A file that is not in the graph. -/
def enter (load : Load Decl) : Load Decl := fun s path interface => do
  rejectIf (s.active.length ≥ 32 ∨ s.graph.length ≥ 128) (Failure.diagnostic "Module import depth/count limit exceeded.")
  let id := s.graph.length
  let (source, totalBytes) ← readFile system s.totalBytes path
  let preamble ← diagnosed (frontend.parsePreamble source)
  let s ← nameModule { begin s path interface with totalBytes := totalBytes } interface preamble.moduleName
  let r ← foldAll (importModule system load path id) ⟨[], builtinTypeAliases, s⟩ preamble.imports
  let declarations ← diagnosed (frontend.parseProgram source r.table)
  let own ← foldAll (declare frontend interface) (r.aliases, r.loader.aliasBindings) declarations
  let _ ← elementAt r.loader.records id
  pure (id, finish r.loader id declarations own.1 own.2)

/-- `loadFile`, so many modules deep. -/
def loadFile : Nat → Load Decl
  | 0 => fun _ _ _ => .error .unfinished
  | depth + 1 => fun s path interface =>
      match findFile system s path with
      | none => enter system frontend (loadFile depth) s path interface
      | some id => do
          let node ← elementAt s.graph id
          rejectIf (node.isInterface ≠ interface) (Failure.diagnostic "A file cannot be imported as both source and interface.")
          if id ∈ s.active then
            .error (.cyclic interface (s.active.filterMap (fun id => s.graph[id]?.map ModuleNode.path) ++ [node.path]))
          else do
            let record ← elementAt s.records id
            if record.loaded = true then pure (id, s) else enter system frontend (loadFile depth) s path interface

def loadRoot (s : ModuleLoader Decl) (root : Path) : Except Failure (ModuleLoader Decl) := do
  let path ← absolutePath system root []
  let (_, s) ← loadFile system frontend 33 s path (isInterface path)
  pure s

def importDirectory (directories : List Path) (directory : Path) : Except Failure (List Path) := do
  let path ← absolutePath system directory []
  pure (directories ++ [path])

def discover (roots importPaths : List Path) : Except Failure (ModuleLoader Decl) := do
  rejectIf (roots = [] ∨ roots.length > 128) (Failure.diagnostic "Module root count exceeds 128 or is empty.")
  rejectIf (importPaths.length > 64) (Failure.diagnostic "Import path count exceeds 64.")
  let directories ← foldAll (importDirectory system) [] importPaths
  foldAll (loadRoot system frontend) { importPaths := directories } roots

/-- The loader after `prepare`, and how it ended. All that was loaded before is cleared
first, and what was loaded is cleared again on a failure. -/
def prepare (roots importPaths : List Path) : ModuleLoader Decl × Except Failure Unit :=
  match discover system frontend roots importPaths with
  | .ok s => (s, .ok ())
  | .error e => ({}, .error e)

/-! ## Transfer -/

/-- Dependencies before what depends on them, each once. -/
def gather (graph : List ModuleNode) : Nat → List Nat × List Nat → Nat → Except Failure (List Nat × List Nat)
  | 0, _, _ => .error .unfinished
  | depth + 1, (visited, order), id =>
      if id ∈ visited then .ok (visited, order)
      else do
        let node ← elementAt graph id
        let s ← foldAll (gather graph depth) (visited ++ [id], order) node.dependencies
        pure (s.1, s.2 ++ [id])

/-- The interfaces of declarations. -/
def interfaces (isInterface : Bool) : List Decl → Except Failure (List Decl)
  | [] => .ok []
  | declaration :: rest => do
      let api ← diagnosed (frontend.moduleInterface declaration isInterface)
      let others ← interfaces isInterface rest
      pure (api.toList ++ others)

/-- What a module sees of its dependencies. -/
def transfer (s : ModuleLoader Decl) (id : Nat) (loaded : LoadedModule Decl) (dependency : Nat) : Except Failure (LoadedModule Decl) := do
  let node ← elementAt s.graph dependency
  let loaded := { loaded with sourcePaths := loaded.sourcePaths ++ [node.path] }
  if dependency = id then pure loaded
  else do
    let record ← elementAt s.records dependency
    rejectIf (record.completed = false) (Failure.protocol "Module dependencies must be analyzed before their importer.")
    let api ← interfaces frontend node.isInterface record.exports
    pure { loaded with declarations := loaded.declarations ++ api }

/-- A module whose declarations have been handed over. -/
def markTaken (s : ModuleLoader Decl) (id : Nat) : ModuleLoader Decl :=
  { s with records := s.records.modify id fun record => { record with declarations := [], taken := true } }

def take (s : ModuleLoader Decl) (path : Path) : Except Failure (LoadedModule Decl × ModuleLoader Decl) := do
  let absolute ← absolutePath system path []
  match findFile system s absolute with
  | none => .error (.protocol "Module AST must be transferred exactly once after discovery.")
  | some id => do
      let record ← elementAt s.records id
      rejectIf (record.loaded = false ∨ record.taken = true)
        (Failure.protocol "Module AST must be transferred exactly once after discovery.")
      let order ← gather s.graph (s.graph.length + 1) ([], []) id
      let loaded ← foldAll (transfer frontend s id) ⟨[], []⟩ order.2
      pure ({ loaded with declarations := loaded.declarations ++ record.declarations }, markTaken s id)

def complete (s : ModuleLoader Decl) (path : Path) (program : List Decl) : Except Failure (ModuleLoader Decl) := do
  let absolute ← absolutePath system path []
  match findFile system s absolute with
  | none => .error (.protocol "A transferred module must be published exactly once after analysis.")
  | some id => do
      let record ← elementAt s.records id
      rejectIf (record.taken = false ∨ record.completed = true)
        (Failure.protocol "A transferred module must be published exactly once after analysis.")
      let node ← elementAt s.graph id
      let exports ← interfaces frontend node.isInterface (program.filter fun declaration => !frontend.isImported declaration)
      pure { s with records := s.records.modify id fun record => { record with exports := exports, completed := true } }

/-- A client that takes a module, analyzes it and completes it; what it published is noted. -/
def serve (analyze : Path → LoadedModule Decl → List Decl) (s : ModuleLoader Decl × List (Path × List Decl)) (path : Path) :
    Except Failure (ModuleLoader Decl × List (Path × List Decl)) := do
  let (loaded, taken) ← take system frontend s.1 path
  let completed ← complete system frontend taken path (analyze path loaded)
  pure (completed, s.2 ++ [(path, analyze path loaded)])

/-- The paths of the modules, dependencies first. -/
def analysisOrder (s : ModuleLoader Decl) : List Path := s.order.filterMap fun id => s.graph[id]?.map ModuleNode.path

def implementationOrder (s : ModuleLoader Decl) : List Path :=
  s.order.filterMap fun id => (s.graph[id]?.filter fun node => !node.isInterface).map ModuleNode.path

def sourcePaths (s : ModuleLoader Decl) : List Path := s.graph.map ModuleNode.path

end Loader

end Disco.Project
