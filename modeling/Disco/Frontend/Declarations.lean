import Disco.Frontend.Analyzer

/-! # Declarations and references

How `Analyzer` binds names: the declarations of a file are registered first, then
each function body is visited with a stack of scopes. Of an expression only the
names it refers to are kept, in the order in which they are analyzed.
-/

namespace Disco.Frontend

open IR Library Analyzer

/-! ## Syntax -/

inductive Linkage where
  | internal
  | external
  deriving DecidableEq, Repr

/-- The name that a declaration has for the linker. -/
def linkNameOf (linkage : Linkage) (name : String) : Name :=
  match linkage with
  | .internal => 1 :: nameOf name
  | .external => nameOf name

/-- A type as the parser builds it; the alignment of a struct is looked up later. -/
structure WrittenType where
  type : Ty
  unaligned : type.alignment = 0

structure VarDecl where
  name : String
  type : WrittenType
  initializer : List String := []
  isConstexpr : Bool := false

/-- Statements; a part that is missing evaluates nothing. -/
inductive Stmt where
  | evaluate (names : List String)
  | declare (declaration : VarDecl)
  | block (statements : List Stmt)
  | conditional (condition : List String) (yes no : Stmt)
  | whileLoop (condition : List String) (body : Stmt)
  | forLoop (initializer : Stmt) (condition : List String) (body : Stmt) (increment : List String)
  | hardwareLoop (body : Stmt)
  | switch (selector : List String) (statements : List Stmt)
  | plot (body : Stmt)

structure GlobalDecl where
  name : String
  linkage : Linkage := .external
  isExtern : Bool := false
  isConstexpr : Bool := false
  /-- A `const` scalar with an initializer can be used in constant expressions. -/
  isConstant : Bool := false

structure FunctionDecl where
  name : String
  linkage : Linkage := .external
  isPrototype : Bool := false
  params : List (String × WrittenType) := []
  body : List Stmt := []

inductive TopLevel where
  | alias (name : String)
  | enumeration (enumerators : List String)
  | rom (name : String) (linkage : Linkage) (isExtern : Bool)
  | global (declaration : GlobalDecl)
  | function (declaration : FunctionDecl)

/-! ## Names of a file -/

structure FunctionSymbol where
  linkName : Name
  linkage : Linkage
  hasDefinition : Bool

structure DataEntry where
  storage : AddressSpace
  linkName : Name
  isExtern : Bool
  id : Nat := 0

/-- Alignments are powers of two up to 128. -/
def IsAlignment (alignment : Int) : Prop := ∃ k ≤ 7, alignment = 2 ^ k

/-- The types of a file. -/
structure TypeNames where
  target : TargetKind := .gsu
  structs : List (String × StructSymbol) := []
  enums : List (String × PlainType) := []
  aligned : ∀ entry ∈ structs, IsAlignment entry.2.alignment := by simp

def TypeNames.env (types : TypeNames) : Env where
  target := types.target
  structs := types.structs
  enums := types.enums

structure FileNames where
  aliases : List String
  constants : List String := []
  functions : List (String × FunctionSymbol) := []
  entries : List (String × DataEntry) := []
  nextId : Nat := 1

namespace FileNames

def isFunction (file : FileNames) (name : String) : Bool := (file.functions.lookup name).isSome

def hasSymbol (file : FileNames) (name : String) : Bool := (file.entries.lookup name).isSome

def registerAlias (file : FileNames) (name : String) : Except String FileNames := do
  rejectIf (name ∈ file.aliases) "Type alias already declared or reserved."
  pure { file with aliases := name :: file.aliases }

/-- A constant expression can name this declaration. -/
def registerConstant (file : FileNames) (name message : String) : Except String FileNames := do
  rejectIf (name ∈ file.constants) message
  pure { file with constants := name :: file.constants }

def registerEnumerator (file : FileNames) (name : String) : Except String FileNames := do
  rejectIf (name ∈ file.aliases) "Enumerator name conflicts with a type alias."
  file.registerConstant name ("Duplicate compile-time constant '" ++ name ++ "'.")

def registerFunctionSymbol (file : FileNames) (declaration : FunctionDecl) : Except String FileNames := do
  rejectIf (declaration.name ∈ file.aliases) "Value name conflicts with a type alias."
  rejectIf (declaration.name ∈ file.constants) "Function name conflicts with a compile-time constant."
  rejectIf (declaration.linkage = .internal ∧ declaration.name = "main") "The main entry must have external linkage."
  rejectIf (∃ param ∈ declaration.params, param.1 ∈ file.aliases) "Parameter name conflicts with a type alias."
  match file.functions.lookup declaration.name with
  | none => pure { file with functions :=
      (declaration.name, ⟨linkNameOf declaration.linkage declaration.name, declaration.linkage,
        !declaration.isPrototype⟩) :: file.functions }
  | some existing => do
      rejectIf (existing.linkage ≠ declaration.linkage)
        ("Conflicting declaration of function '" ++ declaration.name ++ "'.")
      rejectIf (declaration.isPrototype = false ∧ existing.hasDefinition = true)
        ("Function '" ++ declaration.name ++ "' already has a definition.")
      pure { file with functions := (declaration.name, { existing with
        hasDefinition := existing.hasDefinition || !declaration.isPrototype }) :: file.functions }

def registerRomSymbol (file : FileNames) (name : String) (linkage : Linkage) (isExtern : Bool) :
    Except String FileNames := do
  rejectIf (name ∈ file.constants) "ROM storage conflicts with a compile-time constant."
  rejectIf (file.hasSymbol name = true ∨ file.isFunction name = true) ("ROM symbol '" ++ name ++ "' already declared.")
  pure { file with entries := (name, ⟨.rom, linkNameOf linkage name, isExtern, 0⟩) :: file.entries }

/-- Register a variable; `pending` are the constants among them. -/
def registerGlobalSymbol (pending : List String) (file : FileNames) (declaration : GlobalDecl) :
    Except String FileNames := do
  rejectIf (file.isFunction declaration.name = true ∨
      (declaration.name ∈ file.constants ∧ declaration.name ∉ pending))
    "Global name conflicts with a function or enumerator."
  if declaration.isConstexpr = true then
    pure file
  else do
    let linkName := linkNameOf declaration.linkage declaration.name
    match file.entries.lookup declaration.name with
    | none => pure { file with
        nextId := file.nextId + 1
        entries := (declaration.name, ⟨.ram, linkName, declaration.isExtern, file.nextId⟩) :: file.entries }
    | some existing => do
        rejectIf (existing.storage ≠ .ram ∨ (existing.isExtern = false ∧ declaration.isExtern = false))
          ("Duplicate global symbol '" ++ declaration.name ++ "'.")
        rejectIf (existing.linkName ≠ linkName) ("Conflicting global declaration '" ++ declaration.name ++ "'.")
        -- a definition replaces a declaration, not the other way around
        pure (if declaration.isExtern = true then file else { file with
          entries := (declaration.name, ⟨.ram, linkName, false, existing.id⟩) :: file.entries })

end FileNames

/-! ## Scopes -/

/-- A declared local. -/
structure LocalName where
  name : String
  symbol : LocalSymbol
  isParameter : Bool

inductive Binding where
  | slot (id : Nat)
  | constant
  | data (entry : DataEntry)

/-- A name in an expression and what it is bound to. -/
structure Reference where
  name : String
  symbolId : Nat
  binding : Binding

/-- The names of a function while its body is visited, innermost scope first. -/
structure Naming where
  nextId : Nat
  scopes : List (List (String × Nat)) := []
  locals : List (Nat × LocalName) := []
  constexprIds : List Nat := []
  offset : Int := 0
  references : List Reference := []

namespace Naming

def beginScope (n : Naming) : Naming := { n with scopes := [] :: n.scopes }

def endScope (n : Naming) : Naming := { n with scopes := n.scopes.tail }

def inScope (n : Naming) (name : String) : Bool := (n.scopes.headD []).any fun entry => entry.1 == name

/-- `visit(VariableExpr)` -/
def bind (file : FileNames) (n : Naming) (name : String) : Except String Reference :=
  match n.scopes.findSome? fun scope => scope.lookup name with
  | some id => .ok ⟨name, id, .slot id⟩
  | none =>
      match file.entries.lookup name with
      | some entry => .ok ⟨name, if name ∈ file.constants then 0 else entry.id, .data entry⟩
      | none =>
          if name ∈ file.constants then .ok ⟨name, 0, .constant⟩
          else if file.isFunction name = true then
            .error "Function pointers and inter-bank code calls are not supported yet."
          else .error ("Use of undeclared symbol '" ++ name ++ "'.")

def refer (file : FileNames) (n : Naming) (names : List String) : Except String Naming :=
  names.foldlM (fun n name => do
    let reference ← n.bind file name
    pure { n with references := n.references ++ [reference] }) n

/-- A new local in the innermost scope. -/
def add (n : Naming) (name : String) (type : Ty) (offset : Int) (isParameter : Bool) : Naming := { n with
  nextId := n.nextId + 1
  locals := (n.nextId, ⟨name, ⟨type, offset, n.nextId⟩, isParameter⟩) :: n.locals
  scopes := ((name, n.nextId) :: n.scopes.headD []) :: n.scopes.tail }

/-- The bytes that a local takes in the frame. -/
def allocation (type : Ty) : Except String Int :=
  if type.arraySize > 0 then do
    rejectIf (type.arraySize > (65536 : Int).tdiv type.sizeInBytes) "Array allocation exceeds the supported size limit."
    pure ((type.arraySize * type.sizeInBytes + 1).tdiv 2 * 2)
  else .ok ((type.sizeInBytes + 1).tdiv 2 * 2)

/-- `visit(VarDeclStmt)` -/
def declare (types : TypeNames) (file : FileNames) (n : Naming) (declaration : VarDecl) : Except String Naming := do
  rejectIf (declaration.name ∈ file.aliases) "Value name conflicts with a type alias."
  rejectIf (n.inScope declaration.name = true) ("Symbol '" ++ declaration.name ++ "' already declared in this scope.")
  rejectIf (file.hasSymbol declaration.name = true ∨ file.isFunction declaration.name = true)
    ("Symbol '" ++ declaration.name ++ "' already declared globally.")
  let type ← normalizeType types.env declaration.type.type
  let n ← n.refer file declaration.initializer
  let size ← allocation type
  let alignment ← typeAlignment types.env type
  let size := if declaration.isConstexpr = true then 0 else size + (max 2 alignment - 2)
  rejectIf (size > 65528 ∨ n.offset < -65528 + size) "Local stack frame exceeds the 16-bit GSU address space."
  let offset := n.offset - size
  pure { n.add declaration.name type offset false with
    offset := offset
    constexprIds := if declaration.isConstexpr = true then n.nextId :: n.constexprIds else n.constexprIds }

mutual

def visit (types : TypeNames) (file : FileNames) : Stmt → Naming → Except String Naming
  | .evaluate names, n => n.refer file names
  | .declare declaration, n => n.declare types file declaration
  | .block statements, n => do
      let n ← visitAll types file statements n.beginScope
      pure n.endScope
  | .conditional condition yes no, n => do
      let n ← n.refer file condition
      let n ← visit types file yes n
      visit types file no n
  | .whileLoop condition body, n => do
      let n ← n.refer file condition
      visit types file body n
  | .forLoop initializer condition body increment, n => do
      let n ← visit types file initializer n.beginScope
      let n ← n.refer file condition
      let n ← visit types file body n
      let n ← n.refer file increment
      pure n.endScope
  | .hardwareLoop body, n => do
      let n ← visit types file body n.beginScope
      pure n.endScope
  -- the statements of a switch share the scope around it
  | .switch selector statements, n => do
      let n ← n.refer file selector
      visitAll types file statements n
  | .plot body, n => visit types file body n

def visitAll (types : TypeNames) (file : FileNames) : List Stmt → Naming → Except String Naming
  | [], n => .ok n
  | statement :: rest, n => do
      let n ← visit types file statement n
      visitAll types file rest n

end

end Naming

/-! ## Functions -/

def firstParameterOffset : Int := 6

def parameterSlotSize : Int := 2

structure AnalyzedFunction where
  name : String
  locals : List (Nat × LocalName)
  references : List Reference

namespace FileNames

/-- The parameters, from the frame pointer upwards. -/
def visitParams (types : TypeNames) : List (String × WrittenType) → Int → Naming → Except String Naming
  | [], _, n => .ok n
  | (name, written) :: rest, offset, n => do
      rejectIf (n.inScope name = true) ("Duplicate parameter name '" ++ name ++ "'.")
      let type ← normalizeType types.env written.type
      let next := offset + if isFarPointer type = true then 4 else parameterSlotSize
      rejectIf (next > 65528) "Function parameter area exceeds one bank."
      visitParams types rest next (n.add name type offset true)

/-- `visit(FunctionDeclStmt)` -/
def visitFunction (types : TypeNames) (file : FileNames) (nextId : Nat) (declaration : FunctionDecl) :
    Except String (Nat × AnalyzedFunction) := do
  let n ← visitParams types declaration.params firstParameterOffset (Naming.beginScope { nextId := nextId })
  let n ← Naming.visit types file (.block declaration.body) n
  pure (n.nextId, ⟨declaration.name, n.locals, n.references⟩)

def visitFunctions (types : TypeNames) (file : FileNames) : Nat → List FunctionDecl →
    Except String (List AnalyzedFunction)
  | _, [] => .ok []
  | nextId, declaration :: rest => do
      let visited ← visitFunction types file nextId declaration
      let others ← visitFunctions types file visited.1 rest
      pure (visited.2 :: others)

end FileNames

/-! ## Files -/

def builtinTypeAliases : List String := ["u8", "i8", "u16", "i16"]

/-- A type alias makes its name unusable for values. -/
def TopLevel.valueName : TopLevel → Option String
  | .rom name _ _ => some name
  | .global declaration => some declaration.name
  | .function declaration => some declaration.name
  | _ => none

def aliasesOf (file : List TopLevel) : List String := file.filterMap fun
  | .alias name => some name
  | _ => none

def globalsOf (file : List TopLevel) : List GlobalDecl := file.filterMap fun
  | .global declaration => some declaration
  | _ => none

def functionsOf (file : List TopLevel) : List FunctionDecl := file.filterMap fun
  | .function declaration => some declaration
  | _ => none

def romsOf (file : List TopLevel) : List (String × Linkage × Bool) := file.filterMap fun
  | .rom name linkage isExtern => some (name, linkage, isExtern)
  | _ => none

def enumeratorsOf (file : List TopLevel) : List String := file.flatMap fun
  | .enumeration enumerators => enumerators
  | _ => []

/-- The constants among the variables of a file. -/
def pendingOf (file : List TopLevel) : List String :=
  ((globalsOf file).filter GlobalDecl.isConstant).map GlobalDecl.name

/-- What `Analyzer` knows of a file before it visits the functions. -/
def registerFile (file : List TopLevel) : Except String FileNames := do
  let names ← (aliasesOf file).foldlM FileNames.registerAlias { aliases := builtinTypeAliases }
  rejectIf (∃ declaration ∈ file, ∃ name ∈ declaration.valueName, name ∈ names.aliases)
    "Value name conflicts with a type alias."
  let names ← (pendingOf file).foldlM
    (fun names name => names.registerConstant name "Duplicate compile-time constant.") names
  let names ← (enumeratorsOf file).foldlM FileNames.registerEnumerator names
  let names ← (functionsOf file).foldlM FileNames.registerFunctionSymbol names
  let names ← (romsOf file).foldlM (fun names rom => names.registerRomSymbol rom.1 rom.2.1 rom.2.2) names
  (globalsOf file).foldlM (FileNames.registerGlobalSymbol (pendingOf file)) names

structure Analysis where
  names : FileNames
  functions : List AnalyzedFunction

/-- `Analyzer::analyze`, as far as names are concerned. -/
def analyzeFile (types : TypeNames) (file : List TopLevel) : Except String Analysis := do
  let names ← registerFile file
  let functions ← names.visitFunctions types names.nextId
    ((functionsOf file).filter fun declaration => !declaration.isPrototype)
  pure ⟨names, functions⟩

end Disco.Frontend
