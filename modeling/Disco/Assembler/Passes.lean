import Disco.Assembler.Encode

/-! # The assembler

Two passes over the parsed lines with branch relaxation between them: the
first pass assigns offsets to labels, relaxation repeats it until every short
branch reaches its label, and the second pass emits bytes, relocations and the
displacements that are filled in last.
-/

namespace Disco.Assembler

open Library Linker

/-! ## First pass -/

structure SymbolDefinition where
  sect : SymbolSection
  offset : Nat
  deriving DecidableEq, Repr

/-- What the first pass knows: labels, code offsets by line, and how far each
section has grown. -/
structure FirstPass where
  symbols : List (Text × SymbolDefinition) := []
  codeOffsets : List (Nat × Nat) := []
  exports : List Text := []
  code : Nat := 0
  data : Nat := 0
  ram : Nat := 0
  deriving DecidableEq, Repr

namespace FirstPass

def lookup (pass : FirstPass) (name : Text) : Option SymbolDefinition :=
  (pass.symbols.find? fun entry => entry.1 = name).map (·.2)

def codeOffset (pass : FirstPass) (lineNumber : Nat) : Option Nat :=
  (pass.codeOffsets.find? fun entry => entry.1 = lineNumber).map (·.2)

def currentOffset (pass : FirstPass) : Section → Nat
  | .code => pass.code
  | .data => pass.data
  | _ => pass.ram

def advance (pass : FirstPass) (size : Nat) : Section → FirstPass
  | .code => { pass with code := pass.code + size }
  | .data => { pass with data := pass.data + size }
  | _ => { pass with ram := pass.ram + size }

end FirstPass

/-- Lines that emit nothing. -/
def isDirective (operation : Text) : Bool :=
  operation = [] ∨ operation = nameOf ".segment" ∨ operation = nameOf ".export" ∨
    operation = nameOf ".setcpu" ∨ operation = nameOf ".include" ∨ operation = nameOf ".define"

/-- The bytes of one value of a data directive. -/
def dataWidth (operation : Text) : Option Nat :=
  if operation = nameOf ".byte" then some 1 else if operation = nameOf ".word" then some 2 else none

def requireSection (line : ParsedLine) : Except Failure Unit :=
  failIf (line.sect = .none) "statement appears before a .segment directive." line.lineNumber

def defineLabel (line : ParsedLine) (pass : FirstPass) : Except Failure FirstPass :=
  if line.label = [] then .ok pass
  else do
    requireSection line
    failIf ((pass.lookup line.label).isSome = true)
      ("duplicate label '" ++ nameText line.label ++ "'.") line.lineNumber
    .ok { pass with symbols := pass.symbols ++
      [(line.label, ⟨symbolSection line.sect, pass.currentOffset line.sect⟩)] }

/-- The size of a line, before its operands are known. -/
def lineSize (relaxed : List Nat) (line : ParsedLine) : Except Failure Nat :=
  match dataWidth line.operation with
  | some width => do
      failIf (line.operands = []) (nameText line.operation ++ " expects at least one value.")
        line.lineNumber
      .ok (line.operands.length * width)
  | none => do
      failIf (line.sect = .ram) "RAM initial images contain data directives, not instructions."
        line.lineNumber
      let encoded ← encodeInstruction relaxed line 0
      .ok encoded.size

def firstPassLine (relaxed : List Nat) (pass : FirstPass) (line : ParsedLine) :
    Except Failure FirstPass := do
  let pass ← defineLabel line pass
  if isDirective line.operation then
    if line.operation = nameOf ".export" then do
      checkAll (fun operand => failIf (isIdentifier operand = false)
        ("invalid export name '" ++ nameText operand ++ "'.") line.lineNumber) line.operands
      .ok { pass with exports := pass.exports ++ line.operands }
    else .ok pass
  else do
    requireSection line
    let pass := if line.sect = .code then
        { pass with codeOffsets := pass.codeOffsets ++ [(line.lineNumber, pass.code)] }
      else pass
    let size ← lineSize relaxed line
    .ok (pass.advance size line.sect)

def firstPass (relaxed : List Nat) (lines : List ParsedLine) : Except Failure FirstPass := do
  let pass ← foldAll (firstPassLine relaxed) {} lines
  failIf (pass.ram > 65536) "RAM initial image exceeds one bank." 1
  .ok pass

/-! ## Relaxation -/

/-- The displacement of a short branch from the byte behind it. -/
def branchDistance (target source : Nat) : Int := (target : Int) - ((source : Int) + 2)

def outOfRange (distance : Int) : Prop := distance < -128 ∨ distance > 127

instance (distance : Int) : Decidable (outOfRange distance) := inferInstanceAs (Decidable (_ ∨ _))

/-- A branch that may still be relaxed. -/
def isShortBranch (relaxed : List Nat) (line : ParsedLine) : Prop :=
  line.sect = .code ∧ (branchOpcode line.operation).isSome = true ∧ line.operands.length = 1 ∧
    line.lineNumber ∉ relaxed

instance (relaxed : List Nat) (line : ParsedLine) : Decidable (isShortBranch relaxed line) :=
  inferInstanceAs (Decidable (_ ∧ _ ∧ _ ∧ _))

/-- Relax a branch whose label is out of reach. -/
def relaxLine (pass : FirstPass) (relaxed : List Nat) (line : ParsedLine) :
    Except Failure (List Nat) :=
  if isShortBranch relaxed line then
    match pass.lookup (line.operand 0), pass.codeOffset line.lineNumber with
    | none, _ => fail ("undefined branch label '" ++ nameText (line.operand 0) ++ "'.")
        line.lineNumber
    | some symbol, source => do
        failIf (symbol.sect ≠ .code) "branch target must be in the code section." line.lineNumber
        match source with
        | none => .error (.runtime "map::at")
        | some source =>
            .ok (if outOfRange (branchDistance symbol.offset source) then
                relaxed ++ [line.lineNumber]
              else relaxed)
  else .ok relaxed

/-- The branches relaxed so far and the offsets they lead to. -/
structure Relaxation where
  relaxed : List Nat := []
  pass : FirstPass
  deriving DecidableEq, Repr

/-- One round over all branches. Labels are recomputed after every expansion,
since it can move a later target out of reach. -/
def relaxRound (lines : List ParsedLine) (state : Relaxation) :
    Except Failure (Option Relaxation) := do
  let relaxed ← foldAll (relaxLine state.pass) state.relaxed lines
  if relaxed = state.relaxed then .ok none
  else do
    let pass ← firstPass relaxed lines
    .ok (some ⟨relaxed, pass⟩)

/-- A run that does not produce an object. -/
inductive Stop where
  | failed (failure : Failure)
  /-- The relaxation loop is still running after one round per line. -/
  | unending
  deriving DecidableEq, Repr

def relaxBranches (lines : List ParsedLine) (state : Relaxation) : Except Stop Relaxation :=
  loop (fun state => (relaxRound lines state).mapError .failed) .unending (lines.length + 1) state

/-! ## Second pass -/

/-- The object under construction and the displacements left open. -/
structure Emitted where
  object : ObjectFile := {}
  fixups : List BranchFixup := []
  deriving DecidableEq, Repr

namespace Emitted

def output (emitted : Emitted) (sect : Section) : Bytes :=
  emitted.object.sectionBytes (symbolSection sect)

def emit (emitted : Emitted) (sect : Section) (encoded : Encoded) : Emitted where
  object :=
    let table := emitted.object.relocationTable ++ encoded.relocations
    match symbolSection sect with
    | .code => { emitted.object with
        codeSection := emitted.object.codeSection ++ encoded.bytes, relocationTable := table }
    | .data => { emitted.object with
        dataSection := emitted.object.dataSection ++ encoded.bytes, relocationTable := table }
    | .ram => { emitted.object with
        ramSection := emitted.object.ramSection ++ encoded.bytes, relocationTable := table }
  fixups := emitted.fixups ++ encoded.fixups

end Emitted

/-- One value of a data directive. -/
def encodeValue (width : Nat) (line : ParsedLine) (operand : Text) : Except Failure Bytes :=
  match parseNumber operand with
  | none => fail "data values must be numeric." line.lineNumber
  | some value =>
      if width = 1 then do
        failIf (value < 0 ∨ value > 255) ".byte value is outside 0..255." line.lineNumber
        .ok [byteOf value.toNat]
      else do
        failIf (value < -32768 ∨ value > 65535) ".word value is outside 16-bit range."
          line.lineNumber
        .ok (wordBytes (wordBits value))

def encodeData (width : Nat) (line : ParsedLine) : Except Failure Bytes :=
  foldAll (fun bytes operand => do
    let value ← encodeValue width line operand
    .ok (bytes ++ value)) [] line.operands

/-- The encoding of a line that emits bytes. -/
def encodeLine (relaxed : List Nat) (line : ParsedLine) (patch : Nat) : Except Failure Encoded :=
  match dataWidth line.operation with
  | some width => do
      let bytes ← encodeData width line
      .ok { size := line.operands.length * width, bytes := bytes }
  | none => encodeInstruction relaxed line patch

def secondPassLine (relaxed : List Nat) (emitted : Emitted) (line : ParsedLine) :
    Except Failure Emitted :=
  if isDirective line.operation then .ok emitted
  else do
    requireSection line
    let encoded ← encodeLine relaxed line (emitted.output line.sect).length
    .ok (emitted.emit line.sect encoded)

/-- The object before any line is emitted. -/
def emptyObject (settings : Settings) : ObjectFile where
  config := settings.config
  dataAlignment := settings.dataAlignment
  ramAlignment := settings.ramAlignment
  symbolTable := if settings.cacheAlignment then [⟨cacheAlignmentSymbol, .code, 0⟩] else []

def secondPass (settings : Settings) (relaxed : List Nat) (lines : List ParsedLine) :
    Except Failure Emitted :=
  foldAll (secondPassLine relaxed) { object := emptyObject settings } lines

/-! ## Labels -/

/-- Fill in one short displacement. -/
def resolveFixup (pass : FirstPass) (code : Bytes) (fixup : BranchFixup) : Except Failure Bytes :=
  match pass.lookup fixup.target with
  | none => fail ("undefined branch label '" ++ nameText fixup.target ++ "'.") fixup.lineNumber
  | some symbol => do
      failIf (symbol.sect ≠ .code) "branch target must be in the code section." fixup.lineNumber
      let distance : Int := symbol.offset - ((fixup.patchOffset : Int) + 1)
      failIf (outOfRange distance) "branch target is out of range [-128, 127]." fixup.lineNumber
      rejectIf (fixup.patchOffset ≥ code.length) (Failure.runtime "vector::at")
      .ok (code.set fixup.patchOffset (UInt8.ofInt distance))

def resolveBranches (pass : FirstPass) (emitted : Emitted) : Except Failure ObjectFile := do
  let code ← foldAll (resolveFixup pass) emitted.object.codeSection emitted.fixups
  .ok { emitted.object with codeSection := code }

/-- Private symbols, and the names they stand for. -/
structure Internal where
  added : List Text := []
  symbolTable : List SymbolEntry
  relocationTable : List RelocationEntry := []

def Internal.add (state : Internal) (name : Text) (sect : SymbolSection) (offset : Nat) : Internal :=
  if name ∈ state.added then state
  else { state with
    added := state.added ++ [name]
    symbolTable := state.symbolTable ++ [⟨internalName name, sect, UInt32.ofNat offset⟩] }

/-- An absolute reference to a label that is not exported stays private. -/
def internalizeRelocation (pass : FirstPass) (state : Internal) (relocation : RelocationEntry) :
    Internal :=
  match pass.lookup relocation.targetSymbolName with
  | none => { state with relocationTable := state.relocationTable ++ [relocation] }
  | some symbol =>
      if relocation.targetSymbolName ∈ pass.exports then
        { state with relocationTable := state.relocationTable ++ [relocation] }
      else
        let name := relocation.targetSymbolName
        let state := state.add name symbol.sect symbol.offset
        { state with relocationTable := state.relocationTable ++
          [{ relocation with targetSymbolName := internalName name }] }

/-- The target of a relaxed branch gets a private symbol. -/
def internalizeBranch (pass : FirstPass) (relaxed : List Nat) (state : Internal)
    (line : ParsedLine) : Internal :=
  if line.lineNumber ∈ relaxed then
    match pass.lookup (line.operand 0) with
    | none => state
    | some symbol => state.add (line.operand 0) .code symbol.offset
  else state

def addInternalSymbols (pass : FirstPass) (relaxed : List Nat) (lines : List ParsedLine)
    (object : ObjectFile) : ObjectFile :=
  let state : Internal := { symbolTable := object.symbolTable }
  let state := object.relocationTable.foldl (internalizeRelocation pass) state
  let state := lines.foldl (internalizeBranch pass relaxed) state
  { object with symbolTable := state.symbolTable, relocationTable := state.relocationTable }

/-- The exported names in the order of their bytes. -/
def exportNames (pass : FirstPass) : List Text := pass.exports.dedup.insertionSort (· ≤ ·)

def exportSymbol (pass : FirstPass) (table : List SymbolEntry) (name : Text) :
    Except Failure (List SymbolEntry) :=
  match pass.lookup name with
  | none => fail ("exported symbol '" ++ nameText name ++ "' is not defined.") 1
  | some symbol => .ok (table ++ [⟨name, symbol.sect, UInt32.ofNat symbol.offset⟩])

def addExportedSymbols (pass : FirstPass) (object : ObjectFile) : Except Failure ObjectFile := do
  let table ← foldAll (exportSymbol pass) object.symbolTable (exportNames pass)
  .ok { object with symbolTable := table }

/-! ## A whole run -/

/-- Everything an assembler run computes on its way to the object. -/
structure Assembly where
  parsed : Parsed
  relaxation : Relaxation
  emitted : Emitted
  object : ObjectFile

/-- Parsing and the checks on the configuration. -/
def prepare (source : Text) : Except Failure (Parsed × FirstPass) := do
  let parsed ← parse source
  let bitmap := parsed.settings.config.bitmap
  failIf (bitmap.enabled = true ∧ (bitmapScbr ∉ parsed.settings.configDefinitions ∨
      bitmapScmr ∉ parsed.settings.configDefinitions))
    "Bitmap metadata requires both SCBR and SCMR definitions." 1
  bitmap.validate.mapError .runtime
  let pass ← firstPass [] parsed.lines
  .ok (parsed, pass)

/-- Everything after relaxation. -/
def finish (parsed : Parsed) (relaxation : Relaxation) : Except Failure Assembly := do
  let emitted ← secondPass parsed.settings relaxation.relaxed parsed.lines
  let object ← resolveBranches relaxation.pass emitted
  let object := addInternalSymbols relaxation.pass relaxation.relaxed parsed.lines object
  let object ← addExportedSymbols relaxation.pass object
  .ok ⟨parsed, relaxation, emitted, object⟩

def runAssembler (source : Text) : Except Stop Assembly := do
  let (parsed, pass) ← (prepare source).mapError .failed
  let relaxation ← relaxBranches parsed.lines ⟨[], pass⟩
  (finish parsed relaxation).mapError .failed

def assemble (source : Text) : Except Stop ObjectFile := do
  let assembly ← runAssembler source
  .ok assembly.object

end Disco.Assembler
