import Disco.Linker.Options
import Disco.Library.Placement
import Disco.Object.Serialize
import Disco.Object.Valid
import Disco.Target.MemoryMap
import Disco.Target.RuntimeInitialization

/-! # Linker layout

The first phases of a link: load the inputs, merge their configuration, place
static RAM, then lay out CODE and DATA while defining public symbols. Section
bases are recomputed by the later phases on their own, as the source does.
-/

namespace Disco.Linker

open Library

/-! ## Reserved names -/

def stackLimitPrefix : Name := nameOf "__disco_stack_limit_"
def nearRamBankSymbol : Name := nameOf "__disco_near_ram_bank"
def nearRomBankSymbol : Name := nameOf "__disco_near_rom_bank"
def immutablePoolPrefix : Name := 1 :: nameOf "__disco_pool_"

/-- Private names are visible in their own object only. -/
def isPrivate (name : Name) : Bool := name.head? = some 1

def isReserved (name : Name) : Bool :=
  name = nearRamBankSymbol ∨ name = nearRomBankSymbol ∨ stackLimitPrefix.isPrefixOf name

def checkedAddress (value : Nat) (what : String) : Except String Nat := do
  rejectIf (value > 0xffffffff) ("Linker Error: " ++ what ++ " exceeds the address range.")
  .ok value

/-! ## Loading -/

/-- Raw totals of the inputs read so far. -/
structure InputTotals where
  records : Nat := 0
  code : Nat := 0
  data : Nat := 0
  ram : Nat := 0

def read (path : String) (bytes : Bytes) : Except String ObjectFile := do
  let (object, _) ← ObjectFile.readStream path bytes
  .ok object

/-- An object's configuration at the effective origin. -/
def effectiveConfig (options : Options) (object : ObjectFile) : CompilerConfig :=
  { object.config with
    codeStartAddress := options.origin.getD object.config.codeStartAddress }

/-- Reject impossible raw totals before retaining more objects. -/
def checkTotals (options : Options) (object : ObjectFile) (totals : InputTotals) :
    Except String Unit :=
  if object.config.target = .gsu then do
    GsuMemoryMap.validatePayload (effectiveConfig options object).codeStartAddress.toNat
      totals.code totals.data
    rejectIf (totals.ram > 65536 - options.ramOrigin)
      "Static storage crosses a RAM bank boundary."
  else .ok ()

def loadObjects (options : Options) :
    List (String × Bytes) → List ObjectFile → InputTotals → Except String (List ObjectFile)
  | [], objects, _ => .ok objects
  | (path, bytes) :: files, objects, totals => do
      let object ← read path bytes
      rejectIf (objects = [] ∧ options.expectedTarget.any (· ≠ object.config.target) = true)
        "Manifest/CLI target does not match input objects."
      rejectIf (objects = [] ∧ options.expectedMapping.any (· ≠ object.config.mapping) = true)
        "Manifest/CLI mapping does not match input objects."
      rejectIf (object.serializedBytes > ObjectFile.maxObjectBytes - totals.records)
        "Combined link inputs exceed the supported 128 MiB record budget."
      rejectIf (objects.head?.any (fun first =>
          !(effectiveConfig options first).same (effectiveConfig options object)) = true)
        "Input objects use incompatible target configurations."
      let totals : InputTotals :=
        if object.config.target = .gsu then
          ⟨totals.records + object.serializedBytes, totals.code + object.codeSection.length,
            totals.data + object.dataSection.length, totals.ram + object.ramSection.length⟩
        else { totals with records := totals.records + object.serializedBytes }
      checkTotals options object totals
      loadObjects options files (objects ++ [object]) totals

/-! ## Configuration -/

/-- Merge the remaining objects into the first one's configuration. -/
def mergeConfigs (options : Options) :
    List ObjectFile → CompilerConfig → Except String CompilerConfig
  | [], config => .ok config
  | object :: rest, config => do
      let candidate := effectiveConfig options object
      rejectIf (candidate.same config = false)
        "Input objects use incompatible target configurations."
      rejectIf (candidate.bitmap.enabled = true ∧ config.bitmap.enabled = true ∧
          config.bitmap.same candidate.bitmap = false)
        "Input objects select conflicting host bitmap configurations."
      mergeConfigs options rest
        (if candidate.bitmap.enabled then { config with bitmap := candidate.bitmap } else config)

def linkConfig (options : Options) : List ObjectFile → Except String CompilerConfig
  | [] => .error "No input object files specified."
  | first :: rest => do
      rejectIf (options.expectedTarget.any (· ≠ first.config.target) = true)
        "Manifest/CLI target does not match input objects."
      rejectIf (options.expectedMapping.any (· ≠ first.config.mapping) = true)
        "Manifest/CLI mapping does not match input objects."
      let config := effectiveConfig options first
      rejectIf (options.execution ≠ .automatic ∧ config.target ≠ .gsu)
        "Execution-memory configuration is GSU-only."
      rejectIf ((options.execution = .ram ∧
            GsuMemoryMap.region config.codeStartAddress.toNat ≠ .ram) ∨
          (options.execution = .rom ∧ GsuMemoryMap.region config.codeStartAddress.toNat ≠ .rom))
        "Origin does not match selected execution memory."
      let config ← mergeConfigs options rest config
      config.bitmap.validate
      rejectIf (options.initializeRuntime = true ∧ config.target ≠ .gsu)
        "Runtime initialization is only supported for GSU."
      .ok config

/-- The near ROM bank: selected, or the execution bank when it is ROM. -/
def romBank (options : Options) (config : CompilerConfig) : Nat :=
  match options.romBank with
  | some bank => bank
  | none =>
      let bank := config.codeStartAddress.toNat / 0x10000
      if bank ≤ 0x5f then bank else 0

/-! ## Static RAM -/

/-- Append every object's RAM image, recording where each starts. -/
def placeRam (options : Options) :
    List ObjectFile → Bytes → List Nat → Except String (Bytes × List Nat)
  | [], finalRam, ramBases => .ok (finalRam, ramBases)
  | object :: rest, finalRam, ramBases => do
      let alignment := object.ramAlignment.toNat
      let finalRam := (alignSection 0 options.ramOrigin alignment alignment
        (finalRam, finalRam.length)).1
      rejectIf (finalRam.length > 65536 - options.ramOrigin ∨
          object.ramSection.length > 65536 - options.ramOrigin - finalRam.length)
        "Static storage crosses a RAM bank boundary."
      placeRam options rest (finalRam ++ object.ramSection) (ramBases ++ [finalRam.length])

/-! ## Public symbols -/

/-- A public symbol at its final address. -/
structure Definition where
  name : Name
  address : Nat
  sect : SymbolSection
  /-- The symbol labels a byte of its object's CODE, not its end. -/
  instruction : Bool
  deriving DecidableEq, Repr

def lookup (definitions : List Definition) (name : Name) : Option Definition :=
  definitions.find? fun definition => definition.name = name

/-- The selected RAM bank, as the symbol table composes its addresses. -/
def nearRamBank (options : Options) : Nat := 0x700000 ||| (options.ramBank <<< 16)

/-- The address of a public RAM symbol at an offset of the selected bank. -/
def publicRamAddress (options : Options) (offset : Nat) : Nat := nearRamBank options ||| offset

/-- Define one object's public RAM symbols. -/
def defineRam (options : Options) (ramBase : Nat) :
    List SymbolEntry → List Definition → Except String (List Definition)
  | [], definitions => .ok definitions
  | symbol :: rest, definitions =>
      if symbol.sect ≠ .ram ∨ isPrivate symbol.name = true then
        defineRam options ramBase rest definitions
      else do
        rejectIf ((lookup definitions symbol.name).isSome = true)
          ("Duplicate global symbol: " ++ nameText symbol.name)
        let offset ← checkedAddress (options.ramOrigin + ramBase + symbol.offset.toNat)
          "RAM symbol address"
        defineRam options ramBase rest (definitions ++
          [⟨symbol.name, publicRamAddress options offset, .ram, false⟩])

/-- Define every object's public RAM symbols. -/
def defineAllRam (options : Options) :
    List (ObjectFile × Nat) → List Definition → Except String (List Definition)
  | [], definitions => .ok definitions
  | (object, ramBase) :: rest, definitions => do
      let definitions ← defineRam options ramBase object.symbolTable definitions
      defineAllRam options rest definitions

/-- Define one object's public symbols of a payload section that starts at `base`. -/
def defineSection (object : ObjectFile) (sect : SymbolSection) (base : Nat) (what : String) :
    List SymbolEntry → List Definition → Except String (List Definition)
  | [], definitions => .ok definitions
  | symbol :: rest, definitions =>
      if symbol.sect ≠ sect ∨ isPrivate symbol.name = true then
        defineSection object sect base what rest definitions
      else do
        rejectIf ((lookup definitions symbol.name).isSome = true)
          ("Linker Error: Symbol '" ++ nameText symbol.name ++ "' defined multiple times.")
        let address ← checkedAddress (base + symbol.offset.toNat) what
        defineSection object sect base what rest (definitions ++
          [⟨symbol.name, address, sect,
            sect = .code ∧ symbol.offset.toNat < object.codeSection.length⟩])

/-! ## Payload layout -/

structure CodeLayout where
  finalCode : Bytes
  currentCodeOffset : Nat
  codeBases : List Nat := []
  definitions : List Definition

def checkReserved (object : ObjectFile) : Except String Unit :=
  match object.symbolTable.find? fun symbol => isReserved symbol.name with
  | none => .ok ()
  | some symbol => .error ("Symbol name is reserved for the pointer ABI: " ++ nameText symbol.name)

/-- Place every object's CODE and define its symbols. NOP is opcode 1. -/
def placeCode (config : CompilerConfig) : List ObjectFile → CodeLayout → Except String CodeLayout
  | [], layout => .ok layout
  | object :: rest, layout => do
      let alignment ← codeAlignment object
      let (finalCode, offset) := alignSection 1 config.codeStartAddress.toNat alignment alignment
        (layout.finalCode, layout.currentCodeOffset)
      checkReserved object
      let definitions ← defineSection object .code (config.codeStartAddress.toNat + offset)
        "code symbol address" object.symbolTable layout.definitions
      placeCode config rest
        ⟨finalCode ++ object.codeSection, offset + object.codeSection.length,
          layout.codeBases ++ [offset], definitions⟩

/-- The alignment of the DATA start: the largest that a nonempty DATA section asks for. -/
def dataStartAlignment (objects : List ObjectFile) : Nat :=
  objects.foldl (fun alignment object =>
    if object.dataSection = [] then alignment else max alignment object.dataAlignment.toNat) 1

structure DataLayout where
  finalData : Bytes := []
  currentDataOffset : Nat := 0
  definitions : List Definition

/-- Place every object's DATA and define its symbols. -/
def placeData (dataStart : Nat) : List ObjectFile → DataLayout → Except String DataLayout
  | [], layout => .ok layout
  | object :: rest, layout => do
      let alignment := object.dataAlignment.toNat
      let (finalData, offset) := alignSection 0 dataStart alignment alignment
        (layout.finalData, layout.currentDataOffset)
      let definitions ← defineSection object .data (dataStart + offset)
        "data symbol address" object.symbolTable layout.definitions
      placeData dataStart rest
        ⟨finalData ++ object.dataSection, offset + object.dataSection.length, definitions⟩

/-- Raw section totals must fit before any of them is placed. -/
def checkSections (origin : Nat) : List ObjectFile → Nat → Nat → Except String Unit
  | [], _, _ => .ok ()
  | object :: rest, codeBytes, dataBytes => do
      let codeBytes := codeBytes + object.codeSection.length
      let dataBytes := dataBytes + object.dataSection.length
      GsuMemoryMap.validatePayload origin codeBytes dataBytes
      checkSections origin rest codeBytes dataBytes

end Disco.Linker
