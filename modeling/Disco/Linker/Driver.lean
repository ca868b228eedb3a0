import Disco.Library.Patching
import Disco.Linker.Layout

/-! # The linker

One whole link: the layout phases, the checks that keep the memory regions
apart, the stack floor, and the pass that resolves and patches relocations.
The assembly exporter is a parameter; a link that asks for an export fails
when the exporter does.
-/

namespace Disco.Linker

open Library

/-! ## Startup -/

/-- Generated startup code, after the checks on static storage. -/
def makeStartup (options : Options) (config : CompilerConfig) (finalRam : Bytes) :
    Except String RuntimeInitialization := do
  rejectIf (finalRam ≠ [] ∧ options.initializeRuntime = false ∧ options.hostGlobals = false)
    "Static globals require --init-runtime or --host-initialized-globals."
  rejectIf (finalRam ≠ [] ∧ config.target ≠ .gsu)
    "Static storage placement is currently GSU-only."
  if options.initializeRuntime then
    makeRuntimeInitialization options.ramBank options.stackPointer options.ramOrigin finalRam
  else .ok {}

/-! ## Layout -/

/-- Sections before relocation, with the addresses chosen for them. -/
structure Layout where
  finalCode : Bytes
  finalData : Bytes
  codeBases : List Nat
  dataStart : Nat
  definitions : List Definition

/-- Lay out CODE and DATA behind the startup code. -/
def layoutPayload (options : Options) (config : CompilerConfig) (objects : List ObjectFile)
    (ramBases : List Nat) (startup : RuntimeInitialization) : Except String Layout := do
  let definitions ← defineAllRam options (objects.zip ramBases) []
  let code ← placeCode config objects
    ⟨startup.bytes, startup.bytes.length, [], definitions⟩
  let alignment := dataStartAlignment objects
  let (finalCode, offset) := alignSection 1 config.codeStartAddress.toNat alignment alignment
    (code.finalCode, code.currentCodeOffset)
  let dataStart ← checkedAddress (config.codeStartAddress.toNat + offset) "data section address"
  let data ← placeData dataStart objects ⟨[], 0, code.definitions⟩
  .ok ⟨finalCode, data.finalData, code.codeBases, dataStart, data.definitions⟩

/-- The laid out payload must fit its bank. -/
def checkPayload (config : CompilerConfig) (layout : Layout) : Except String Unit :=
  if config.target = .gsu then
    GsuMemoryMap.validatePayload config.codeStartAddress.toNat layout.finalCode.length
      layout.finalData.length
  else .ok ()

/-- Raw totals, before and including the startup code. -/
def checkTarget (config : CompilerConfig) (objects : List ObjectFile)
    (startup : RuntimeInitialization) : Except String Unit :=
  if config.target = .gsu then do
    GsuMemoryMap.validatePayload config.codeStartAddress.toNat 0 0
    checkSections config.codeStartAddress.toNat objects startup.bytes.length 0
  else .ok ()

/-! ## Regions -/

/-- The first address of the selected RAM bank. -/
def ramBankBase (options : Options) : Nat := 0x700000 + (options.ramBank <<< 16)

def bitmapBegin (config : CompilerConfig) : Nat := 0x700000 + config.bitmap.base.toNat

def bitmapEnd (config : CompilerConfig) : Nat := bitmapBegin config + config.bitmap.sizeBytes

/-- A nonempty range of bytes meets the framebuffer. -/
def overlapsBitmap (config : CompilerConfig) (address bytes : Nat) : Prop :=
  bytes ≠ 0 ∧ address < bitmapEnd config ∧ address + bytes > bitmapBegin config

instance (config : CompilerConfig) (address bytes : Nat) :
    Decidable (overlapsBitmap config address bytes) :=
  inferInstanceAs (Decidable (_ ∧ _ ∧ _))

def checkBitmap (options : Options) (config : CompilerConfig) (payloadBytes ramBytes : Nat) :
    Except String Unit :=
  if config.bitmap.enabled then do
    rejectIf (overlapsBitmap config config.codeStartAddress.toNat payloadBytes)
      "Bitmap framebuffer overlaps the linked RAM payload."
    rejectIf (overlapsBitmap config (ramBankBase options + options.ramOrigin) ramBytes)
      "Bitmap framebuffer overlaps static RAM."
    rejectIf (options.initializeRuntime = true ∧
        overlapsBitmap config (ramBankBase options + options.stackPointer) 2)
      "Bitmap framebuffer overlaps the initial stack word."
  else .ok ()

def checkStaticRam (options : Options) (config : CompilerConfig) (payloadBytes ramBytes : Nat) :
    Except String Unit :=
  if ramBytes ≠ 0 then do
    let ramStart := nearRamBank options ||| options.ramOrigin
    rejectIf (ramStart < config.codeStartAddress.toNat + payloadBytes ∧
        ramStart + ramBytes > config.codeStartAddress.toNat)
      "Static RAM overlaps the linked payload."
    rejectIf (options.initializeRuntime = true ∧
        options.ramOrigin + ramBytes ≥ options.stackPointer)
      "Static RAM must end below the initial stack pointer."
  else .ok ()

/-- Raise the stack floor over a range that begins below the initial stack word. -/
def reserveBelowStack (options : Options) (begins ends stackFloor : Nat) : Except String Nat :=
  if begins < ramBankBase options + options.stackPointer ∧ ends > ramBankBase options then do
    let reserved ← checkedAddress (ends - ramBankBase options) "Stack reservation"
    .ok (max stackFloor reserved)
  else .ok stackFloor

/-- The stack stays above static RAM, rounded up to a word. -/
def staticFloor (options : Options) (ramBytes : Nat) : Nat :=
  if ramBytes = 0 then 0 else (options.ramOrigin + ramBytes + 1) / 2 * 2

/-- It stays above a framebuffer that begins below it. -/
def bitmapFloor (options : Options) (config : CompilerConfig) (stackFloor : Nat) :
    Except String Nat :=
  if config.bitmap.enabled then
    reserveBelowStack options (bitmapBegin config) (bitmapEnd config) stackFloor
  else .ok stackFloor

/-- It must not grow into still executable RAM code or payload DATA either. -/
def payloadFloor (options : Options) (config : CompilerConfig) (payloadBytes stackFloor : Nat) :
    Except String Nat :=
  if options.initializeRuntime = true ∧
      GsuMemoryMap.region config.codeStartAddress.toNat = .ram ∧
      config.codeStartAddress.toNat / 0x10000 = 0x70 + options.ramBank then
    reserveBelowStack options config.codeStartAddress.toNat
      (config.codeStartAddress.toNat + payloadBytes) stackFloor
  else .ok stackFloor

/-- The lowest offset of the selected bank that the descending stack may use. -/
def computeStackFloor (options : Options) (config : CompilerConfig) (payloadBytes ramBytes : Nat) :
    Except String Nat := do
  let stackFloor ← bitmapFloor options config (staticFloor options ramBytes)
  payloadFloor options config payloadBytes stackFloor

/-! ## Runtime entry -/

/-- Point the startup jump at the entry and check the initial stack word. -/
def patchEntry (options : Options) (config : CompilerConfig) (startup : RuntimeInitialization)
    (layout : Layout) : Except String Bytes :=
  if options.initializeRuntime then
    match lookup layout.definitions options.entryName with
    | none => .error ("Runtime entry must name an instruction in CODE: " ++
        nameText options.entryName)
    | some entry => do
        rejectIf (entry.sect ≠ .code ∨ entry.instruction = false)
          ("Runtime entry must name an instruction in CODE: " ++ nameText options.entryName)
        GsuMemoryMap.validateNearTarget config.codeStartAddress.toNat entry.address
        let stackAddress := nearRamBank options ||| options.stackPointer
        rejectIf (stackAddress < layout.dataStart + layout.finalData.length ∧
            stackAddress + 2 > config.codeStartAddress.toNat)
          "Initial stack word overlaps the linked payload."
        .ok (applyWrites [(startup.entryPatch, UInt8.ofNat entry.address),
          (startup.entryPatch + 1, UInt8.ofNat (entry.address / 256))] layout.finalCode)
  else .ok layout.finalCode

/-! ## Relocation -/

/-- What the relocation pass knows about the whole link. -/
structure Context where
  options : Options
  config : CompilerConfig
  dataStart : Nat
  definitions : List Definition
  stackFloor : Nat

/-- Where an object's sections start: CODE from the origin, DATA from the data
start, RAM from the static RAM origin. -/
structure Bases where
  code : Nat
  data : Nat
  ram : Nat
  deriving DecidableEq, Repr

/-- What a relocation points at. -/
structure Target where
  address : Nat
  sect : SymbolSection := .code
  instruction : Bool := false
  deriving DecidableEq, Repr

/-- The final address at which a section of an object starts. -/
def sectionAddress (context : Context) (bases : Bases) : SymbolSection → Nat
  | .code => context.config.codeStartAddress.toNat + bases.code
  | .data => context.dataStart + bases.data
  | .ram => nearRamBank context.options + context.options.ramOrigin + bases.ram

/-- A private name, searched in its own object only. -/
def resolveLocal (context : Context) (object : ObjectFile) (bases : Bases) (name : Name) :
    Except String Target :=
  match object.symbolTable.find? fun symbol => symbol.name = name with
  | none => .error ("Linker Error: Undefined local symbol '" ++ nameText (name.drop 1) ++ "'.")
  | some symbol => do
      rejectIf (immutablePoolPrefix.isPrefixOf name = true ∧
          (symbol.sect ≠ .data ∨ symbol.offset.toNat ≥ object.dataSection.length))
        "Immutable local-array pool requires a nonempty private DATA target."
      let address ← checkedAddress
        (sectionAddress context bases symbol.sect + symbol.offset.toNat)
        "local branch target address"
      .ok ⟨address, symbol.sect,
        symbol.sect = .code ∧ symbol.offset.toNat < object.codeSection.length⟩

/-- A stack limit: the floor plus the bytes the frame needs. -/
def resolveStackLimit (context : Context) (relocation : RelocationEntry) :
    Except String Target := do
  rejectIf (relocation.type ≠ .addr16Ram ∨ context.config.target ≠ .gsu)
    "Stack-limit symbol requires a GSU RAM relocation."
  let required ← parseOptionNumber
    (relocation.targetSymbolName.drop stackLimitPrefix.length) 65535
  rejectIf (context.stackFloor > 65535 - required)
    "Reserved RAM leaves no room for the requested stack frame."
  rejectIf (context.options.initializeRuntime = true ∧
      context.stackFloor + required > context.options.stackPointer)
    "Initial stack pointer leaves no room for the requested stack frame."
  .ok ⟨ramBankBase context.options + context.stackFloor + required, .ram, false⟩

/-- A bank-context name: the near RAM bank, or the near ROM bank's window. -/
def resolveBank (context : Context) (relocation : RelocationEntry) : Except String Target := do
  rejectIf (context.config.target ≠ .gsu ∨ relocation.type ≠ .addr24Bank)
    "Bank-context symbol requires a GSU bank-byte relocation."
  let bank := romBank context.options context.config
  .ok { address :=
      if relocation.targetSymbolName = nearRamBankSymbol then nearRamBank context.options
      else (bank <<< 16) ||| (if bank ≤ 0x3f then 0x8000 else 0) }

def resolve (context : Context) (object : ObjectFile) (bases : Bases)
    (relocation : RelocationEntry) : Except String Target :=
  let name := relocation.targetSymbolName
  if isPrivate name then resolveLocal context object bases name
  else if stackLimitPrefix.isPrefixOf name then resolveStackLimit context relocation
  else if name = nearRamBankSymbol ∨ name = nearRomBankSymbol then resolveBank context relocation
  else
    match lookup context.definitions name with
    | none => .error ("Linker Error: Undefined symbol '" ++ nameText name ++ "'.")
    | some definition => .ok ⟨definition.address, definition.sect, definition.instruction⟩

/-- An object that materializes near ROM pointers. -/
def usesNearRom (object : ObjectFile) : Bool :=
  object.relocationTable.any fun relocation => relocation.targetSymbolName = nearRomBankSymbol

/-- A 16-bit operand that the selected RAM bank completes. -/
def checkRamTarget (context : Context) (relocation : RelocationEntry) (target : Target) :
    Except String Unit := do
  let origin := context.config.codeStartAddress.toNat
  let pool := immutablePoolPrefix.isPrefixOf relocation.targetSymbolName
  rejectIf (pool = true ∧ (target.sect ≠ .data ∨ GsuMemoryMap.region origin ≠ .ram ∨
      GsuMemoryMap.region target.address ≠ .ram ∨
      origin / 0x10000 ≠ 0x70 + context.options.ramBank))
    "Immutable local-array pool requires copied RAM payload placement in the selected near RAM bank."
  rejectIf (target.sect ≠ .ram ∧ pool = false)
    "RAM relocation must target static RAM or a stack limit."
  rejectIf (target.address / 0x10000 ≠ 0x70 + context.options.ramBank)
    "RAM relocation target is outside the near RAM bank."

/-- A 16-bit operand that the program bank completes. -/
def checkNearTarget (context : Context) (object : ObjectFile) (relocation : RelocationEntry)
    (target : Target) : Except String Unit := do
  rejectIf (relocation.type = .addr16Iwt ∧ target.sect = .data ∧ usesNearRom object = true ∧
      (GsuMemoryMap.region target.address ≠ .rom ∨
        target.address / 0x10000 ≠ romBank context.options context.config))
    ("Near ROM data relocation does not match the selected ROM bank; " ++
      "separate RAM-code/ROM-data placement is unsupported.")
  GsuMemoryMap.validateNearTarget context.config.codeStartAddress.toNat target.address

/-- The address checks of one relocation, by its type. -/
def checkRelocation (context : Context) (object : ObjectFile) (relocation : RelocationEntry)
    (target : Target) : Except String Unit := do
  rejectIf (relocation.type = .addr16Jal ∧ target.instruction = false)
    ("Call relocation must target an instruction in CODE: " ++
      nameText relocation.targetSymbolName)
  rejectIf (target.address > 0xffffff) "Relocation target exceeds the 24-bit address range."
  if context.config.target = .gsu then
    match relocation.type with
    | .addr16Ram => checkRamTarget context relocation target
    | .addr16Jal | .addr16Iwt => checkNearTarget context object relocation target
    | .addr24Bank | .addr24Offset => GsuMemoryMap.validateAddress target.address
  else
    rejectIf ((relocation.type = .addr16Jal ∨ relocation.type = .addr16Iwt) ∧
        target.address > 0xffff)
      "Relocation target exceeds the 16-bit address range."

/-- The operand bytes of a target at a patch index. -/
def operandWrites (type : RelocationType) (index address : Nat) : List Write :=
  match type with
  | .addr24Bank => [(index + 1, UInt8.ofNat (address / 0x10000))]
  | _ => [(index + 1, UInt8.ofNat address), (index + 2, UInt8.ofNat (address / 0x100))]

/-- The sections under relocation. -/
structure Sections where
  code : Bytes
  data : Bytes
  deriving DecidableEq, Repr

def patch (bases : Bases) (relocation : RelocationEntry) (address : Nat) (sections : Sections) :
    Except String Sections :=
  if relocation.sectionToPatch = .code then do
    let index := bases.code + relocation.patchOffset.toNat
    rejectIf (index + relocation.type.patchSize > sections.code.length)
      "Linker Error: relocation extends beyond its section."
    .ok { sections with
      code := applyWrites (operandWrites relocation.type index address) sections.code }
  else do
    let index := bases.data + relocation.patchOffset.toNat
    rejectIf (index + relocation.type.patchSize > sections.data.length)
      "Linker Error: relocation extends beyond its section."
    .ok { sections with
      data := applyWrites (operandWrites relocation.type index address) sections.data }

def relocateObject (context : Context) (object : ObjectFile) (bases : Bases) :
    List RelocationEntry → Sections → Except String Sections
  | [], sections => .ok sections
  | relocation :: rest, sections => do
      let target ← resolve context object bases relocation
      checkRelocation context object relocation target
      let sections ← patch bases relocation target.address sections
      relocateObject context object bases rest sections

/-- Relocate every object. CODE and RAM bases were recorded by the layout; the
DATA base is advanced here a second time. -/
def relocate (context : Context) :
    List (ObjectFile × Nat × Nat) → Nat → Sections → Except String Sections
  | [], _, sections => .ok sections
  | (object, codeBase, ramBase) :: rest, currentDataBase, sections => do
      let alignment := object.dataAlignment.toNat
      let dataBase := alignOffset context.dataStart alignment alignment currentDataBase
      let sections ← relocateObject context object ⟨codeBase, dataBase, ramBase⟩
        object.relocationTable sections
      relocate context rest (dataBase + object.dataSection.length) sections

/-! ## Output -/

/-- The resolved payload as an object for the exporter: public symbols in name
order, without those of RAM, whose addresses are already resolved. -/
def linkedObject (config : CompilerConfig) (objects : List ObjectFile) (dataStart : Nat)
    (definitions : List Definition) (sections : Sections) : ObjectFile where
  config := config
  dataAlignment := UInt8.ofNat (dataStartAlignment objects)
  codeSection := sections.code
  dataSection := sections.data
  symbolTable :=
    ((definitions.filter fun definition => definition.sect ≠ .ram).insertionSort
      (fun left right => left.name ≤ right.name)).map fun definition =>
        ⟨definition.name, definition.sect,
          UInt32.ofNat (definition.address -
            (if definition.sect = .code then config.codeStartAddress.toNat else dataStart))⟩

/-- A finished link, with the choices that led to its payload. -/
structure Image where
  config : CompilerConfig
  objects : List ObjectFile
  startup : RuntimeInitialization
  finalRam : Bytes
  ramBases : List Nat
  codeBases : List Nat
  dataStart : Nat
  definitions : List Definition
  stackFloor : Nat
  finalCode : Bytes
  finalData : Bytes
  linkedAssembly : Option String

/-- The bytes the linker writes. -/
def Image.payload (image : Image) : Bytes := image.finalCode ++ image.finalData

section Link

variable (generate : ObjectFile → Except String String)

def exportAssembly (options : Options) (linked : ObjectFile) : Except String (Option String) :=
  if options.emitAssembly then do
    let text ← generate linked
    .ok (some text)
  else .ok none

/-- Everything after the configuration is known. -/
def linkObjects (options : Options) (config : CompilerConfig) (objects : List ObjectFile) :
    Except String Image := do
  let (finalRam, ramBases) ← placeRam options objects [] []
  let startup ← makeStartup options config finalRam
  checkTarget config objects startup
  let layout ← layoutPayload options config objects ramBases startup
  let payloadBytes := layout.finalCode.length + layout.finalData.length
  checkPayload config layout
  checkBitmap options config payloadBytes finalRam.length
  checkStaticRam options config payloadBytes finalRam.length
  let finalCode ← patchEntry options config startup layout
  let stackFloor ← computeStackFloor options config payloadBytes finalRam.length
  let sections ← relocate ⟨options, config, layout.dataStart, layout.definitions, stackFloor⟩
    (objects.zip (layout.codeBases.zip ramBases)) 0 ⟨finalCode, layout.finalData⟩
  let linkedAssembly ← exportAssembly generate options
    (linkedObject config objects layout.dataStart layout.definitions sections)
  .ok ⟨config, objects, startup, finalRam, ramBases, layout.codeBases, layout.dataStart,
    layout.definitions, stackFloor, sections.code, sections.data, linkedAssembly⟩

/-- One link of the given files, each with its path. -/
def runLinker (options : Options) (files : List (String × Bytes)) : Except String Image := do
  checkOptions options
  rejectIf (files = []) "No input object files specified."
  let objects ← loadObjects options files [] {}
  let config ← linkConfig options objects
  linkObjects generate options config objects

end Link

end Disco.Linker
