import Disco.Target.Config

/-! # Object files

The contents of an object and the validation that both the writer and the
reader run. `validate` keeps the source's order of checks; `Valid` is what an
object that passes them satisfies.
-/

namespace Disco

open Library

inductive RelocationType where
  | addr16Jal
  | addr16Iwt
  | addr24Bank
  | addr24Offset
  | addr16Ram
  deriving DecidableEq, Repr

inductive SymbolSection where
  | code
  | data
  | ram
  deriving DecidableEq, Repr

namespace RelocationType

def toByte : RelocationType → UInt8
  | addr16Jal => 0
  | addr16Iwt => 1
  | addr24Bank => 2
  | addr24Offset => 3
  | addr16Ram => 4

def ofByte (byte : UInt8) : Option RelocationType :=
  if byte = 0 then some addr16Jal else if byte = 1 then some addr16Iwt
  else if byte = 2 then some addr24Bank else if byte = 3 then some addr24Offset
  else if byte = 4 then some addr16Ram else none

/-- Bytes of the placeholder instruction, its opcode included. -/
def patchSize : RelocationType → Nat
  | addr24Bank => 2
  | _ => 3

@[simp] theorem ofByte_toByte (type : RelocationType) : ofByte type.toByte = some type := by
  cases type <;> rfl

theorem toByte_of_ofByte {byte : UInt8} {type : RelocationType} (h : ofByte byte = some type) :
    type.toByte = byte := by
  unfold ofByte at h
  split_ifs at h <;> cases h <;> simp_all [toByte]

theorem patchSize_bounds (type : RelocationType) : 2 ≤ type.patchSize ∧ type.patchSize ≤ 3 := by
  cases type <;> decide

end RelocationType

namespace SymbolSection

def toByte : SymbolSection → UInt8
  | code => 0
  | data => 1
  | ram => 2

def ofByte (byte : UInt8) : Option SymbolSection :=
  if byte = 0 then some code else if byte = 1 then some data
  else if byte = 2 then some ram else none

@[simp] theorem ofByte_toByte (sect : SymbolSection) : ofByte sect.toByte = some sect := by
  cases sect <;> rfl

theorem toByte_of_ofByte {byte : UInt8} {sect : SymbolSection} (h : ofByte byte = some sect) :
    sect.toByte = byte := by
  unfold ofByte at h
  split_ifs at h <;> cases h <;> simp_all [toByte]

end SymbolSection

structure SymbolEntry where
  name : Name
  sect : SymbolSection
  offset : UInt32
  deriving DecidableEq, Repr

structure RelocationEntry where
  targetSymbolName : Name
  sectionToPatch : SymbolSection
  patchOffset : UInt32
  type : RelocationType
  deriving DecidableEq, Repr

structure ObjectFile where
  codeSection : Bytes := []
  dataSection : Bytes := []
  ramSection : Bytes := []
  symbolTable : List SymbolEntry := []
  relocationTable : List RelocationEntry := []
  config : CompilerConfig := {}
  dataAlignment : UInt8 := 1
  ramAlignment : UInt8 := 2
  deriving DecidableEq, Repr

namespace ObjectFile

def maxSectionBytes : Nat := 64 * 1024 * 1024
def maxObjectBytes : Nat := 128 * 1024 * 1024
def maxStringBytes : Nat := 4096
def maxSymbolCount : Nat := 1000000
def maxRelocationCount : Nat := 1000000

def sectionBytes (object : ObjectFile) : SymbolSection → Bytes
  | .code => object.codeSection
  | .data => object.dataSection
  | .ram => object.ramSection

end ObjectFile

/-! ## The CACHE layout hint -/

/-- A private layout hint, not an executable symbol. -/
def cacheAlignmentSymbol : Name := 1 :: nameOf "__disco_cache_align16"

/-- The CODE alignment an object asks for. -/
def codeAlignment (object : ObjectFile) : Except String Nat :=
  match object.symbolTable.find? fun symbol => symbol.name = cacheAlignmentSymbol with
  | none => .ok 1
  | some symbol => do
      rejectIf (object.config.target ≠ .gsu ∨ symbol.sect ≠ .code ∨ symbol.offset ≠ 0)
        "Invalid GSU CACHE alignment hint."
      .ok 16

/-! ## Validation -/

/-- A section alignment byte: a power of two in 1..128. -/
def badAlignment (alignment : UInt8) (maximum : Nat) : Prop :=
  alignment = 0 ∨ alignment.toNat > maximum ∨ alignment &&& (alignment - 1) ≠ 0

instance (alignment : UInt8) (maximum : Nat) : Decidable (badAlignment alignment maximum) :=
  inferInstanceAs (Decidable (_ ∨ _ ∨ _))

/-- A byte no symbol name may hold: control characters, except the private
marker `\x01` at the front. -/
def controlByte (index : Nat) (byte : UInt8) : Prop :=
  (byte < 32 ∧ ¬ (index = 0 ∧ byte = 1)) ∨ byte = 127

instance (index : Nat) (byte : UInt8) : Decidable (controlByte index byte) :=
  inferInstanceAs (Decidable ((_ ∧ ¬ (_ ∧ _)) ∨ _))

def validName (name : Name) : Except String Unit := do
  rejectIf (name = [] ∨ name.length > ObjectFile.maxStringBytes ∨ name = [1])
    "Object file: invalid symbol name length."
  rejectIf (∃ entry ∈ name.zipIdx, controlByte entry.2 entry.1)
    "Object file: symbol names cannot contain control characters."

/-- Charge serialized bytes against the total size limit. -/
def charge (serialized bytes : Nat) : Except String Nat := do
  rejectIf (serialized > ObjectFile.maxObjectBytes ∨ bytes > ObjectFile.maxObjectBytes - serialized)
    "Object file exceeds the supported total size limit."
  .ok (serialized + bytes)

def validateRelocation (relocation : RelocationEntry) (object : ObjectFile) : Except String Unit := do
  rejectIf (relocation.sectionToPatch = .ram) "Object file: invalid relocation section."
  rejectIf (relocation.targetSymbolName = [])
    "Object file has a relocation without a target symbol."
  rejectIf (relocation.patchOffset.toNat + relocation.type.patchSize >
      (if relocation.sectionToPatch = .code then object.codeSection else object.dataSection).length)
    "Object file relocation extends beyond its section."

/-- The operand bytes a relocation patches, as a half-open range. -/
structure Span where
  sect : SymbolSection
  start : Nat
  stop : Nat
  deriving DecidableEq, Repr

def RelocationEntry.span (relocation : RelocationEntry) : Span :=
  let start := relocation.patchOffset.toNat + 1
  ⟨relocation.sectionToPatch, start, start + (if relocation.type = .addr24Bank then 1 else 2)⟩

/-- The writer's order on spans: by section, then by first byte. -/
def Span.before (left right : Span) : Prop :=
  if left.sect ≠ right.sect then left.sect.toByte < right.sect.toByte
  else left.start ≤ right.start

instance (left right : Span) : Decidable (Span.before left right) :=
  inferInstanceAs (Decidable (if left.sect ≠ right.sect then left.sect.toByte < right.sect.toByte
    else left.start ≤ right.start))

/-- Some neighbours in the sorted table share an operand byte. -/
def neighboursOverlap : List Span → Bool
  | previous :: next :: rest =>
      (next.sect = previous.sect ∧ next.start < previous.stop) ||
        neighboursOverlap (next :: rest)
  | _ => false

namespace ObjectFile

/-- One pass over the symbol table, charging each record and collecting names. -/
def validateSymbols (object : ObjectFile) :
    List SymbolEntry → Nat → List Name → Except String Nat
  | [], serialized, _ => .ok serialized
  | symbol :: rest, serialized, names => do
      validName symbol.name
      rejectIf (symbol.offset.toNat > (object.sectionBytes symbol.sect).length)
        "Object file has a symbol outside its section."
      let serialized ← charge serialized (9 + symbol.name.length)
      rejectIf (symbol.name ∈ names)
        ("Object file has a duplicate symbol: " ++ nameText symbol.name)
      validateSymbols object rest serialized (symbol.name :: names)

/-- One pass over the relocation table, charging each record. -/
def validateRelocations (object : ObjectFile) :
    List RelocationEntry → Nat → Except String Nat
  | [], serialized => .ok serialized
  | relocation :: rest, serialized => do
      rejectIf (relocation.targetSymbolName = cacheAlignmentSymbol)
        "Object file: CACHE layout hint is not an addressable symbol."
      validName relocation.targetSymbolName
      validateRelocation relocation object
      let serialized ← charge serialized (10 + relocation.targetSymbolName.length)
      validateRelocations object rest serialized

def validate (object : ObjectFile) : Except String Unit := do
  let _ ← codeAlignment object
  object.config.bitmap.validate
  rejectIf (object.config.bitmap.enabled = true ∧ object.config.target ≠ .gsu)
    "Bitmap configuration requires GSU."
  rejectIf (badAlignment object.dataAlignment 128 ∨ badAlignment object.ramAlignment 128)
    "Object file: section alignment must be a power of two in 1..128."
  rejectIf (object.codeSection.length > maxSectionBytes ∨
      object.dataSection.length > maxSectionBytes ∨ object.ramSection.length > 65536)
    "Object file section exceeds the supported size limit."
  rejectIf (object.symbolTable.length > maxSymbolCount ∨
      object.relocationTable.length > maxRelocationCount)
    "Object file table exceeds the supported entry limit."
  let serialized ← charge (35 + (if object.config.bitmap.enabled then 10 else 0) +
    object.codeSection.length + object.dataSection.length + object.ramSection.length) 0
  let serialized ← validateSymbols object object.symbolTable serialized []
  let serialized ← validateRelocations object object.relocationTable serialized
  -- Only operand bytes are patched, so adjacent records may touch.
  rejectIf (neighboursOverlap ((object.relocationTable.map RelocationEntry.span).insertionSort
      Span.before) = true)
    "Object file has overlapping relocation operands."
  rejectIf (serialized > maxObjectBytes) "Object file exceeds the supported total size limit."

end ObjectFile

end Disco
