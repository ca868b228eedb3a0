import Disco.Object.File

/-! # Object serialization

The writer emits the current format; the reader accepts versions 3 to 7, whose
headers and section lists grow with the version. All words are little-endian.
-/

namespace Disco

open Library

namespace ObjectFile

def currentFormatVersion : UInt8 := 7

def magic : Bytes := nameOf "DISCO"

/-! ## Writing -/

def encodeString (text : Name) : Bytes := encodeU32 (UInt32.ofNat text.length) ++ text

def encodeVec (bytes : Bytes) : Bytes := encodeU32 (UInt32.ofNat bytes.length) ++ bytes

def encodeBitmap (bitmap : BitmapConfig) : Bytes :=
  if bitmap.enabled then
    [1, if bitmap.objectMode then 1 else 0, bitmap.depth] ++ encodeU32 bitmap.height.toUInt32 ++
      encodeU32 bitmap.base
  else [0]

def encodeSymbol (symbol : SymbolEntry) : Bytes :=
  encodeString symbol.name ++ [symbol.sect.toByte] ++ encodeU32 symbol.offset

def encodeRelocation (relocation : RelocationEntry) : Bytes :=
  encodeString relocation.targetSymbolName ++ [relocation.sectionToPatch.toByte] ++
    encodeU32 relocation.patchOffset ++ [relocation.type.toByte]

def encode (object : ObjectFile) : Bytes :=
  magic ++ [currentFormatVersion, object.config.target.toByte, object.config.mapping.toByte] ++
    encodeU32 object.config.codeStartAddress ++ [object.dataAlignment, object.ramAlignment] ++
    encodeBitmap object.config.bitmap ++
    encodeVec object.codeSection ++ encodeVec object.dataSection ++ encodeVec object.ramSection ++
    encodeU32 (UInt32.ofNat object.symbolTable.length) ++ object.symbolTable.flatMap encodeSymbol ++
    encodeU32 (UInt32.ofNat object.relocationTable.length) ++
    object.relocationTable.flatMap encodeRelocation

/-- The bytes written to the destination. Validation runs before it is opened. -/
def write (object : ObjectFile) : Except String Bytes := do
  object.validate
  .ok object.encode

/-! ## Reading -/

def truncated (field : String) : String := "Object file: truncated " ++ field ++ "."

def readU8 (field : String) : Reader UInt8 := Reader.u8 (truncated field)

def readU32 (field : String) : Reader UInt32 := Reader.u32 (truncated field)

def readString (field : String) : Reader Name := do
  let len ← readU32 field
  let left ← Reader.remaining
  Reader.check (len.toNat > maxStringBytes ∨ len.toNat > left)
    ("Object file: invalid " ++ field ++ " length.")
  Reader.take len.toNat (truncated field)

def readVec (maxElements : Nat) (field : String) : Reader Bytes := do
  let size ← readU32 field
  let left ← Reader.remaining
  Reader.check (size.toNat > maxElements ∨ size.toNat > left)
    ("Object file: invalid " ++ field ++ " size.")
  Reader.take size.toNat (truncated field)

/-- An enumerator, or the error its record reports for an invalid value. -/
def enumerator {α : Type} (value : Option α) (message : String) : Reader α := fun bytes =>
  match value with
  | some value => .ok (value, bytes)
  | none => .error message

def readMagic (path : String) : Reader Unit := fun bytes =>
  if bytes.take 5 = magic then .ok ((), bytes.drop 5)
  else .error ("File is not a valid DiscoC object file: " ++ path)

def readBitmap (target : TargetKind) : Reader BitmapConfig := do
  let enabled ← readU8 "bitmap presence"
  Reader.check (enabled > 1) "Object file: invalid bitmap presence flag."
  if enabled = 0 then pure {}
  else do
    let mode ← readU8 "bitmap mode"
    Reader.check (mode > 1 ∨ target ≠ .gsu) "Object file: invalid bitmap target/mode."
    let depth ← readU8 "bitmap depth"
    let height ← readU32 "bitmap height"
    Reader.check (height > 256) "Object file: invalid bitmap height."
    let base ← readU32 "bitmap base"
    let bitmap : BitmapConfig := ⟨true, mode ≠ 0, height.toUInt16, depth, base⟩
    Reader.validated bitmap.validate
    pure bitmap

/-- Version 3 objects use packed DATA. -/
def readDataAlignment (version : UInt8) : Reader UInt8 :=
  if version ≥ 4 then do
    let alignment ← readU8 "DATA alignment"
    Reader.check (badAlignment alignment (if version ≥ 6 then 128 else 2))
      "Object file: invalid DATA alignment."
    pure alignment
  else pure 1

/-- Versions up to 5 use word-aligned RAM. -/
def readRamAlignment (version : UInt8) : Reader UInt8 :=
  if version ≥ 6 then do
    let alignment ← readU8 "RAM alignment"
    Reader.check (badAlignment alignment 128) "Object file: invalid RAM alignment."
    pure alignment
  else pure 2

/-- Versions before 7 have no bitmap record. -/
def readProfile (version : UInt8) (target : TargetKind) : Reader BitmapConfig :=
  if version ≥ 7 then readBitmap target else pure {}

/-- The fields before the sections, in an object that has no sections yet. -/
def readHeader (path : String) : Reader (UInt8 × ObjectFile) := do
  readMagic path
  let version ← readU8 "format version"
  Reader.check (version < 3 ∨ version > currentFormatVersion)
    ("File has an unsupported DiscoC object format version: " ++ path)
  let target ← readU8 "target"
  let target ← enumerator (TargetKind.ofByte target)
    ("File has an invalid compiler target: " ++ path)
  let mapping ← readU8 "memory mapping"
  let codeStartAddress ← readU32 "code start address"
  let mapping ← enumerator (MemoryMapping.ofByte mapping)
    ("File has an invalid target configuration: " ++ path)
  let dataAlignment ← readDataAlignment version
  let ramAlignment ← readRamAlignment version
  let bitmap ← readProfile version target
  pure (version, { config := ⟨target, mapping, codeStartAddress, bitmap⟩,
                   dataAlignment, ramAlignment })

/-- Versions before 5 have no RAM image. -/
def readRamSection (version : UInt8) : Reader Bytes :=
  if version ≥ 5 then readVec 65536 "RAM section" else pure []

def readSections (version : UInt8) (object : ObjectFile) : Reader ObjectFile := do
  let codeSection ← readVec maxSectionBytes "code section"
  let dataSection ← readVec maxSectionBytes "data section"
  let ramSection ← readRamSection version
  pure { object with codeSection, dataSection, ramSection }

def readSymbol (version : UInt8) (path : String) (object : ObjectFile) : Reader SymbolEntry := do
  let name ← readString "symbol name"
  let byte ← readU8 "symbol section"
  let sect ← enumerator (if byte > (if version ≥ 5 then 2 else 1) then none
    else SymbolSection.ofByte byte) ("Object file has an invalid symbol section: " ++ path)
  let offset ← readU32 "symbol offset"
  Reader.check (offset.toNat > (object.sectionBytes sect).length)
    ("Object file has a symbol outside its section: " ++ path)
  pure ⟨name, sect, offset⟩

def readRelocation (version : UInt8) (path : String) (object : ObjectFile) :
    Reader RelocationEntry := do
  let name ← readString "relocation target name"
  let byte ← readU8 "relocation section"
  let sect ← enumerator (if byte > 1 then none else SymbolSection.ofByte byte)
    ("Object file has an invalid relocation section: " ++ path)
  let offset ← readU32 "relocation offset"
  let kind ← readU8 "relocation type"
  let type ← enumerator (if kind > (if version ≥ 5 then 4 else 3) then none
    else RelocationType.ofByte kind) ("Object file has an invalid relocation type: " ++ path)
  let relocation : RelocationEntry := ⟨name, sect, offset, type⟩
  Reader.validated (validateRelocation relocation object)
  pure relocation

/-- The two tables. Counts are bounded by the bytes left before any entry is read. -/
def readTables (version : UInt8) (path : String) (object : ObjectFile) : Reader ObjectFile := do
  let symCount ← readU32 "symbol count"
  let left ← Reader.remaining
  Reader.check (symCount.toNat > maxSymbolCount ∨ symCount.toNat > left / 10)
    ("Object file has an invalid symbol count: " ++ path)
  let symbolTable ← Reader.many (readSymbol version path object) symCount.toNat
  let relocCount ← readU32 "relocation count"
  let left ← Reader.remaining
  Reader.check (relocCount.toNat > maxRelocationCount ∨ relocCount.toNat > left / 11)
    ("Object file has an invalid relocation count: " ++ path)
  let relocationTable ← Reader.many (readRelocation version path object) relocCount.toNat
  pure { object with symbolTable, relocationTable }

def readStream (path : String) : Reader ObjectFile := do
  let total ← Reader.remaining
  Reader.check (total > maxObjectBytes)
    ("Object file exceeds the supported total size limit: " ++ path)
  let (version, header) ← readHeader path
  let object ← readSections version header
  let object ← readTables version path object
  let left ← Reader.remaining
  Reader.check (left ≠ 0) ("Object file has trailing data: " ++ path)
  Reader.validated object.validate
  pure object

def readBytes (bytes : Bytes) : Except String ObjectFile := do
  rejectIf (bytes.length > maxObjectBytes) "Object file exceeds the supported total size limit."
  let (object, _) ← readStream "<memory>" bytes
  .ok object

end ObjectFile

end Disco
