import Disco.Assembler.Text

/-! # Parsed lines

The assembler's first look at its source: numbered lines with a section, an
optional label, an operation and operands. Configuration definitions take
effect here; everything else waits for the passes.
-/

namespace Disco.Assembler

open Library Linker

/-- How assembling stops short of an object. -/
inductive Failure where
  /-- A diagnostic at a source line; every message begins with `Assembler: `. -/
  | compiler (message : String) (line : Nat)
  /-- A check of the target configuration, or an index outside a table. -/
  | runtime (message : String)
  deriving DecidableEq, Repr

def fail {α : Type} (message : String) (line : Nat) : Except Failure α :=
  .error (.compiler ("Assembler: " ++ message) line)

/-- Stop at `line` when the rejected condition holds. -/
def failIf (bad : Prop) [Decidable bad] (message : String) (line : Nat) : Except Failure Unit :=
  rejectIf bad (Failure.compiler ("Assembler: " ++ message) line)

inductive Section where
  | none
  | code
  | data
  | ram
  deriving DecidableEq, Repr

def symbolSection : Section → SymbolSection
  | .code => .code
  | .data => .data
  | _ => .ram

structure ParsedLine where
  lineNumber : Nat := 0
  sect : Section := .none
  label : Text := []
  operation : Text := []
  operands : List Text := []
  deriving DecidableEq, Repr

/-! ## Configuration definitions -/

/-- What the definitions of a source file select. -/
structure Settings where
  config : CompilerConfig := {}
  dataAlignment : UInt8 := 1
  ramAlignment : UInt8 := 2
  cacheAlignment : Bool := false
  configDefinitions : List Name := []
  deriving DecidableEq, Repr

def bitmapScbr : Name := nameOf "__DISCO_BITMAP_SCBR"
def bitmapScmr : Name := nameOf "__DISCO_BITMAP_SCMR"
def memoryMapping : Name := nameOf "__DISCO_MEMORY_MAPPING"
def codeStartAddress : Name := nameOf "__DISCO_CODE_START_ADDRESS"
def dataAlignment : Name := nameOf "__DISCO_DATA_ALIGNMENT"
def ramAlignment : Name := nameOf "__DISCO_RAM_ALIGNMENT"
def codeAlignmentHint : Name := nameOf "__DISCO_CODE_ALIGNMENT"

def configNames : List Name :=
  [memoryMapping, codeStartAddress, dataAlignment, ramAlignment, codeAlignmentHint, bitmapScbr,
    bitmapScmr]

/-- The words of a text, as stream extraction finds them. -/
def wordsFrom : Text → Text → List Text
  | [], word => if word = [] then [] else [word]
  | byte :: rest, word =>
      if isSpace byte then (if word = [] then [] else [word]) ++ wordsFrom rest []
      else wordsFrom rest (word ++ [byte])

def words (text : Text) : List Text := wordsFrom text []

/-- A number in a range, or a diagnostic. -/
def numberIn (value : Text) (low high : Int) (message : String) (line : Nat) :
    Except Failure Int :=
  match parseNumber value with
  | none => fail message line
  | some number => do
      failIf (number < low ∨ number > high) message line
      .ok number

/-- The mode bits of a bitmap profile; ownership bits belong to the host. -/
def bitmapMode (bitmap : BitmapConfig) (number : Nat) : BitmapConfig :=
  let objectMode : Bool := number &&& 0x24 = 0x24
  { bitmap with
    depth := if number &&& 3 = 3 then 8 else if number &&& 3 = 1 then 4 else 2
    objectMode := objectMode
    height := if objectMode then 256 else if number &&& 0x20 ≠ 0 then 192
      else if number &&& 4 ≠ 0 then 160 else 128 }

def selectMapping (value : Text) (line : Nat) : Except Failure MemoryMapping :=
  if value = nameOf "lorom" then .ok .loROM
  else if value = nameOf "hirom" then .ok .hiROM
  else fail "memory mapping must be lorom or hirom." line

/-- The effect of one definition. -/
def applyDefinition (name value : Text) (line : Nat) (settings : Settings) :
    Except Failure Settings :=
  if name = codeAlignmentHint then do
    failIf (value ≠ nameOf "16") "GSU CODE alignment hint must be 16." line
    .ok { settings with cacheAlignment := true }
  else if name = bitmapScbr ∨ name = bitmapScmr then do
    let number ← numberIn value 0 255 "Invalid bitmap register value." line
    let number := number.toNat
    let bitmap := { settings.config.bitmap with enabled := true }
    if name = bitmapScbr then
      .ok { settings with config := { settings.config with
        bitmap := { bitmap with base := UInt32.ofNat (number <<< 10) } } }
    else do
      failIf (number &&& (0xff ^^^ 0x27) ≠ 0 ∨ number &&& 3 = 2)
        "Invalid bitmap SCMR mode bits (ownership bits are host-owned)." line
      .ok { settings with config := { settings.config with bitmap := bitmapMode bitmap number } }
  else if name = memoryMapping then do
    let mapping ← selectMapping value line
    let start : UInt32 := if codeStartAddress ∈ settings.configDefinitions then
        settings.config.codeStartAddress
      else if mapping = .loROM then 0x008000 else 0x408000
    .ok { settings with config := { settings.config with
      mapping := mapping, codeStartAddress := start } }
  else if name = dataAlignment ∨ name = ramAlignment then do
    let alignment ← numberIn value 1 128 "Section alignment must be a power of two in 1..128." line
    let alignment := alignment.toNat
    failIf (alignment &&& (alignment - 1) ≠ 0)
      "Section alignment must be a power of two in 1..128." line
    if name = dataAlignment then .ok { settings with dataAlignment := UInt8.ofNat alignment }
    else .ok { settings with ramAlignment := UInt8.ofNat alignment }
  else do
    let address ← numberIn value 0 0xFFFFFF "code start address must fit in 24 bits." line
    .ok { settings with config := { settings.config with
      codeStartAddress := UInt32.ofNat address.toNat } }

def parseConfigDefinition (rest : Text) (line : Nat) (settings : Settings) :
    Except Failure Settings :=
  match words rest with
  | [name, value] => do
      failIf (name ∉ configNames) ("unsupported .define name '" ++ nameText name ++ "'.") line
      failIf (name ∈ settings.configDefinitions)
        ("duplicate configuration definition '" ++ nameText name ++ "'.") line
      applyDefinition name value line
        { settings with configDefinitions := settings.configDefinitions ++ [name] }
  | _ => fail ".define expects one reserved configuration name and value." line

/-! ## Lines -/

/-- What has been parsed so far. -/
structure Parsed where
  current : Section := .none
  lines : List ParsedLine := []
  settings : Settings := {}

/-- The section a `.segment` directive selects. -/
def selectSegment (operands : List Text) (line : Nat) : Except Failure Section :=
  match operands with
  | [operand] =>
      let name := lower operand
      if name = 34 :: nameOf "code" ++ [34] then .ok .code
      else if name = 34 :: nameOf "data" ++ [34] then .ok .data
      else if name = 34 :: nameOf "ram" ++ [34] then .ok .ram
      else fail ("unsupported segment " ++ nameText operand ++ ".") line
  | _ => fail ".segment expects one name." line

/-- A definition takes effect at its own line. -/
def statementSettings (operation rest : Text) (line : Nat) (settings : Settings) :
    Except Failure Settings :=
  if operation = nameOf ".define" then parseConfigDefinition rest line settings else .ok settings

/-- A segment directive takes effect behind its own line. -/
def statementSection (operation : Text) (operands : List Text) (line : Nat) (current : Section) :
    Except Failure Section :=
  if operation = nameOf ".segment" then selectSegment operands line else .ok current

/-- A statement: its operation in lower case and the operand list. -/
def parseStatement (raw : Text) (line : ParsedLine) (parsed : Parsed) : Except Failure Parsed := do
  let body := raw.dropWhile isSpace
  let operation := lower (body.takeWhile fun byte => !isSpace byte)
  let rest := body.dropWhile fun byte => !isSpace byte
  let operands := splitOperands rest
  let settings ← statementSettings operation rest line.lineNumber parsed.settings
  let current ← statementSection operation operands line.lineNumber parsed.current
  .ok ⟨current, parsed.lines ++ [{ line with operation := operation, operands := operands }],
    settings⟩

/-- One source line, without its comment. A label ends at a colon before any
blank. -/
def parseLine (parsed : Parsed) (entry : Text × Nat) : Except Failure Parsed :=
  let raw := trim (entry.1.takeWhile fun byte => byte ≠ 59)
  let line : ParsedLine := { lineNumber := entry.2, sect := parsed.current }
  if raw = [] then .ok parsed
  else
    let label := raw.takeWhile fun byte => byte ≠ 58 ∧ byte ≠ 32 ∧ byte ≠ 9
    match raw.drop label.length with
    | 58 :: rest => do
        let line := { line with label := trim label }
        failIf (isIdentifier line.label = false)
          ("invalid label '" ++ nameText line.label ++ "'.") entry.2
        let raw := trim rest
        if raw = [] then .ok { parsed with lines := parsed.lines ++ [line] }
        else parseStatement raw line parsed
    | _ => parseStatement raw line parsed

/-- The lines of a text, as `std::getline` yields them. -/
def splitLinesFrom : Text → Text → List Text
  | [], line => if line = [] then [] else [line]
  | byte :: rest, line =>
      if byte = 10 then line :: splitLinesFrom rest [] else splitLinesFrom rest (line ++ [byte])

def splitLines (source : Text) : List Text := splitLinesFrom source []

def parse (source : Text) : Except Failure Parsed :=
  foldAll parseLine {} ((splitLines source).zipIdx 1)

end Disco.Assembler
