import Disco.Assembler.Parse

/-! # Instruction encodings

`encodeInstruction` serves both passes: the first one keeps the size it
returns, the second one the bytes it emits. The size is therefore stated next
to the bytes, as the source states it, and `encodeInstruction_tidy` shows that
the two agree and that operands stay inside their instruction.
-/

namespace Disco.Assembler

open Library Linker

/-- A short branch displacement to be filled in once all labels are known. -/
structure BranchFixup where
  patchOffset : Nat
  target : Text
  lineNumber : Nat
  deriving DecidableEq, Repr

/-- What encoding one line returns and emits. -/
structure Encoded where
  size : Nat
  bytes : Bytes
  relocations : List RelocationEntry := []
  fixups : List BranchFixup := []
  deriving DecidableEq, Repr

/-! ## Operands -/

def requireOperands (line : ParsedLine) (count : Nat) : Except Failure Unit :=
  failIf (line.operands.length ≠ count)
    (nameText line.operation ++ " expects " ++ toString count ++ " operand(s).") line.lineNumber

/-- An operand whose presence has been checked. -/
def ParsedLine.operand (line : ParsedLine) (index : Nat) : Text := line.operands.getD index []

def requireRegister (operand : Text) (line : ParsedLine) : Except Failure Nat :=
  match parseRegister operand with
  | none => fail ("invalid register '" ++ nameText operand ++ "'.") line.lineNumber
  | some register => .ok register

def requireMemoryRegister (operand : Text) (line : ParsedLine) : Except Failure Nat :=
  match parseMemoryRegister operand with
  | none => fail ("invalid indirect register '" ++ nameText operand ++ "'.") line.lineNumber
  | some register => do
      failIf (register > 11) ("invalid indirect register '" ++ nameText operand ++ "'.")
        line.lineNumber
      .ok register

/-- The low 16 bits of a number. -/
def wordBits (value : Int) : Nat := (value % 65536).toNat

def requireWord (operand : Text) (line : ParsedLine) : Except Failure Nat := do
  let value ← numberIn operand (-32768) 65535
    ("expected a 16-bit numeric value, got '" ++ nameText operand ++ "'.") line.lineNumber
  .ok (wordBits value)

def requireByte (operand : Text) (line : ParsedLine) : Except Failure Nat := do
  let value ← numberIn operand 0 255
    ("expected an 8-bit numeric value, got '" ++ nameText operand ++ "'.") line.lineNumber
  .ok value.toNat

/-! ## Emission -/

def byteOf (value : Nat) : UInt8 := UInt8.ofNat value

def wordBytes (value : Nat) : Bytes := [byteOf (value &&& 0xff), byteOf ((value >>> 8) &&& 0xff)]

/-- The selector of a register operand; R0 needs none. -/
def selector (register : Nat) : Bytes := if register ≠ 0 then [byteOf (0x20 + register)] else []

/-- The bytes the selector adds to an instruction. -/
def selectorSize (register : Nat) : Nat := if register ≠ 0 then 1 else 0

/-- A symbol behind a marker such as `lo24(` and a closing parenthesis. -/
def stripMarker (marker name : Text) : Option Text :=
  if name.length > marker.length + 1 ∧ marker.isPrefixOf name ∧ name.getLast? = some 41 then
    some ((name.drop marker.length).dropLast)
  else none

/-- The symbol and relocation type of a symbolic word. -/
def symbolicWord (operand : Text) (relocation : RelocationType) : Text × RelocationType :=
  let (name, relocation) :=
    match stripMarker (nameOf "lo24(") (withoutHash operand) with
    | some name => (name, .addr24Offset)
    | none => (withoutHash operand, relocation)
  match stripMarker (nameOf "ram(") name with
  | some name => (name, .addr16Ram)
  | none => (name, relocation)

/-- An IWT with a number, or with a symbol for the linker to fill in. -/
def emitImmediateWord (line : ParsedLine) (patch register : Nat) (operand : Text)
    (relocation : RelocationType) : Except Failure (Bytes × List RelocationEntry) :=
  match parseNumber operand with
  | some value => do
      failIf (value < -32768 ∨ value > 65535) "word immediate is out of range." line.lineNumber
      .ok (byteOf (0xf0 ||| register) :: wordBytes (wordBits value), [])
  | none => do
      let (name, relocation) := symbolicWord operand relocation
      failIf (isIdentifier name = false)
        ("invalid symbolic immediate '" ++ nameText operand ++ "'.") line.lineNumber
      .ok (byteOf (0xf0 ||| register) :: wordBytes 0,
        [⟨name, symbolSection line.sect, UInt32.ofNat patch, relocation⟩])

/-! ## Branches -/

def branchNames : List (Text × UInt8) :=
  [(nameOf "bra", 0x05), (nameOf "bge", 0x06), (nameOf "blt", 0x07), (nameOf "bne", 0x08),
    (nameOf "beq", 0x09), (nameOf "bpl", 0x0a), (nameOf "bmi", 0x0b), (nameOf "bcc", 0x0c),
    (nameOf "bcs", 0x0d), (nameOf "bvc", 0x0e), (nameOf "bvs", 0x0f)]

def branchOpcode (operation : Text) : Option UInt8 :=
  (branchNames.find? fun entry => entry.1 = operation).map (·.2)

/-- The branch on the opposite condition. -/
def inverseBranch (opcode : UInt8) : UInt8 := opcode ^^^ 1

/-- The name under which a private label of this object is linked. -/
def internalName (label : Text) : Name := 1 :: label

/-- A branch: short with a displacement to fill in, or relaxed to an absolute
jump that the linker resolves. -/
def encodeBranch (relaxed : List Nat) (line : ParsedLine) (patch : Nat) (opcode : UInt8) :
    Except Failure Encoded := do
  requireOperands line 1
  failIf (line.sect ≠ .code) "branches are only valid in .segment \"CODE\"." line.lineNumber
  let target := line.operand 0
  if line.lineNumber ∈ relaxed then
    if line.operation = nameOf "bra" then
      -- IWT R15, target and the NOP in its delay slot
      .ok { size := 4, bytes := 0xff :: wordBytes 0 ++ [0x01],
            relocations := [⟨internalName target, .code, UInt32.ofNat patch, .addr16Iwt⟩] }
    else
      -- the inverse branch skips its NOP, the IWT and the IWT's NOP
      .ok { size := 7,
            bytes := [inverseBranch opcode, 5, 0x01, 0xff] ++ wordBytes 0 ++ [0x01],
            relocations := [⟨internalName target, .code, UInt32.ofNat (patch + 3), .addr16Iwt⟩] }
  else
    .ok { size := 2, bytes := [opcode, 0],
          fixups := [⟨patch + 1, target, line.lineNumber⟩] }

/-! ## Arithmetic -/

/-- Opcode base and prefixes of an arithmetic operation. -/
structure Arithmetic where
  base : Nat
  immediateAlt1 : Bool := false
  immediateAlt3 : Bool := false
  registerAlt1 : Bool := false
  registerAlt3 : Bool := false
  /-- Operands count from one and exclude R0. -/
  logical : Bool := false
  /-- There is no immediate form. -/
  registerOnly : Bool := false
  deriving DecidableEq, Repr

def arithmeticNames : List (Text × Arithmetic) :=
  [(nameOf "add", { base := 0x50 }),
    (nameOf "adc", { base := 0x50, registerAlt1 := true, immediateAlt3 := true }),
    (nameOf "sub", { base := 0x60 }),
    (nameOf "sbc", { base := 0x60, registerAlt1 := true, registerOnly := true }),
    (nameOf "mult", { base := 0x80 }),
    (nameOf "umult", { base := 0x80, registerAlt1 := true, immediateAlt3 := true }),
    (nameOf "cmp", { base := 0x60, registerAlt3 := true, registerOnly := true }),
    (nameOf "and", { base := 0x71, logical := true }),
    (nameOf "or", { base := 0xc1, logical := true }),
    (nameOf "bic", { base := 0x71, registerAlt1 := true, immediateAlt1 := true, logical := true }),
    (nameOf "xor", { base := 0xc1, registerAlt1 := true, immediateAlt1 := true, logical := true })]

def arithmeticOf (operation : Text) : Option Arithmetic :=
  (arithmeticNames.find? fun entry => entry.1 = operation).map (·.2)

/-- The prefixes of the register form. -/
def registerPrefixes (kind : Arithmetic) : Bytes :=
  (if kind.registerAlt1 then [0x3d] else []) ++ (if kind.registerAlt3 then [0x3f] else [])

def registerPrefixesSize (kind : Arithmetic) : Nat :=
  (if kind.registerAlt1 then 1 else 0) + (if kind.registerAlt3 then 1 else 0)

/-- The opcode of the register form; the source subtracts before it narrows. -/
def registerOpcode (kind : Arithmetic) (register : Nat) : UInt8 :=
  byteOf (if kind.logical then kind.base + register - 1 else kind.base + register)

/-- The form on the selected registers alone. -/
def encodeArithmeticOne (kind : Arithmetic) (line : ParsedLine) : Except Failure Encoded :=
  match parseNumber (line.operand 0) with
  | some value => do
      failIf (kind.registerOnly = true) "this arithmetic operation has no immediate form."
        line.lineNumber
      failIf (value < (if kind.logical then 1 else 0) ∨ value > 15)
        "immediate arithmetic value is out of range." line.lineNumber
      .ok { size := 2,
            bytes := [if kind.immediateAlt1 then 0x3d else if kind.immediateAlt3 then 0x3f else 0x3e,
              byteOf (kind.base + value.toNat - (if kind.logical then 1 else 0))] }
  | none => do
      let register ← requireRegister (line.operand 0) line
      failIf (register = 0 ∧ kind.logical = true) "register R0 is not valid for this operation."
        line.lineNumber
      .ok { size := 1 + registerPrefixesSize kind,
            bytes := registerPrefixes kind ++ [registerOpcode kind register] }

/-- The form with a destination; no check excludes SBC with an immediate. -/
def encodeArithmeticTwo (kind : Arithmetic) (line : ParsedLine) : Except Failure Encoded := do
  let dest ← requireRegister (line.operand 0) line
  match parseNumber (line.operand 1) with
  | some value => do
      failIf (value < 0 ∨ value > 15 ∨ line.operation = nameOf "cmp")
        "invalid two-operand immediate arithmetic form." line.lineNumber
      .ok { size := 2 + selectorSize dest,
            bytes := selector dest ++ [0x3e, byteOf (kind.base + value.toNat)] }
  | none => do
      let source ← requireRegister (line.operand 1) line
      .ok { size := 1 + selectorSize dest + registerPrefixesSize kind,
            bytes := selector dest ++ registerPrefixes kind ++ [registerOpcode kind source] }

/-- The form that names its destination twice. -/
def encodeArithmeticThree (kind : Arithmetic) (line : ParsedLine) : Except Failure Encoded := do
  requireOperands line 3
  let dest ← requireRegister (line.operand 0) line
  let left ← requireRegister (line.operand 1) line
  failIf (dest ≠ left)
    "three-operand arithmetic requires destination and left operand to match." line.lineNumber
  match parseNumber (line.operand 2) with
  | some value => do
      failIf (kind.registerOnly = true ∨ value < 0 ∨ value > 15)
        "immediate arithmetic value is out of range." line.lineNumber
      .ok { size := 2 + selectorSize dest,
            bytes := selector dest ++ [0x3e, byteOf (kind.base + value.toNat)] }
  | none => do
      let source ← requireRegister (line.operand 2) line
      .ok { size := 1 + selectorSize dest + registerPrefixesSize kind,
            bytes := selector dest ++ registerPrefixes kind ++ [registerOpcode kind source] }

def encodeArithmetic (kind : Arithmetic) (line : ParsedLine) : Except Failure Encoded :=
  match line.operands.length with
  | 1 => encodeArithmeticOne kind line
  | 2 => encodeArithmeticTwo kind line
  | _ => encodeArithmeticThree kind line

/-! ## Fixed encodings -/

def impliedNames : List (Text × UInt8) :=
  [(nameOf "stop", 0x00), (nameOf "nop", 0x01), (nameOf "cache", 0x02), (nameOf "lsr", 0x03),
    (nameOf "rol", 0x04), (nameOf "loop", 0x3c), (nameOf "plot", 0x4c), (nameOf "color", 0x4e),
    (nameOf "swap", 0x4d), (nameOf "not", 0x4f), (nameOf "merge", 0x70), (nameOf "msbk", 0x90),
    (nameOf "sex", 0x95), (nameOf "asr", 0x96), (nameOf "ror", 0x97), (nameOf "lob", 0x9e),
    (nameOf "hib", 0xc0), (nameOf "getc", 0xdf), (nameOf "getb", 0xef), (nameOf "alt1", 0x3d),
    (nameOf "alt2", 0x3e), (nameOf "alt3", 0x3f), (nameOf "ret", 0x9b)]

/-- Operations with a prefix of their own. -/
def prefixedNames : List (Text × Bytes) :=
  [(nameOf "rpix", [0x3d, 0x4c]), (nameOf "cmode", [0x3d, 0x4e]), (nameOf "div2", [0x3d, 0x96]),
    (nameOf "ramb", [0x3e, 0xdf]), (nameOf "romb", [0x3f, 0xdf]), (nameOf "getbh", [0x3f, 0xef]),
    (nameOf "getbl", [0x3f, 0xef]), (nameOf "getbs", [0x3f, 0xef])]

/-- An operation without operands. -/
def encodeImplied (line : ParsedLine) (bytes : Bytes) (size : Nat) : Except Failure Encoded := do
  requireOperands line 0
  .ok { size := size, bytes := bytes }

/-- TO, WITH and FROM. -/
def encodeSelector (line : ParsedLine) (base : Nat) : Except Failure Encoded := do
  requireOperands line 1
  let register ← requireRegister (line.operand 0) line
  .ok { size := 1, bytes := [byteOf (base + register)] }

/-- INC and DEC. -/
def encodeStep (line : ParsedLine) (base : Nat) : Except Failure Encoded := do
  requireOperands line 1
  let register ← requireRegister (line.operand 0) line
  failIf (register = 15) "increment/decrement cannot target R15." line.lineNumber
  .ok { size := 1, bytes := [byteOf (base + register)] }

/-- JMP and LJMP. -/
def encodeJump (line : ParsedLine) (long : Bool) : Except Failure Encoded := do
  requireOperands line 1
  let register ← requireRegister (line.operand 0) line
  failIf (register < 8 ∨ register > 13) "JMP requires a register from R8 to R13." line.lineNumber
  .ok { size := if long then 2 else 1,
        bytes := (if long then [0x3d] else []) ++ [byteOf (0x98 + register - 8)] }

def encodeLink (line : ParsedLine) : Except Failure Encoded := do
  requireOperands line 1
  let value ← requireByte (withoutHash (line.operand 0)) line
  failIf (value < 1 ∨ value > 4) "LINK immediate must be in 1..4." line.lineNumber
  .ok { size := 1, bytes := [byteOf (0x91 + value - 1)] }

/-- `LINK #4; IWT R15, target`. -/
def encodeJal (line : ParsedLine) (patch : Nat) : Except Failure Encoded := do
  requireOperands line 1
  let (bytes, relocations) ← emitImmediateWord line (patch + 1) 15 (35 :: line.operand 0) .addr16Jal
  .ok { size := 4, bytes := 0x94 :: bytes, relocations := relocations }

/-! ## Immediates -/

def encodeIbt (line : ParsedLine) (patch : Nat) : Except Failure Encoded := do
  requireOperands line 2
  let register ← requireRegister (line.operand 0) line
  match withoutHash (line.operand 1) with
  | 94 :: name => do
      failIf (isIdentifier name = false) "invalid bank relocation symbol." line.lineNumber
      .ok { size := 2, bytes := [byteOf (0xa0 + register), 0],
            relocations := [⟨name, symbolSection line.sect, UInt32.ofNat patch, .addr24Bank⟩] }
  | operand => do
      let value ← requireByte operand line
      .ok { size := 2, bytes := [byteOf (0xa0 + register), byteOf value] }

/-- IWT and LEA. -/
def encodeIwt (line : ParsedLine) (patch : Nat) : Except Failure Encoded := do
  requireOperands line 2
  let register ← requireRegister (line.operand 0) line
  let (bytes, relocations) ← emitImmediateWord line patch register (line.operand 1) .addr16Iwt
  .ok { size := 3, bytes := bytes, relocations := relocations }

/-- The immediate form of MOVE: a byte when the number is one. -/
def encodeMoveImmediate (line : ParsedLine) (patch destination : Nat) :
    Except Failure Encoded :=
  match parseNumber (line.operand 1) with
  | none => do
      let (bytes, relocations) ←
        emitImmediateWord line patch destination (line.operand 1) .addr16Iwt
      .ok { size := 3, bytes := bytes, relocations := relocations }
  | some value =>
      if 0 ≤ value ∧ value ≤ 255 then
        .ok { size := 2, bytes := [byteOf (0xa0 + destination), byteOf value.toNat] }
      else .ok { size := 3, bytes := byteOf (0xf0 + destination) :: wordBytes (wordBits value) }

/-! ## Memory -/

/-- A load or store through a register. -/
def memoryAccess (register : Nat) (byte : Bool) (opcode : Nat) : Encoded where
  size := selectorSize register + (if byte then 1 else 0) + 1
  bytes := selector register ++ (if byte then [0x3d] else []) ++ [byteOf opcode]

/-- MOVE, MOVEB and MOVEW choose their form by what their operands are. -/
def encodeMove (line : ParsedLine) (patch : Nat) : Except Failure Encoded := do
  requireOperands line 2
  let plain : Bool := line.operation = nameOf "move"
  let byte : Bool := line.operation = nameOf "moveb"
  match parseRegister (line.operand 0), parseRegister (line.operand 1),
      parseMemoryRegister (line.operand 0), parseMemoryRegister (line.operand 1) with
  | some destination, some source, _, _ => do
      failIf (plain = false) "MOVEB/MOVEW register-to-register form is unsupported." line.lineNumber
      .ok { size := 2, bytes := [byteOf (0x20 + source), byteOf (0x10 + destination)] }
  | some destination, none, _, some memory => .ok (memoryAccess destination byte (0x40 + memory))
  | none, some source, some memory, _ => .ok (memoryAccess source byte (0x30 + memory))
  | some destination, none, _, none =>
      if (line.operand 1).head? = some 35 then do
        failIf (plain = false) "MOVEB/MOVEW immediate form is unsupported." line.lineNumber
        encodeMoveImmediate line patch destination
      else fail "unsupported MOVE operand form." line.lineNumber
  | _, _, _, _ => fail "unsupported MOVE operand form." line.lineNumber

/-- STW, STB, LDW and LDB; with one operand the current selectors apply. -/
def encodeAccess (line : ParsedLine) (store byte : Bool) : Except Failure Encoded :=
  let base := if store then 0x30 else 0x40
  match line.operands with
  | [operand] => do
      let memory ← requireMemoryRegister operand line
      .ok { size := if byte then 2 else 1,
            bytes := (if byte then [0x3d] else []) ++ [byteOf (base + memory)] }
  | _ => do
      requireOperands line 2
      let memory ← requireMemoryRegister (line.operand (if store then 0 else 1)) line
      let register ← requireRegister (line.operand (if store then 1 else 0)) line
      .ok (memoryAccess register byte (base + memory))

/-- PUSH, POP, PUSHB and POPB around the stack pointer steps they use. -/
def encodeStack (line : ParsedLine) (before after : Bytes) : Except Failure Encoded := do
  requireOperands line 1
  let register ← requireRegister (line.operand 0) line
  .ok { size := if register ≠ 0 then 4 else 3, bytes := before ++ selector register ++ after }

/-- LM, LMS, SM and SMS. -/
def encodeLongMemory (line : ParsedLine) (load short : Bool) : Except Failure Encoded := do
  requireOperands line 2
  let register ← requireRegister (line.operand (if load then 0 else 1)) line
  let address ← requireWord (line.operand (if load then 1 else 0)) line
  if short then do
    failIf (address % 2 ≠ 0 ∨ address > 510) "short memory address must be even and <= 510."
      line.lineNumber
    .ok { size := 3, bytes := [if load then 0x3d else 0x3e, byteOf (0xa0 + register),
      byteOf (address / 2)] }
  else
    .ok { size := 4, bytes := [if load then 0x3d else 0x3e, byteOf (0xf0 + register)] ++
      wordBytes address }

/-! ## Dispatch -/

/-- Operations that are neither branches, fixed encodings nor arithmetic. -/
def otherEncodings (line : ParsedLine) (patch : Nat) : List (Text × Except Failure Encoded) :=
  [(nameOf "to", encodeSelector line 0x10), (nameOf "with", encodeSelector line 0x20),
    (nameOf "from", encodeSelector line 0xb0), (nameOf "inc", encodeStep line 0xd0),
    (nameOf "dec", encodeStep line 0xe0), (nameOf "jmp", encodeJump line false),
    (nameOf "ljmp", encodeJump line true), (nameOf "link", encodeLink line),
    (nameOf "jal", encodeJal line patch), (nameOf "ibt", encodeIbt line patch),
    (nameOf "iwt", encodeIwt line patch), (nameOf "lea", encodeIwt line patch),
    (nameOf "move", encodeMove line patch), (nameOf "moveb", encodeMove line patch),
    (nameOf "movew", encodeMove line patch), (nameOf "stw", encodeAccess line true false),
    (nameOf "stb", encodeAccess line true true), (nameOf "ldw", encodeAccess line false false),
    (nameOf "ldb", encodeAccess line false true),
    (nameOf "push", encodeStack line [] [0x3a, 0xea, 0xea]),
    (nameOf "pop", encodeStack line [0xda, 0xda] [0x4a]),
    (nameOf "pushb", encodeStack line [] [0x3d, 0x3a, 0xe0]),
    (nameOf "popb", encodeStack line [0xd0] [0x3d, 0x4a]),
    (nameOf "lm", encodeLongMemory line true false), (nameOf "lms", encodeLongMemory line true true),
    (nameOf "sm", encodeLongMemory line false false),
    (nameOf "sms", encodeLongMemory line false true)]

def encodeOther (line : ParsedLine) (patch : Nat) : Except Failure Encoded :=
  match (otherEncodings line patch).find? fun entry => entry.1 = line.operation with
  | some entry => entry.2
  | none => fail ("unknown instruction or directive '" ++ nameText line.operation ++ "'.")
      line.lineNumber

/-- One instruction at a patch offset. The operations are disjoint, so the
tables may be searched in any order. -/
def encodeInstruction (relaxed : List Nat) (line : ParsedLine) (patch : Nat) :
    Except Failure Encoded :=
  match branchOpcode line.operation with
  | some opcode => encodeBranch relaxed line patch opcode
  | none =>
      match impliedNames.find? fun entry => entry.1 = line.operation with
      | some entry => encodeImplied line [entry.2] 1
      | none =>
          match prefixedNames.find? fun entry => entry.1 = line.operation with
          | some entry => encodeImplied line entry.2 2
          | none =>
              match arithmeticOf line.operation with
              | some kind => encodeArithmetic kind line
              | none => encodeOther line patch

/-! ## Sizes and operands -/

/-- The returned size is the number of bytes, and every operand to be filled
in later lies inside the instruction. -/
structure Encoded.Tidy (line : ParsedLine) (patch : Nat) (encoded : Encoded) : Prop where
  size : encoded.size = encoded.bytes.length
  relocations : ∀ relocation ∈ encoded.relocations,
    relocation.sectionToPatch = symbolSection line.sect ∧
    ∃ offset, relocation.patchOffset = UInt32.ofNat offset ∧ patch ≤ offset ∧
      offset + relocation.type.patchSize ≤ patch + encoded.bytes.length
  fixups : ∀ fixup ∈ encoded.fixups, line.sect = .code ∧ patch ≤ fixup.patchOffset ∧
    fixup.patchOffset < patch + encoded.bytes.length

section Tidy

variable (line : ParsedLine) (patch : Nat)

/-- An encoding that is tidy whatever its operands are. -/
def TidyEncoding (encoding : Except Failure Encoded) : Prop :=
  Ends (Encoded.Tidy line patch) (fun _ => True) encoding

/-- An instruction without operands to fill in is tidy when its size is right. -/
theorem tidy_plain {bytes : Bytes} {size : Nat} (h : size = bytes.length) :
    Encoded.Tidy line patch { size := size, bytes := bytes } where
  size := h
  relocations := by simp
  fixups := by simp

theorem selector_length (register : Nat) : (selector register).length = selectorSize register := by
  unfold selector selectorSize
  split <;> rfl

theorem registerPrefixes_length (kind : Arithmetic) :
    (registerPrefixes kind).length = registerPrefixesSize kind := by
  unfold registerPrefixes registerPrefixesSize
  cases kind.registerAlt1 <;> cases kind.registerAlt3 <;> rfl

theorem tidy_memoryAccess (register : Nat) (byte : Bool) (opcode : Nat) :
    (memoryAccess register byte opcode).Tidy line patch := by
  apply tidy_plain
  cases byte <;> simp [selector_length]

/-- A symbolic or numeric word is three bytes whose relocation is at its front. -/
theorem emitImmediateWord_ends (register : Nat) (operand : Text) (relocation : RelocationType) :
    Ends (fun result => result.1.length = 3 ∧ ∀ entry ∈ result.2,
        entry.sectionToPatch = symbolSection line.sect ∧ entry.patchOffset = UInt32.ofNat patch)
      (fun _ => True) (emitImmediateWord line patch register operand relocation) := by
  unfold emitImmediateWord
  split
  · refine Ends.last fun _ => ?_
    exact ⟨rfl, by simp⟩
  · refine Ends.last fun _ => ?_
    refine ⟨rfl, ?_⟩
    intro entry hm
    rw [List.mem_singleton] at hm
    subst hm
    exact ⟨rfl, rfl⟩

/-- A word behind `lead` other bytes. -/
theorem tidy_word (lead : Bytes) {bytes : Bytes} {relocations : List RelocationEntry} {size : Nat}
    (hsize : size = lead.length + 3)
    (h : bytes.length = 3 ∧ ∀ entry ∈ relocations, entry.sectionToPatch = symbolSection line.sect ∧
      entry.patchOffset = UInt32.ofNat (patch + lead.length)) :
    Encoded.Tidy line patch
      { size := size, bytes := lead ++ bytes, relocations := relocations } where
  size := by simp [hsize, h.1]
  relocations := by
    intro entry hm
    obtain ⟨hs, ho⟩ := h.2 entry hm
    have hbound := (RelocationType.patchSize_bounds entry.type).2
    refine ⟨hs, _, ho, Nat.le_add_right _ _, ?_⟩
    rw [List.length_append, h.1]
    omega
  fixups := by simp

theorem encodeBranch_tidy (relaxed : List Nat) (opcode : UInt8) :
    TidyEncoding line patch (encodeBranch relaxed line patch opcode) := by
  unfold encodeBranch failIf rejectIf
  refine Ends.last fun _ => ?_
  split
  · trivial
  · rename_i hs
    rw [not_not] at hs
    simp only [ok_bind]
    split
    · split
      · refine ⟨rfl, ?_, by simp⟩
        intro entry hm
        rw [List.mem_singleton] at hm
        subst hm
        exact ⟨by rw [hs]; rfl, patch, rfl, le_rfl, by simp [wordBytes, RelocationType.patchSize]⟩
      · refine ⟨rfl, ?_, by simp⟩
        intro entry hm
        rw [List.mem_singleton] at hm
        subst hm
        exact ⟨by rw [hs]; rfl, patch + 3, rfl, Nat.le_add_right _ _,
          by simp [wordBytes, RelocationType.patchSize]⟩
    · refine ⟨rfl, by simp, ?_⟩
      intro fixup hm
      rw [List.mem_singleton] at hm
      subst hm
      exact ⟨hs, Nat.le_add_right _ _, by simp⟩

theorem encodeArithmetic_tidy (kind : Arithmetic) :
    TidyEncoding line patch (encodeArithmetic kind line) := by
  unfold encodeArithmetic
  split
  · unfold encodeArithmeticOne
    split
    · refine Ends.last fun _ => Ends.last fun _ => ?_
      exact tidy_plain line patch rfl
    · refine Ends.last fun _ => Ends.last fun _ => ?_
      exact tidy_plain line patch (by simp [registerPrefixes_length, Nat.add_comm])
  · unfold encodeArithmeticTwo
    refine Ends.last fun _ => ?_
    split
    · refine Ends.last fun _ => ?_
      exact tidy_plain line patch (by simp [selector_length, Nat.add_comm])
    · refine Ends.last fun _ => ?_
      exact tidy_plain line patch (by simp [selector_length, registerPrefixes_length]; omega)
  · unfold encodeArithmeticThree
    refine Ends.last fun _ => Ends.last fun _ => Ends.last fun _ => Ends.last fun _ => ?_
    split
    · refine Ends.last fun _ => ?_
      exact tidy_plain line patch (by simp [selector_length, Nat.add_comm])
    · refine Ends.last fun _ => ?_
      exact tidy_plain line patch (by simp [selector_length, registerPrefixes_length]; omega)

theorem encodeIbt_tidy : TidyEncoding line patch (encodeIbt line patch) := by
  unfold encodeIbt
  refine Ends.last fun _ => Ends.last fun _ => ?_
  split
  · refine Ends.last fun _ => ⟨rfl, ?_, by simp⟩
    intro entry hm
    rw [List.mem_singleton] at hm
    subst hm
    exact ⟨rfl, patch, rfl, le_rfl, le_rfl⟩
  · exact Ends.last fun _ => tidy_plain line patch rfl

theorem encodeMove_tidy :
    TidyEncoding line patch (encodeMove line patch) := by
  unfold encodeMove
  refine Ends.last fun _ => ?_
  dsimp only
  split
  · exact Ends.last fun _ => tidy_plain line patch rfl
  · exact tidy_memoryAccess line patch _ _ _
  · exact tidy_memoryAccess line patch _ _ _
  · split
    · refine Ends.last fun _ => ?_
      unfold encodeMoveImmediate
      split
      · refine (emitImmediateWord_ends line patch _ _ _).bind fun result h => ?_
        exact tidy_word line patch [] rfl h
      · split
        · exact tidy_plain line patch rfl
        · exact tidy_plain line patch rfl
    · trivial
  · trivial

theorem encodeSelector_tidy (base : Nat) : TidyEncoding line patch (encodeSelector line base) :=
  Ends.last fun _ => Ends.last fun _ => tidy_plain line patch rfl

theorem encodeStep_tidy (base : Nat) : TidyEncoding line patch (encodeStep line base) :=
  Ends.last fun _ => Ends.last fun _ => Ends.last fun _ => tidy_plain line patch rfl

theorem encodeJump_tidy (long : Bool) : TidyEncoding line patch (encodeJump line long) := by
  refine Ends.last fun _ => Ends.last fun _ => Ends.last fun _ => tidy_plain line patch ?_
  cases long <;> rfl

theorem encodeLink_tidy : TidyEncoding line patch (encodeLink line) :=
  Ends.last fun _ => Ends.last fun _ => Ends.last fun _ => tidy_plain line patch rfl

theorem encodeJal_tidy : TidyEncoding line patch (encodeJal line patch) := by
  refine Ends.last fun _ => (emitImmediateWord_ends line (patch + 1) _ _ _).bind ?_
  intro result h
  exact tidy_word line patch [0x94] rfl h

theorem encodeIwt_tidy : TidyEncoding line patch (encodeIwt line patch) := by
  refine Ends.last fun _ => Ends.last fun _ => (emitImmediateWord_ends line patch _ _ _).bind ?_
  intro result h
  exact tidy_word line patch [] rfl h

theorem encodeAccess_tidy (store byte : Bool) :
    TidyEncoding line patch (encodeAccess line store byte) := by
  unfold encodeAccess
  dsimp only
  split
  · refine Ends.last fun _ => tidy_plain line patch ?_
    cases byte <;> rfl
  · exact Ends.last fun _ => Ends.last fun _ => Ends.last fun _ =>
      tidy_memoryAccess line patch _ _ _

theorem encodeStack_tidy {before after : Bytes} (h : before.length + after.length = 3) :
    TidyEncoding line patch (encodeStack line before after) := by
  refine Ends.last fun _ => Ends.last fun register => tidy_plain line patch ?_
  simp only [List.length_append, selector_length, selectorSize]
  split <;> omega

theorem encodeLongMemory_tidy (load short : Bool) :
    TidyEncoding line patch (encodeLongMemory line load short) := by
  refine Ends.last fun _ => Ends.last fun _ => Ends.last fun _ => ?_
  split
  · exact Ends.last fun _ => tidy_plain line patch rfl
  · exact tidy_plain line patch rfl

theorem otherEncodings_tidy :
    ∀ entry ∈ otherEncodings line patch, TidyEncoding line patch entry.2 := by
  have hsel := encodeSelector_tidy line patch
  have hstep := encodeStep_tidy line patch
  have hjump := encodeJump_tidy line patch
  have hmove := encodeMove_tidy line patch
  have hiwt := encodeIwt_tidy line patch
  have haccess := encodeAccess_tidy line patch
  have hlong := encodeLongMemory_tidy line patch
  simp only [otherEncodings, List.forall_mem_cons, List.not_mem_nil, false_implies, implies_true,
    and_true]
  exact ⟨hsel _, hsel _, hsel _, hstep _, hstep _, hjump _, hjump _, encodeLink_tidy line patch,
    encodeJal_tidy line patch, encodeIbt_tidy line patch, hiwt, hiwt, hmove, hmove, hmove,
    haccess _ _, haccess _ _, haccess _ _, haccess _ _, encodeStack_tidy line patch rfl,
    encodeStack_tidy line patch rfl, encodeStack_tidy line patch rfl,
    encodeStack_tidy line patch rfl, hlong _ _, hlong _ _, hlong _ _, hlong _ _⟩

theorem encodeOther_tidy : TidyEncoding line patch (encodeOther line patch) := by
  unfold encodeOther
  split
  · rename_i entry h
    exact otherEncodings_tidy line patch entry (List.mem_of_find?_eq_some h)
  · trivial

theorem prefixedNames_length {name : Text} {entry : Text × Bytes}
    (h : (prefixedNames.find? fun entry => entry.1 = name) = some entry) : entry.2.length = 2 := by
  have hm := List.mem_of_find?_eq_some h
  have hall : ∀ entry ∈ prefixedNames, entry.2.length = 2 := by decide
  exact hall entry hm

/-- Both passes agree on the size of every instruction form. -/
theorem encodeInstruction_tidy (relaxed : List Nat) :
    TidyEncoding line patch (encodeInstruction relaxed line patch) := by
  unfold encodeInstruction
  split
  · exact encodeBranch_tidy line patch relaxed _
  · split
    · exact Ends.last fun _ => tidy_plain line patch rfl
    · split
      · rename_i entry h
        exact Ends.last fun _ => tidy_plain line patch (prefixedNames_length h).symm
      · split
        · exact encodeArithmetic_tidy line patch _
        · exact encodeOther_tidy line patch

end Tidy

end Disco.Assembler
