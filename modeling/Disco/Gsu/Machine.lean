import Disco.Gsu.Graphics
import Disco.Library.Codec
import Disco.Library.Transition

/-! # The GSU

The instruction-level machine: sixteen word registers with R15 as program
counter, source and destination selectors, ALT prefixes, a one-byte prefetch
pipeline in front of an instruction cache, cartridge RAM and ROM, and the
plotting hardware. The byte in the pipeline runs even when the instruction
before it has changed R15: that is the delay slot.
-/

namespace Disco.Gsu

open Library

instance sixteenRegisters : NeZero 16 := ⟨by decide⟩

/-! ## Memory -/

/-- The linked payload in its bank, and the cartridge ROM. -/
structure Program where
  /-- The 24-bit address of the first payload byte. -/
  origin : Nat
  size : Nat
  rom : Nat → Byte

/-- The bank that R15 is completed with. -/
def Program.bank (program : Program) : Nat := program.origin / 65536

/-- The offset of the payload in its bank. -/
def Program.base (program : Program) : Nat := program.origin % 65536

def romIndex (address : Nat) : Except Fault Nat :=
  let bank := address / 65536
  let offset := address % 65536
  if bank < 0x40 ∧ offset ≥ 0x8000 then .ok (bank * 32768 + offset - 0x8000)
  else if bank ≥ 0x40 ∧ bank ≤ 0x5f then .ok ((bank - 0x40) * 65536 + offset)
  else .error .romAddress

def Program.readRom (program : Program) (address : Nat) : Except Fault Byte := do
  let index ← romIndex address
  .ok (program.rom index)

/-! ## Registers -/

/-- What an instruction reads and changes, apart from the fetch unit. -/
structure Core where
  registers : Fin 16 → Word
  ram : Ram
  graphics : Graphics := {}
  ramBank : Byte := 0
  romBank : Byte := 0
  /-- The RAM address of the last access. -/
  ramAddress : Word := 0
  source : Fin 16 := 0
  destination : Fin 16 := 0
  pcWritten : Bool := false
  /-- WITH was the last prefix. -/
  prefixSet : Bool := false
  alt1 : Bool := false
  alt2 : Bool := false
  zero : Bool := false
  sign : Bool := false
  carry : Bool := false
  overflow : Bool := false

namespace Core

def pc (core : Core) : Word := core.registers 15

def setPc (core : Core) (pc : Word) : Core :=
  { core with registers := Function.update core.registers 15 pc }

def write (core : Core) (index : Fin 16) (value : Word) : Core :=
  { core with
    registers := Function.update core.registers index value
    pcWritten := core.pcWritten || index = 15 }

def resetSelectors (core : Core) : Core :=
  { core with source := 0, destination := 0, prefixSet := false, alt1 := false, alt2 := false }

def setZeroSign (core : Core) (value : Word) : Core :=
  { core with zero := value = 0, sign := value.msb }

/-- Store a result, set Z and S from it and end the instruction. -/
def result (core : Core) (value : Word) : Core :=
  ((core.write core.destination value).setZeroSign value).resetSelectors

def sourceValue (core : Core) : Word := core.registers core.source

/-- The index in RAM of a word address in the current bank. -/
def ramIndex (core : Core) (address : Word) : Nat := core.ramBank.toNat * 65536 + address.toNat

/-- Store a byte, or a word with its high byte at the other half of the pair. -/
def store (core : Core) (address value : Word) (byteOnly : Bool) : Except Fault Core := do
  let index := core.ramIndex address
  let ram ← writeRam core.ram index (value.setWidth 8)
  let ram ← if byteOnly then .ok ram else writeRam ram (index ^^^ 1) ((value >>> 8).setWidth 8)
  .ok { core with ram := ram }

def loadWord (core : Core) (address : Word) : Except Fault Word := do
  rejectIf (core.ramBank.toNat > 1) Fault.ramBank
  let index := core.ramIndex address
  let low ← readRam core.ram index
  let high ← readRam core.ram (index ^^^ 1)
  .ok (low.setWidth 16 ||| (high.setWidth 16 <<< 8))

def loadByte (core : Core) (address : Word) : Except Fault Word := do
  let value ← readRam core.ram (core.ramIndex address)
  .ok (value.setWidth 16)

end Core

/-! ## Instructions -/

/-- The condition of a branch opcode. -/
def branchTaken (opcode : Byte) (core : Core) : Bool :=
  match opcode.toNat with
  | 5 => true
  | 6 => core.sign == core.overflow
  | 7 => core.sign != core.overflow
  | 8 => !core.zero
  | 9 => core.zero
  | 10 => !core.sign
  | 11 => core.sign
  | 12 => !core.carry
  | 13 => core.carry
  | 14 => !core.overflow
  | 15 => core.overflow
  | _ => false

/-- LSR, ROL, ASR or DIV2, ROR. -/
def shift (core : Core) (opcode : Nat) : Core :=
  let source := core.sourceValue
  if opcode = 0x04 then
    let value := (source <<< 1) ||| if core.carry then 1 else 0
    { core with carry := source.msb }.result value
  else
    let high : Word := if opcode = 0x96 then source &&& 0x8000
      else if opcode = 0x97 ∧ core.carry = true then 0x8000 else 0
    let value := (source >>> 1) ||| high
    -- DIV2 rounds -1 to zero
    let value := if opcode = 0x96 ∧ core.alt1 = true ∧ source = 0xffff then value + 1 else value
    { core with carry := source.getLsbD 0 }.result value

/-- ADD and ADC. -/
def add (core : Core) (right : Word) : Core :=
  let left := core.sourceValue
  let sum := left.toNat + right.toNat + if core.alt1 && core.carry then 1 else 0
  let value := BitVec.ofNat 16 sum
  { core with
    carry := decide (sum > 65535)
    overflow := ((~~~(left ^^^ right)) &&& (left ^^^ value)).msb }.result value

/-- SUB, SBC and CMP; the last one keeps only the flags. -/
def subtract (core : Core) (right : Word) : Core :=
  let left := core.sourceValue
  let difference : Int := (left.toNat : Int) - right.toNat -
    if core.alt1 && !core.alt2 && !core.carry then 1 else 0
  let value := BitVec.ofInt 16 difference
  let core := { core with
    carry := decide (difference ≥ 0)
    overflow := ((left ^^^ right) &&& (left ^^^ value)).msb }
  if core.alt1 && core.alt2 then (core.setZeroSign value).resetSelectors else core.result value

/-- MULT and UMULT. -/
def multiply (core : Core) (right : Word) : Core :=
  let left := core.sourceValue.setWidth 8
  let right := right.setWidth 8
  core.result (if core.alt1 then left.setWidth 16 * right.setWidth 16
    else left.signExtend 16 * right.signExtend 16)

/-- LMULT: the low word goes to R4. -/
def longMultiply (core : Core) : Core :=
  let product : BitVec 32 :=
    core.sourceValue.signExtend 32 * (core.registers 6).signExtend 32
  let core := { core with
    registers := Function.update core.registers 4 (product.setWidth 16) }
  core.result ((product >>> 16).setWidth 16)

/-- GETB in its four forms. -/
def getByte (core : Core) (fetched : Byte) : Word :=
  if core.alt1 && core.alt2 then fetched.signExtend 16
  else if core.alt1 then (core.sourceValue &&& 255) ||| (fetched.setWidth 16 <<< 8)
  else if core.alt2 then (core.sourceValue &&& 0xff00) ||| fetched.setWidth 16
  else fetched.setWidth 16

/-- An instruction that fetches no operand. -/
def perform (program : Program) (opcode : Byte) (core : Core) : Except Fault Core :=
  let op := opcode.toNat
  let index : Fin 16 := Fin.ofNat 16 op
  let register := core.registers index
  -- ALT2 replaces the register operand by its number
  let right : Word := if core.alt2 then BitVec.ofNat 16 index.val else register
  if op = 0x01 then .ok core.resetSelectors
  -- the effect of CACHE is the fetch unit's
  else if op = 0x02 then .ok core.resetSelectors
  else if 0x10 ≤ op ∧ op ≤ 0x1f then
    if core.prefixSet then .ok (core.write index core.sourceValue).resetSelectors
    else .ok { core with destination := index }
  else if 0x20 ≤ op ∧ op ≤ 0x2f then
    .ok { core with source := index, destination := index, prefixSet := true }
  else if 0x30 ≤ op ∧ op ≤ 0x3b then do
    let core := { core with ramAddress := register }
    let core ← core.store register core.sourceValue core.alt1
    .ok core.resetSelectors
  else if op = 0x3c then
    let count := core.registers 12 - 1
    let core := { core with registers := Function.update core.registers 12 count }
    let core := core.setZeroSign count
    .ok (if core.zero then core else core.write 15 (core.registers 13)).resetSelectors
  else if 0x3d ≤ op ∧ op ≤ 0x3f then
    .ok { core with
      alt1 := core.alt1 || op ≠ 0x3e, alt2 := core.alt2 || op ≠ 0x3d, prefixSet := false }
  else if 0x40 ≤ op ∧ op ≤ 0x4b then do
    let core := { core with ramAddress := register }
    let value ← if core.alt1 then core.loadByte register else core.loadWord register
    .ok (core.write core.destination value).resetSelectors
  else if op = 0x4c then
    let x := (core.registers 1).setWidth 8
    let y := (core.registers 2).setWidth 8
    if core.alt1 then do
      let (value, graphics, ram) ← core.graphics.read x y core.ram
      .ok ({ core with graphics := graphics, ram := ram }.result (value.setWidth 16))
    else do
      let (graphics, ram) ← core.graphics.plot x y core.ram
      .ok { core with
        graphics := graphics
        ram := ram
        registers := Function.update core.registers 1 (core.registers 1 + 1) }.resetSelectors
  else if op = 0x4e then
    let value := core.sourceValue.setWidth 8
    .ok { core with
      graphics := if core.alt1 then core.graphics.options value
        else core.graphics.color value }.resetSelectors
  else if op = 0x9f ∧ core.alt1 = true then .ok (longMultiply core)
  else if op = 0x9e ∨ op = 0xc0 then
    let value := (if op = 0x9e then core.sourceValue else core.sourceValue >>> 8) &&& 255
    -- LOB and HIB extend with zeros, but S is bit 7
    .ok { core.write core.destination value with
      zero := value = 0, sign := value.getLsbD 7 }.resetSelectors
  else if op = 0x4d then
    .ok (core.result ((core.sourceValue >>> 8) ||| (core.sourceValue <<< 8)))
  else if op = 0x95 then .ok (core.result ((core.sourceValue.setWidth 8).signExtend 16))
  else if op = 0x4f then .ok (core.result (~~~core.sourceValue))
  else if op = 0x03 ∨ op = 0x04 ∨ op = 0x96 ∨ op = 0x97 then .ok (shift core op)
  else if 0xc1 ≤ op ∧ op ≤ 0xcf then
    .ok (core.result (if core.alt1 then core.sourceValue ^^^ right else core.sourceValue ||| right))
  else if 0x71 ≤ op ∧ op ≤ 0x7f then
    .ok (core.result (core.sourceValue &&& if core.alt1 then ~~~right else right))
  else if 0x80 ≤ op ∧ op ≤ 0x8f then .ok (multiply core right)
  else if 0x50 ≤ op ∧ op ≤ 0x5f then .ok (add core right)
  else if 0x60 ≤ op ∧ op ≤ 0x6f then
    -- CMP has no immediate form
    .ok (subtract core (if core.alt1 then register else right))
  else if op = 0x90 then do
    -- SBK writes a word at the last RAM address, whatever the last access was
    let core ← core.store core.ramAddress core.sourceValue false
    .ok core.resetSelectors
  else if 0x91 ≤ op ∧ op ≤ 0x94 then
    let link := core.pc + BitVec.ofNat 16 (op - 0x90)
    .ok { core with registers := Function.update core.registers 11 link }.resetSelectors
  else if 0x98 ≤ op ∧ op ≤ 0x9d ∧ core.alt1 = false then
    .ok (core.write 15 register).resetSelectors
  else if 0xb0 ≤ op ∧ op ≤ 0xbf then
    if core.prefixSet then
      let core := (core.write core.destination register).setZeroSign register
      .ok { core with overflow := register.getLsbD 7 }.resetSelectors
    else .ok { core with source := index }
  else if op = 0xdf then
    if core.alt2 = false then do
      let value ← program.readRom (core.romBank.toNat * 65536 + (core.registers 14).toNat)
      .ok { core with graphics := core.graphics.color value }.resetSelectors
    else if core.alt1 then
      .ok { core with romBank := core.sourceValue.setWidth 8 &&& 0x7f }.resetSelectors
    else .ok { core with ramBank := core.sourceValue.setWidth 8 &&& 1 }.resetSelectors
  else if op = 0xef then do
    let fetched ← program.readRom (core.romBank.toNat * 65536 + (core.registers 14).toNat)
    .ok (core.write core.destination (getByte core fetched)).resetSelectors
  else if (0xd0 ≤ op ∧ op ≤ 0xde) ∨ (0xe0 ≤ op ∧ op ≤ 0xee) then
    let value := if op < 0xe0 then register + 1 else register - 1
    .ok ((core.write index value).setZeroSign value).resetSelectors
  else .error (.unsupported opcode)

end Disco.Gsu
