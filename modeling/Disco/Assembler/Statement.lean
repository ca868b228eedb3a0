import Disco.Assembler.Encode
import Disco.Gsu.Straight

/-! # What data-processing statements mean

The reading of a statement from its mnemonic and its operands alone, and what
it does to registers, flags and memory. Nothing here knows an opcode: this is
what the encodings are compared with. R15 is the address behind the statement.
-/

namespace Disco.Assembler

open Library Linker Gsu

/-! ## Arithmetic -/

inductive Operation where
  | add | adc | sub | sbc | mult | umult | cmp | and | bic | or | xor
  deriving DecidableEq, Repr

/-- A number in the signed range of a word. -/
def signedRange (value : Int) : Prop := -32768 ≤ value ∧ value ≤ 32767

instance (value : Int) : Decidable (signedRange value) := inferInstanceAs (Decidable (_ ∧ _))

/-- A result, with C and V where the operation sets them. -/
structure Answer where
  value : Word
  carry : Bool
  overflow : Bool

/-- The sum of two words and a carry. -/
def sumOf (left right : Word) (carry : Bool) : Answer where
  value := BitVec.ofNat 16 (left.toNat + right.toNat + carry.toNat)
  carry := 65536 ≤ left.toNat + right.toNat + carry.toNat
  overflow := ¬ signedRange (left.toInt + right.toInt + carry.toNat)

/-- The difference of two words and a borrow; C says that nothing was borrowed. -/
def differenceOf (left right : Word) (borrow : Bool) : Answer where
  value := BitVec.ofInt 16 ((left.toNat : Int) - right.toNat - borrow.toNat)
  carry := right.toNat + borrow.toNat ≤ left.toNat
  overflow := ¬ signedRange (left.toInt - right.toInt - borrow.toNat)

/-- The low byte of a word. -/
def lowHalf (value : Word) : Byte := value.setWidth 8

def Operation.answer (operation : Operation) (left right : Word) (core : Core) : Answer :=
  let kept (value : Word) : Answer := ⟨value, core.carry, core.overflow⟩
  match operation with
  | .add => sumOf left right false
  | .adc => sumOf left right core.carry
  | .sub => differenceOf left right false
  | .sbc => differenceOf left right (!core.carry)
  | .cmp => differenceOf left right false
  | .mult => kept (BitVec.ofInt 16 ((lowHalf left).toInt * (lowHalf right).toInt))
  | .umult => kept (BitVec.ofNat 16 ((lowHalf left).toNat * (lowHalf right).toNat))
  | .and => kept (left &&& right)
  | .bic => kept (left &&& ~~~right)
  | .or => kept (left ||| right)
  | .xor => kept (left ^^^ right)

/-- All operations but CMP keep their result. -/
def Operation.apply (operation : Operation) (target : Fin 16) (right : Word) (core : Core) : Core :=
  let answer := operation.answer (core.registers target) right core
  let core := { core.setZeroSign answer.value with
    carry := answer.carry
    overflow := answer.overflow }
  if operation = .cmp then core else core.write target answer.value

/-! ## Statements -/

inductive Operand where
  | register (index : Fin 16)
  | number (value : Word)
  deriving DecidableEq, Repr

def Operand.value (core : Core) : Operand → Word
  | .register index => core.registers index
  | .number value => value

/-- How GETB, GETBH, GETBL and GETBS combine the byte with R0. -/
inductive Merge where
  | plain | high | low | signed
  deriving DecidableEq, Repr

def Merge.value (merge : Merge) (before : Word) (byte : Byte) : Word :=
  match merge with
  | .plain => byte.setWidth 16
  | .high => (before &&& 0x00ff) ||| (byte.setWidth 16 <<< 8)
  | .low => (before &&& 0xff00) ||| byte.setWidth 16
  | .signed => byte.signExtend 16

inductive Statement where
  | compute (operation : Operation) (target : Fin 16) (operand : Operand)
  | copy (target source : Fin 16)
  | load (target : Fin 16) (value : Word)
  | read (target memory : Fin 16) (byte : Bool)
  | write (memory source : Fin 16) (byte : Bool)
  | push (source : Fin 16) (byte : Bool)
  | pop (target : Fin 16) (byte : Bool)
  | getb (merge : Merge)
  deriving DecidableEq, Repr

namespace Statement

/-- R10 moves by a step of one at a time, and Z and S follow it. -/
def stepped (core : Core) (address : Word) : Core := (core.write 10 address).setZeroSign address

/-- A value through an address register; the address is latched for SBK. -/
def loaded (core : Core) (address : Word) (byte : Bool) (target : Fin 16) : Except Fault Core := do
  let core := { core with ramAddress := address }
  let value ← if byte then core.loadByte address else core.loadWord address
  .ok (core.write target value)

def stored (core : Core) (address value : Word) (byte : Bool) : Except Fault Core :=
  { core with ramAddress := address }.store address value byte

/-- What a stack operation moves R10 by. -/
def width (byte : Bool) : Word := if byte then 1 else 2

def meaning (program : Program) : Statement → Core → Except Fault Core
  | compute operation target operand, core =>
      .ok (operation.apply target (operand.value core) core)
  | copy target source, core => .ok (core.write target (core.registers source))
  | load target value, core => .ok (core.write target value)
  | read target memory byte, core => loaded core (core.registers memory) byte target
  | write memory source byte, core =>
      stored core (core.registers memory) (core.registers source) byte
  | push source byte, core => do
      -- the store comes before the steps of R10, one byte each
      let value := if source = 15 then core.pc - width byte else core.registers source
      let after ← stored core (core.registers 10) value byte
      .ok (stepped after (core.registers 10 - width byte))
  | pop target byte, core =>
      let address := core.registers 10 + width byte
      loaded (stepped core address) address byte target
  | getb merge, core => do
      let byte ← program.readRom (core.romBank.toNat * 65536 + (core.registers 14).toNat)
      .ok (core.write 0 (merge.value (core.registers 0) byte))

end Statement

/-! ## Reading a line -/

def operationNames : List (Text × Operation) :=
  [(nameOf "add", .add), (nameOf "adc", .adc), (nameOf "sub", .sub), (nameOf "sbc", .sbc),
    (nameOf "mult", .mult), (nameOf "umult", .umult), (nameOf "cmp", .cmp), (nameOf "and", .and),
    (nameOf "or", .or), (nameOf "bic", .bic), (nameOf "xor", .xor)]

def operationOf (name : Text) : Option Operation :=
  (operationNames.find? fun entry => entry.1 = name).map (·.2)

def registerOf (text : Text) : Option (Fin 16) := (parseRegister text).map (Fin.ofNat 16)

def memoryOf (text : Text) : Option (Fin 16) := (parseMemoryRegister text).map (Fin.ofNat 16)

def operandOf (text : Text) : Option Operand :=
  match parseNumber text with
  | some value => some (.number (BitVec.ofInt 16 value))
  | none => (registerOf text).map .register

/-- The last operand, into the first one or into R0. -/
def computation (operation : Operation) (line : ParsedLine) : Option Statement :=
  match line.operands with
  | [operand] => (operandOf operand).map (.compute operation 0)
  | [target, operand] => do
      let target ← registerOf target
      (operandOf operand).map (.compute operation target)
  | [target, _, operand] => do
      let target ← registerOf target
      (operandOf operand).map (.compute operation target)
  | _ => none

/-- A 16-bit immediate; the linker knows what symbols stand for. -/
def immediateWord (address : Name → Nat) (operand : Text) : Word :=
  match parseNumber operand with
  | some value => BitVec.ofInt 16 value
  | none => BitVec.ofNat 16 (address (symbolicWord operand .addr16Iwt).1)

/-- The byte that IBT extends: a number, or the bank of a symbol. -/
def immediateByte (address : Name → Nat) (operand : Text) : Byte :=
  match withoutHash operand with
  | 94 :: name => BitVec.ofNat 8 (address name / 0x10000)
  | text =>
      match parseNumber text with
      | some value => BitVec.ofInt 8 value
      | none => 0

/-- MOVE, MOVEB and MOVEW: registers first, memory in parentheses, immediates
behind a hash. -/
def movement (address : Name → Nat) (line : ParsedLine) : Option Statement :=
  let byte : Bool := line.operation = nameOf "moveb"
  match registerOf (line.operand 0), registerOf (line.operand 1), memoryOf (line.operand 0),
      memoryOf (line.operand 1) with
  | some target, some source, _, _ => some (.copy target source)
  | some target, none, _, some memory => some (.read target memory byte)
  | none, some source, some memory, _ => some (.write memory source byte)
  | some target, none, _, none => some (.load target (immediateWord address (line.operand 1)))
  | _, _, _, _ => none

/-- Statements that are not arithmetic, by their operation. -/
def otherStatements (address : Name → Nat) (line : ParsedLine) : List (Text × Option Statement) :=
  let register := registerOf (line.operand 0)
  [(nameOf "move", movement address line), (nameOf "moveb", movement address line),
    (nameOf "movew", movement address line),
    (nameOf "ibt", register.map (.load · ((immediateByte address (line.operand 1)).signExtend 16))),
    (nameOf "iwt", register.map (.load · (immediateWord address (line.operand 1)))),
    (nameOf "lea", register.map (.load · (immediateWord address (line.operand 1)))),
    (nameOf "push", register.map (.push · false)), (nameOf "pop", register.map (.pop · false)),
    (nameOf "pushb", register.map (.push · true)), (nameOf "popb", register.map (.pop · true)),
    (nameOf "getb", some (.getb .plain)), (nameOf "getbh", some (.getb .high)),
    (nameOf "getbl", some (.getb .low)), (nameOf "getbs", some (.getb .signed))]

/-- The statement that a line is, when symbols stand for addresses. -/
def statementOf (address : Name → Nat) (line : ParsedLine) : Option Statement :=
  match operationOf line.operation with
  | some operation => computation operation line
  | none =>
      match (otherStatements address line).find? fun entry => entry.1 = line.operation with
      | some entry => entry.2
      | none => none

/-- Arithmetic and logic, MOVE, immediates, the stack and GETB. -/
def dataNames : List Text :=
  operationNames.map (·.1) ++ (otherStatements (fun _ => 0) {}).map (·.1)

end Disco.Assembler
