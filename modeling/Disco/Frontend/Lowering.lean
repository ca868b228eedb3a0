import Disco.Frontend.Analyzer

/-! # Lowering scalar expressions

What `IRLowerer` makes of a typed expression: it appends instructions to the
current block and, for the logical operators, blocks to the function. A logical
operator passes its result through a temporary in the frame.
-/

namespace Disco.Frontend

open IR Library

def maxIRBlocksPerFunction : Nat := 1000000

def maxIRValuesPerFunction : Nat := 1000000

/-- A function under construction. -/
structure Lowerer where
  function : Function
  current : Nat
  plotContext : Bool := false

namespace Lowerer

def pointerTo (type : Ty) (space : AddressSpace) : Ty :=
  let type := normalizePointerLayers type
  normalizePointerLayers { type with
    pointerLevel := type.pointerLevel + 1
    arraySize := 0
    pointerReach := type.pointerReach ++ [false]
    pointerSpaces := type.pointerSpaces ++ [space]
    pointeeQualifiers := type.pointeeQualifiers ++ [⟨type.isConst, type.isVolatile⟩]
    isConst := false
    isVolatile := false }

def createBlock (l : Lowerer) (label : String) : Except String (Nat × Lowerer) := do
  rejectIf (l.function.blocks.length ≥ maxIRBlocksPerFunction) "IR lowering: function has too many basic blocks."
  let id := l.function.blocks.length
  pure (id, { l with function := { l.function with
    blocks := l.function.blocks ++ [{ id := id
                                      label := label }] } })

def createValue (l : Lowerer) : Except String (Nat × Lowerer) := do
  rejectIf (l.function.valueCount ≥ maxIRValuesPerFunction) "IR lowering: function has too many values."
  pure (l.function.valueCount + 1,
    { l with function := { l.function with valueCount := l.function.valueCount + 1 } })

def emitInstruction (l : Lowerer) (i : Instruction) : Except String Lowerer :=
  match l.function.blocks[l.current]? with
  | none => .error "IR lowering: no current basic block."
  | some block =>
      if block.instructions.getLast?.any Instruction.isTerminator = true then
        .error "IR lowering: cannot append instruction after a terminator."
      else
        .ok { l with function := { l.function with
          blocks := l.function.blocks.set l.current { block with
            instructions := block.instructions ++ [{ i with inPlotContext := l.plotContext }] } } }

/-- Append an instruction that produces a value. -/
def emitValue (l : Lowerer) (i : Instruction) : Except String (Nat × Lowerer) := do
  let created ← l.createValue
  let l ← created.2.emitInstruction { i with result := created.1 }
  pure (created.1, l)

def emitConstant (l : Lowerer) (type : Ty) (value : Int) : Except String (Nat × Lowerer) :=
  l.emitValue
    { opcode := .constant
      type := type
      immediate := value }

def emitBranch (l : Lowerer) (target : Nat) : Except String Lowerer :=
  l.emitInstruction
    { opcode := .branch
      targets := [target] }

def emitConditionalBranch (l : Lowerer) (condition yes no : Nat) : Except String Lowerer :=
  l.emitInstruction
    { opcode := .condBranch
      operands := [condition]
      targets := [yes, no] }

def inBlock (l : Lowerer) (block : Nat) : Lowerer := { l with current := block }

/-- The number of a literal that the analyzer has already looked at. -/
def literalNumber (kind : LiteralKind) (lexeme : Text) : Except String Int :=
  match kind with
  | .keywordTrue => .ok 1
  | .keywordFalse => .ok 0
  | _ =>
      match DiscoNumeric.parse lexeme with
      | some (value, _) => .ok value
      | none => .error "stoll"

/-- Reserve two bytes of the frame for the result of a logical operator. -/
def reserveTemporary (l : Lowerer) : Except String Lowerer := do
  let size := if l.function.totalLocalAllocSize = 0 then 2 else l.function.totalLocalAllocSize
  rejectIf (size > 65524) "Logical expression frame exceeds one bank."
  pure { l with function := { l.function with totalLocalAllocSize := size + 2 } }

def emitTemporary (l : Lowerer) : Except String (Nat × Lowerer) := do
  let l ← l.reserveTemporary
  l.emitValue
    { opcode := .address
      type := pointerTo Analyzer.boolean.type .ram
      operation := "temporary"
      immediate := -(l.function.totalLocalAllocSize - 2) }

/-- Store the result of a logical operator and go to its end. -/
def finishBranch (l : Lowerer) (address value done : Nat) : Except String Lowerer := do
  let l ← l.emitInstruction
    { opcode := .storeIndirect
      type := Analyzer.boolean.type
      operands := [address, value] }
  l.emitBranch done

/-- A new block for each way through a logical operator. -/
def logicalBlocks (l : Lowerer) : Except String ((Nat × Nat × Nat) × Lowerer) := do
  let rhs ← l.createBlock "logical.rhs"
  let skip ← rhs.2.createBlock "logical.skip"
  let done ← skip.2.createBlock "logical.end"
  pure ((rhs.1, skip.1, done.1), done.2)

def lowerExpression : Expr → Lowerer → Except String (Nat × Lowerer)
  | .literal note kind lexeme, l => do
      let value ← literalNumber kind lexeme
      l.emitConstant note.resultType value
  | .layoutType note _ _ _, l => l.emitConstant note.resultType note.constantValue
  | .layoutObject note _ _, l => l.emitConstant note.resultType note.constantValue
  | .named note name symbolId storage, l =>
      if note.isConstant then l.emitConstant note.resultType note.constantValue
      else do
        let address ← l.emitValue
          { opcode := .address
            type := pointerTo note.resultType storage
            symbol := name
            symbolId := symbolId }
        address.2.emitValue
          { opcode := .loadIndirect
            type := note.resultType
            operands := [address.1]
            memoryVolatile := note.resultType.isVolatile }
  | .cast note _ expression, l => do
      let value ← lowerExpression expression l
      value.2.emitValue
        { opcode := .cast
          type := note.resultType
          operands := [value.1] }
  | .unary note operation right, l =>
      match operation, right with
      | .minus, .literal _ .integer lexeme => do
          let value ← literalNumber .integer lexeme
          l.emitConstant note.resultType (-value)
      | operation, right => do
          let value ← lowerExpression right l
          value.2.emitValue
            { opcode := .unary
              type := note.resultType
              operands := [value.1]
              operation := operation.lexeme }
  | .binary note operation left right, l =>
      if operation = .andAnd ∨ operation = .orOr then do
        let address ← l.emitTemporary
        let condition ← lowerExpression left address.2
        let blocks ← condition.2.logicalBlocks
        let (rhs, skip, done) := blocks.1
        let conjunction := decide (operation = .andAnd)
        let l ← blocks.2.emitConditionalBranch condition.1 (if conjunction then rhs else skip)
          (if conjunction then skip else rhs)
        let known ← (l.inBlock skip).emitConstant Analyzer.boolean.type (if conjunction then 0 else 1)
        let l ← known.2.finishBranch address.1 known.1 done
        let value ← lowerExpression right (l.inBlock rhs)
        let l ← value.2.finishBranch address.1 value.1 done
        (l.inBlock done).emitValue
          { opcode := .loadIndirect
            type := Analyzer.boolean.type
            operands := [address.1] }
      else do
        let first ← lowerExpression left l
        let second ← lowerExpression right first.2
        second.2.emitValue
          { opcode := .binary
            type := note.resultType
            operands := [first.1, second.1]
            operation := operation.lexeme }

end Lowerer

end Disco.Frontend
