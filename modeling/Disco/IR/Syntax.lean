import Disco.IR.Types

/-! # The intermediate representation

Functions are lists of basic blocks, blocks are lists of instructions, and an
instruction is one record for every opcode: the verifier says which fields an
opcode may use. Value and block ids are plain numbers; value id zero and the
all-ones block id mean "none", as in the source. Source positions are not
modelled: they occur in diagnostics only.
-/

namespace Disco.IR

/-- The sentinel of a block id that names no block. -/
def invalidBlock : Nat := 0xFFFFFFFF

inductive Opcode where
  | phi
  | constant
  | address
  | pointerOffset
  | pointerCompare
  | load
  | loadIndirect
  | store
  | storeIndirect
  | memoryInitialize
  | binary
  | divMod
  | divModResult
  | bitExtract
  | unary
  | cast
  | call
  | plotCoordinateRead
  | plotCoordinateWrite
  | plotBegin
  | plotEnd
  | plot
  | setColor
  | cMode
  | rpix
  | cache
  | hardwareLoop
  | hardwareLoopEnd
  | hardwareLoopLeave
  | branch
  | condBranch
  | switch
  | ret
  | returnVoid
  | unreachable
  deriving DecidableEq, Repr

structure Instruction where
  opcode : Opcode := .constant
  type : Ty := {}
  result : Nat := 0
  operands : List Nat := []
  targets : List Nat := []
  loopTarget : Nat := invalidBlock
  loopId : Nat := 0
  caseValues : List Int := []
  hasDefaultTarget : Bool := false
  immediate : Int := 0
  operation : String := ""
  symbol : String := ""
  symbolId : Nat := 0
  memoryVolatile : Bool := false
  inPlotContext : Bool := false
  isLiveRangeSplit : Bool := false
  initializationValues : List UInt16 := []
  compilerGeneratedLoop : Bool := false
  deriving DecidableEq, Repr

def isValueOpcode : Opcode → Bool
  | .phi | .rpix | .plotCoordinateRead | .constant | .address | .pointerOffset | .pointerCompare
  | .load | .loadIndirect | .binary | .divMod | .divModResult | .bitExtract | .unary | .cast
  | .call => true
  | _ => false

def isTerminatorOpcode : Opcode → Bool
  | .branch | .condBranch | .switch | .ret | .returnVoid | .unreachable => true
  | _ => false

/-- What an instruction says apart from its value and block ids. -/
structure Effect where
  opcode : Opcode
  type : Ty
  immediate : Int
  operation : String
  symbol : String
  symbolId : Nat
  loopId : Nat
  memoryVolatile : Bool
  inPlotContext : Bool
  initializationValues : List UInt16
  compilerGeneratedLoop : Bool
  deriving DecidableEq, Repr

namespace Instruction

def effect (i : Instruction) : Effect where
  opcode := i.opcode
  type := i.type
  immediate := i.immediate
  operation := i.operation
  symbol := i.symbol
  symbolId := i.symbolId
  loopId := i.loopId
  memoryVolatile := i.memoryVolatile
  inPlotContext := i.inPlotContext
  initializationValues := i.initializationValues
  compilerGeneratedLoop := i.compilerGeneratedLoop

/-- Exposed hardware loops end their blocks; hidden ones sit inside them. -/
def isTerminator (i : Instruction) : Bool :=
  isTerminatorOpcode i.opcode ||
    (decide (i.opcode = .hardwareLoop ∨ i.opcode = .hardwareLoopEnd) && !i.targets.isEmpty)

def producesValue (i : Instruction) : Bool :=
  isValueOpcode i.opcode &&
    !(decide (i.opcode = .call ∨ i.opcode = .rpix) && isVoidValue i.type)

end Instruction

/-- The PHIs at the start of a block. -/
def phis (code : List Instruction) : List Instruction :=
  code.takeWhile fun i => i.opcode == .phi

/-- The rest of a block. -/
def body (code : List Instruction) : List Instruction :=
  code.dropWhile fun i => i.opcode == .phi

theorem phis_append_body (code : List Instruction) : phis code ++ body code = code :=
  List.takeWhile_append_dropWhile

theorem getElem?_body (code : List Instruction) (n : Nat) :
    code[(phis code).length + n]? = (body code)[n]? := by
  have hsplit := phis_append_body code
  calc code[(phis code).length + n]?
      = (phis code ++ body code)[(phis code).length + n]? := by rw [hsplit]
    _ = (body code)[n]? := by
        rw [List.getElem?_append_right (by omega), Nat.add_sub_cancel_left]

structure BasicBlock where
  id : Nat := invalidBlock
  label : String := ""
  instructions : List Instruction := []
  deriving DecidableEq, Repr

structure Parameter where
  type : Ty := {}
  name : String := ""
  symbolId : Nat := 0
  deriving DecidableEq, Repr

/-- A declared variable. Its initial literal is the front end's business. -/
structure LocalSymbol where
  type : Ty := {}
  stackOffset : Int := 0
  id : Nat := 0
  deriving DecidableEq, Repr

structure ImmutableLocalArray where
  type : Ty := {}
  bytes : List UInt8 := []
  deriving DecidableEq, Repr

/-- Pairs of ids are compared by their components. -/
instance pairsOfIds : LawfulBEq (Nat × Nat) := inferInstance

/-- A map keyed by symbols: entries in ascending key order, one for each key. -/
structure SymbolMap (α : Type) where
  entries : List (Nat × α) := []
  ascending : (entries.map Prod.fst).Pairwise (· < ·) := by decide

namespace SymbolMap

variable {α : Type}

instance [DecidableEq α] : DecidableEq (SymbolMap α) := fun a b =>
  decidable_of_iff (a.entries = b.entries) <| by
    constructor
    · intro h
      cases a; cases b; cases h; rfl
    · intro h
      rw [h]

def empty : SymbolMap α := ⟨[], .nil⟩

def find (map : SymbolMap α) (key : Nat) : Option α :=
  (map.entries.find? fun entry => entry.1 == key).map Prod.snd

def contains (map : SymbolMap α) (key : Nat) : Bool := (map.find key).isSome

def size (map : SymbolMap α) : Nat := map.entries.length

end SymbolMap

abbrev LocalSymbolTable := SymbolMap LocalSymbol

structure Function where
  name : String := ""
  linkName : String := ""
  returnType : Ty := {}
  parameters : List Parameter := []
  totalLocalAllocSize : Int := 0
  isCached : Bool := false
  needsImplicitReturn : Bool := false
  blocks : List BasicBlock := []
  entry : Nat := invalidBlock
  valueCount : Nat := 0
  storageLayoutValid : Bool := false
  storageLayout : LocalSymbolTable := .empty
  immutableLocalArrays : SymbolMap ImmutableLocalArray := .empty
  deriving DecidableEq

structure Module where
  functions : List Function := []
  target : TargetKind := .gsu
  bitmap : BitmapConfig := {}
  deriving DecidableEq

namespace Function

/-- The instructions of one block; a block that does not exist has none. -/
def code (f : Function) (b : Nat) : List Instruction :=
  (f.blocks[b]?.map BasicBlock.instructions).getD []

/-- Every instruction, in block order. -/
def instructions (f : Function) : List Instruction := f.blocks.flatMap BasicBlock.instructions

end Function

/-- An instruction and where it stands. -/
structure Site where
  block : Nat
  position : Nat
  instruction : Instruction
  deriving DecidableEq, Repr

namespace Function

def blockSites (block : BasicBlock) (index : Nat) : List Site :=
  block.instructions.zipIdx.map fun entry => ⟨index, entry.2, entry.1⟩

def sites (f : Function) : List Site :=
  f.blocks.zipIdx.flatMap fun entry => blockSites entry.1 entry.2

/-- Where a value is defined. -/
def site (f : Function) (v : Nat) : Option Site :=
  f.sites.find? fun site => site.instruction.result == v

/-- The instruction that defines a value. -/
def definition (f : Function) (v : Nat) : Option Instruction :=
  (f.site v).map Site.instruction

/-- The type of the instruction that defines a value. -/
def typeOf (f : Function) (v : Nat) : Ty := ((f.definition v).map Instruction.type).getD {}

end Function

end Disco.IR
