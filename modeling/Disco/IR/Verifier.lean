import Disco.IR.StorageInterference

/-! # The IR verifier

`IRVerifier::verify`. Diagnostics keep their texts; the positions they point at
are not modelled. The first pass looks at every instruction with the
instructions before it, the later ones at reachability, dominance, the scopes
of hardware loops and the operand types of each opcode.
-/

namespace Disco.IR

open Library

inductive TargetCapability where
  | graphics
  | instructionCache
  | hardwareLoops
  | farData
  deriving DecidableEq, Repr

def supportsCapability : TargetKind → TargetCapability → Bool
  | .gsu, _ => true
  | .spc700, _ => false

/-- The address policy for constant pointers. -/
def validatePointer (address : Nat) (space : AddressSpace) (far : Bool) (width alignment : Int) :
    Except String Unit := do
  rejectIf (width ≤ 0 ∨ width > 65536) "Invalid pointer access width."
  let alignment := if alignment = 0 then (if width = 1 then 1 else 2) else alignment
  let bank := address / 0x10000
  let offset := address % 0x10000
  rejectIf (address > 0xffffff ∨ (far = false ∧ bank ≠ 0))
    "Pointer address exceeds its representation."
  rejectIf (far = true ∧ space = .rom ∧ (bank > 0x5f ∨ (bank ≤ 0x3f ∧ offset < 0x8000)))
    "Pointer address is outside GSU-visible ROM."
  rejectIf (far = true ∧ space ≠ .rom ∧ bank ≠ 0x70 ∧ bank ≠ 0x71)
    "Pointer address is outside GSU-visible RAM."
  rejectIf (far = false ∧ address = 0) "Null pointer access is illegal."
  rejectIf (alignment < 1 ∨ alignment > 128 ∨ ¬ ∃ n ∈ List.range 8, alignment = 2 ^ n)
    "Invalid pointer alignment."
  rejectIf (alignment > 1 ∧ (offset : Int) % alignment ≠ 0)
    "Misaligned 16-bit pointer address is illegal."
  rejectIf (width > 65536 - offset) "Pointer access crosses a bank boundary."

namespace Verifier

def badTarget (f : Function) (target : Nat) : Prop :=
  target = invalidBlock ∨ target ≥ f.blocks.length

instance (f : Function) (target : Nat) : Decidable (badTarget f target) :=
  inferInstanceAs (Decidable (_ ∨ _))

def verifyTarget (f : Function) (target : Nat) : Except String Unit :=
  rejectIf (badTarget f target) "IR verifier: branch target is outside the function."

def isLegalBinaryOperation (operation : String) : Bool :=
  decide (operation ∈ ["+", "-", "*", "%", "&", "|", "^", "<<", ">>", "/", ">", "<", ">=", "<=",
    "==", "!="])

/-- A layer list is absent or has one entry for each layer. -/
def badLayers {α : Type} (type : Ty) (layers : List α) : Prop :=
  layers ≠ [] ∧ (layers.length : Int) ≠ type.pointerLevel

instance {α : Type} [DecidableEq α] (type : Ty) (layers : List α) :
    Decidable (badLayers type layers) :=
  inferInstanceAs (Decidable (_ ∧ _))

def verifyPointerType (type : Ty) (maximumDepth : Int) : Except String Unit :=
  rejectIf (type.pointerLevel < 0 ∨ type.pointerLevel > maximumDepth ∨
      badLayers type type.pointerReach ∨ badLayers type type.pointerSpaces ∨
      badLayers type type.pointeeQualifiers ∨
      (type.pointerReach ≠ [] ∧ type.isFar ≠ type.pointerReach.getLastD false) ∨
      (type.pointerSpaces ≠ [] ∧ type.space ≠ type.pointerSpaces.getLastD .none) ∨
      (type.pointerLevel > 0 ∧ type.sizeInBytes ≠ if isFarPointer type then 4 else 2))
    "IR verifier: invalid pointer representation or layer metadata."

/-! ## Owned storage layouts -/

def objectBytes (type : Ty) : Except String Int := do
  rejectIf (type.sizeInBytes ≤ 0 ∨ type.sizeInBytes > 65528 ∨ type.arraySize < 0 ∨
      type.arraySize > 65528 / type.sizeInBytes)
    "IR verifier: invalid local object extent."
  pure (type.sizeInBytes * max 1 type.arraySize)

def localAlignment (type : Ty) : Int := max (max 2 type.alignment) (storageAlignment type)

def checkLocal (f : Function) (entry : Nat × LocalSymbol) : Except String Unit := do
  let symbol := entry.2
  verifyPointerType symbol.type maxPointerDepth
  let bytes ← objectBytes symbol.type
  let alignment := localAlignment symbol.type
  rejectIf (entry.1 = 0 ∨ entry.1 ≠ symbol.id ∨ symbol.stackOffset = 0 ∨
      symbol.stackOffset % 2 ≠ 0 ∨ alignment > 128 ∨
      (¬ ∃ n ∈ List.range 8, alignment = 2 ^ n) ∨
      f.immutableLocalArrays.contains entry.1 = true)
    "IR verifier: invalid local storage identity or alignment."
  rejectIf (symbol.stackOffset < 0 ∧
      (symbol.stackOffset < -f.totalLocalAllocSize + 2 ∨
        symbol.stackOffset + (bytes + 1) / 2 * 2 + alignment - 2 > 0))
    "IR verifier: local storage exceeds the checked frame."

/-- Parameters sit at their calling-convention offsets, the first at six. -/
def checkParameters (f : Function) : Int → List Parameter → Except String Unit
  | _, [] => .ok ()
  | offset, parameter :: rest => do
      rejectIf ((f.storageLayout.find parameter.symbolId).all (fun place =>
          decide (place.stackOffset ≠ offset) || !sameValueType place.type parameter.type) = true)
        "IR verifier: storage layout changed parameter ABI offsets."
      checkParameters f (offset + if isFarPointer parameter.type then 4 else 2) rest

def checkPool (poolBytes : Int) (entry : Nat × ImmutableLocalArray) : Except String Int := do
  let type := entry.2.type
  let message := "IR verifier: invalid immutable local array extent."
  rejectIf (entry.1 = 0 ∨ isIntegerType type = false ∨ type.arraySize < 4 ∨
      type.arraySize > 256 ∨ (type.sizeInBytes ≠ 1 ∧ type.sizeInBytes ≠ 2) ∨
      (type.sizeInBytes ≠ if type.base = .word then 2 else 1) ∨ type.isVolatile = true ∨
      type.alignment > 2) message
  let bytes ← objectBytes type
  rejectIf ((entry.2.bytes.length : Int) ≠ bytes ∨
    (entry.2.bytes.length : Int) > 65528 - poolBytes) message
  rejectIf (type.base = .bool ∧ ∃ byte ∈ entry.2.bytes, byte > 1)
    "IR verifier: immutable bool array has an invalid representation."
  pure (poolBytes + entry.2.bytes.length)

def verifyStorage (f : Function) : Except String Unit := do
  rejectIf (f.storageLayoutValid = false ∧
      (f.storageLayout.size ≠ 0 ∨ f.immutableLocalArrays.size ≠ 0))
    "IR verifier: storage metadata requires a valid owned layout."
  if f.storageLayoutValid then
    rejectIf (f.totalLocalAllocSize < 0 ∨ f.totalLocalAllocSize > 65530 ∨
        f.totalLocalAllocSize % 2 ≠ 0 ∨ f.storageLayout.size > 256 ∨
        f.immutableLocalArrays.size > 256)
      "IR verifier: invalid bounded local storage layout."
    checkAll (checkLocal f) f.storageLayout.entries
    checkParameters f 6 f.parameters
    let _ ← foldAll checkPool 0 f.immutableLocalArrays.entries
    pure ()
  else pure ()

/-! ## The first pass -/

def checkMetadata (f : Function) (i : Instruction) : Except String Unit := do
  rejectIf (i.initializationValues ≠ [] ∧ i.opcode ≠ .memoryInitialize)
    "IR verifier: initializer values belong to memory.initialize only."
  rejectIf (i.compilerGeneratedLoop = true ∧ i.opcode ≠ .hardwareLoop)
    "IR verifier: generated-loop metadata belongs to setup only."
  rejectIf (i.loopId ≠ 0 ∧ i.opcode ≠ .hardwareLoop ∧ i.opcode ≠ .hardwareLoopEnd ∧
      i.opcode ≠ .hardwareLoopLeave)
    "IR verifier: loop ID belongs to hardware-loop operations only."
  rejectIf (i.loopTarget ≠ invalidBlock ∧ (i.opcode ≠ .hardwareLoop ∨ i.targets.length ≠ 1))
    "IR verifier: loop target belongs to explicit hardware-loop setup only."
  rejectIf (i.loopTarget ≠ invalidBlock ∧ badTarget f i.loopTarget)
    "IR verifier: branch target is outside the function."

def checkPhiShape (block : BasicBlock) (site : Site) : Except String Unit := do
  let i := site.instruction
  rejectIf (i.opcode = .phi ∧ site.position ≠ 0 ∧
      (block.instructions[site.position - 1]?).any (fun before => decide (before.opcode ≠ .phi)) =
        true)
    "IR verifier: phi instructions must precede ordinary instructions."
  rejectIf (i.opcode = .phi ∧
      (i.operands = [] ∨ i.operands.length ≠ i.targets.length ∨ i.type.arraySize ≠ 0 ∨
        (isIntegerType i.type = false ∧ ¬ (i.type.pointerLevel > 0 ∧ isFarPointer i.type = false)) ∨
        i.operation ≠ ""))
    "IR verifier: invalid phi incoming values."

def checkPointerConstant (i : Instruction) : Except String Unit :=
  if i.opcode = .constant ∧ i.type.pointerLevel > 0 ∧ i.operation ≠ "null" then
    let element := pointeeType i.type
    let checked := do
      rejectIf (i.immediate < 0 ∨ i.immediate > if isFarPointer i.type then 0xffffff else 0xffff)
        "Pointer address exceeds its representation."
      validatePointer i.immediate.toNat i.type.space (isFarPointer i.type)
        (if element.sizeInBytes > 0 then element.sizeInBytes else 1) (storageAlignment element)
    match checked with
    | .ok () => .ok ()
    | .error message => .error ("IR verifier: invalid pointer constant: " ++ message)
  else .ok ()

/-- Results: every value-producing instruction defines a fresh id. -/
def checkResult (f : Function) (seen : List Site) (i : Instruction) : Except String Unit :=
  if i.producesValue then do
    rejectIf (i.result = 0 ∨ i.result > f.valueCount)
      "IR verifier: value-producing instruction has an invalid result."
    rejectIf (∃ site ∈ seen, site.instruction.result = i.result)
      "IR verifier: value is defined more than once."
  else
    rejectIf (i.result ≠ 0) "IR verifier: non-value instruction unexpectedly has a result."

/-- An earlier operation of the same kind on the same loop. -/
def repeatsLoop (seen : List Site) (i : Instruction) : Prop :=
  ∃ site ∈ seen, site.instruction.opcode = i.opcode ∧ site.instruction.loopId = i.loopId

instance (seen : List Site) (i : Instruction) : Decidable (repeatsLoop seen i) :=
  inferInstanceAs (Decidable (∃ site ∈ seen, _))

def checkShape (seen : List Site) (i : Instruction) : Except String Unit :=
  match i.opcode with
  | .hardwareLoop => do
      rejectIf (i.operands.length ≠ 1 ∨ i.targets.length > 1 ∨
          (i.targets ≠ [] ∧ i.loopTarget = invalidBlock) ∨ i.loopId = 0 ∨ i.operation ≠ "")
        "IR verifier: invalid hardware-loop setup."
      rejectIf (repeatsLoop seen i) "IR verifier: duplicate hardware-loop setup ID."
  | .hardwareLoopEnd => do
      rejectIf (i.operands ≠ [] ∨ (i.targets ≠ [] ∧ i.targets.length ≠ 2) ∨ i.loopId = 0 ∨
          i.operation ≠ "")
        "IR verifier: hardware-loop end requires backedge and exit."
      rejectIf (repeatsLoop seen i) "IR verifier: duplicate hardware-loop end ID."
  | .hardwareLoopLeave => do
      rejectIf (i.operands ≠ [] ∨ i.targets ≠ [] ∨ i.loopId = 0 ∨ i.operation ≠ "")
        "IR verifier: invalid hardware-loop leave."
      rejectIf (repeatsLoop seen i) "IR verifier: duplicate hardware-loop leave ID."
  | .branch =>
      rejectIf (i.operands ≠ [] ∨ i.targets.length ≠ 1)
        "IR verifier: branch must have one target and no operands."
  | .condBranch =>
      rejectIf (i.operands.length ≠ 1 ∨ i.targets.length ≠ 2)
        "IR verifier: conditional branch must have one condition and two targets."
  | .switch => do
      rejectIf (i.operands.length ≠ 1 ∨ i.targets = [])
        "IR verifier: switch must have one condition and at least one target."
      rejectIf (i.caseValues.length + (if i.hasDefaultTarget then 1 else 0) ≠ i.targets.length)
        "IR verifier: switch case values and targets do not match."
      rejectIf (¬ i.caseValues.Nodup) "IR verifier: switch contains duplicate case values."
  | .ret => rejectIf (i.operands.length ≠ 1) "IR verifier: return must have one value."
  | .returnVoid | .unreachable =>
      rejectIf (i.operands ≠ [] ∨ i.targets ≠ [])
        "IR verifier: void return/unreachable cannot have operands or targets."
  | _ => .ok ()

def scanInstruction (f : Function) (block : BasicBlock) (seen : List Site) (site : Site) :
    Except String (List Site) := do
  let i := site.instruction
  checkMetadata f i
  checkPhiShape block site
  rejectIf (i.memoryVolatile = true ∧ i.opcode ≠ .loadIndirect ∧ i.opcode ≠ .storeIndirect)
    "IR verifier: volatile metadata on a non-memory instruction."
  rejectIf (i.operation = "null" ∧ i.opcode = .constant ∧
      (i.immediate ≠ 0 ∨ i.type.pointerLevel = 0 ∨ i.operands ≠ []))
    "IR verifier: invalid null pointer constant."
  verifyPointerType i.type (if i.opcode = .address then maxAddressPointerDepth else maxPointerDepth)
  checkPointerConstant i
  rejectIf (i.isTerminator = true ∧ site.position + 1 ≠ block.instructions.length)
    "IR verifier: instruction appears after a terminator."
  checkResult f seen i
  rejectIf (∃ operand ∈ i.operands, operand = 0 ∨ operand > f.valueCount)
    "IR verifier: instruction uses an invalid value."
  checkShape seen i
  checkAll (verifyTarget f) i.targets
  pure (seen ++ [site])

def scanBlock (f : Function) (seen : List Site) (entry : BasicBlock × Nat) :
    Except String (List Site) := do
  let block := entry.1
  rejectIf (block.id = invalidBlock ∨ block.id ≠ entry.2)
    "IR verifier: basic-block IDs are not stable or contiguous."
  rejectIf (block.instructions = []) "IR verifier: basic block has no terminator."
  let seen ← foldAll (scanInstruction f block) seen (Function.blockSites block entry.2)
  rejectIf (block.instructions.getLast?.all (fun i => !i.isTerminator) = true)
    "IR verifier: basic block does not end in a terminator."
  pure seen

/-! ## Control flow -/

/-- The targets of a block in instruction order, with repetitions. -/
def successors (f : Function) (b : Nat) : List Nat :=
  (f.code b).flatMap fun i => if i.opcode = .phi then [] else i.targets

def predecessors (f : Function) (b : Nat) : List Nat :=
  (List.range f.blocks.length).filter fun a => b ∈ successors f a

def diverges : String := "IR verifier: analysis did not terminate."

def checkUnreachable (reachable : Finset Nat) (entry : BasicBlock × Nat) :
    Except String Unit :=
  rejectIf (entry.2 ∉ reachable ∧
      (entry.1.instructions.length ≠ 1 ∨
        entry.1.instructions.head?.all (fun i => decide (i.opcode ≠ .unreachable)) = true))
    "IR verifier: unreachable blocks must contain only 'unreachable'."

/-- The operations of one hardware loop. -/
structure HardwareScope where
  setup : Option Site
  finish : Option Site
  leave : Option Site

def loopSite (sites : List Site) (opcode : Opcode) (loopId : Nat) : Option Site :=
  sites.find? fun site =>
    decide (site.instruction.opcode = opcode) && decide (site.instruction.loopId = loopId)

def hardwareScope (sites : List Site) (loopId : Nat) : HardwareScope where
  setup := loopSite sites .hardwareLoop loopId
  finish := loopSite sites .hardwareLoopEnd loopId
  leave := loopSite sites .hardwareLoopLeave loopId

def isLoopOpcode (opcode : Opcode) : Bool :=
  decide (opcode = .hardwareLoop ∨ opcode = .hardwareLoopEnd ∨ opcode = .hardwareLoopLeave)

/-- The loop ids in use, in ascending order. -/
def loopIds (sites : List Site) : List Nat :=
  ((sites.filter fun site => isLoopOpcode site.instruction.opcode).map
    fun site => site.instruction.loopId).dedup.mergeSort (· ≤ ·)

def checkScope (dominators : Nat → Finset Nat) (scope : HardwareScope) :
    Except String Unit :=
  match scope.setup, scope.finish with
  | some setup, some finish => do
      rejectIf (setup.instruction.targets.isEmpty ≠ finish.instruction.targets.isEmpty ∨
          scope.leave.isSome = setup.instruction.targets.isEmpty)
        "IR verifier: unmatched hardware-loop setup/end/leave."
      rejectIf (setup.instruction.targets ≠ [] ∧
          (setup.instruction.loopTarget ≠ finish.instruction.targets.headD invalidBlock ∨
            setup.block ∉ dominators finish.block ∨
            scope.leave.all (fun leave => decide (finish.block ∉ dominators leave.block)) = true))
        "IR verifier: hardware-loop backedge or exit does not match its setup."
  | _, _ => .error "IR verifier: unmatched hardware-loop setup/end/leave."

/-- The innermost active loop comes first. -/
def activeLoops (active : List Nat) (i : Instruction) : Except String (List Nat) :=
  match i.opcode with
  | .hardwareLoop => do
      rejectIf (active.length ≥ 256) "IR verifier: hardware-loop nesting limit exceeded."
      pure (i.loopId :: active)
  | .hardwareLoopEnd | .hardwareLoopLeave => do
      rejectIf (active.head? ≠ some i.loopId) "IR verifier: mismatched hardware-loop scope stack."
      pure (if i.opcode = .hardwareLoopLeave ∨ i.targets = [] then active.tail else active)
  | _ => .ok active

structure ScopeWalk where
  pending : List Nat
  assigned : Nat → Option (List Nat)
  entries : Nat := 0

/-- Hand the active loops of a block to one successor. -/
def assignScope (active : List Nat) (walk : ScopeWalk) (s : Nat) : Except String ScopeWalk :=
  match walk.assigned s with
  | some known => do
      rejectIf (known ≠ active) "IR verifier: inconsistent hardware-loop scopes at CFG join."
      pure walk
  | none => do
      rejectIf (walk.entries + active.length > 1000000)
        "IR verifier: hardware-loop scope analysis limit exceeded."
      pure
        { pending := walk.pending ++ [s]
          assigned := Function.update walk.assigned s (some active)
          entries := walk.entries + active.length }

def walkScopes (f : Function) (walk : ScopeWalk) : Except String (Option ScopeWalk) :=
  match walk.pending with
  | [] => .ok none
  | b :: pending => do
      let active ← foldAll activeLoops ((walk.assigned b).getD []) (f.code b)
      rejectIf (successors f b = [] ∧ active ≠ [])
        "IR verifier: function exits with an active hardware-loop scope."
      let walk ← foldAll (assignScope active) { walk with pending := pending } (successors f b)
      pure (some walk)

def checkScopes (f : Function) (dominators : Nat → Finset Nat) : Except String Unit := do
  checkAll (fun loopId => checkScope dominators (hardwareScope f.sites loopId)) (loopIds f.sites)
  if loopIds f.sites = [] then pure ()
  else
    let _ ← loop (walkScopes f) diverges (f.blocks.length + 1)
      { pending := [f.entry], assigned := Function.update (fun _ => none) f.entry (some []) }
    pure ()

/-! ## The second pass -/

/-- Incoming edges of a PHI: one for each predecessor, each from a reachable
block that its value's definition dominates. -/
def checkPhi (f : Function) (reachable : Finset Nat) (dominators : Nat → Finset Nat)
    (b : Nat) (i : Instruction) : Except String Unit := do
  rejectIf (¬ i.targets.Nodup ∨
      ∃ edge ∈ i.operands.zip i.targets,
        edge.2 ∉ predecessors f b ∨ edge.2 ∉ reachable ∨
          (f.site edge.1).all (fun site => decide (site.block ∉ dominators edge.2)) = true ∨
          sameValueType i.type (f.typeOf edge.1) = false ∨
          i.type.enumName ≠ (f.typeOf edge.1).enumName)
    "IR verifier: phi value must match its type and dominate its predecessor edge."
  rejectIf ((∃ a ∈ predecessors f b, a ∉ i.targets) ∨ b = f.entry)
    "IR verifier: phi must cover every predecessor exactly once."

/-- A value is used after its definition, or where its block dominates. -/
def checkOperand (f : Function) (reachable : Finset Nat)
    (dominators : Nat → Finset Nat) (use : Site) (operand : Nat) :
    Except String Unit :=
  match f.site operand with
  | none => .error "IR verifier: operand refers to an undefined value."
  | some definition =>
      if definition.block = use.block then
        rejectIf (definition.position ≥ use.position)
          "IR verifier: value is used before its definition."
      else
        rejectIf (use.block ∈ reachable ∧
            (definition.block ∉ reachable ∨ definition.block ∉ dominators use.block))
          "IR verifier: value definition does not dominate its use."

def isVoidType (type : Ty) : Bool := isVoidValue type

def checkMemoryInitialize (f : Function) (i : Instruction) : Except String Unit := do
  let type := i.type
  rejectIf (i.operands.length ≠ 1 ∨ i.initializationValues.length < 4 ∨
      i.initializationValues.length > 256 ∨ i.targets ≠ [] ∨ isIntegerType type = false ∨
      (type.sizeInBytes ≠ 1 ∧ type.sizeInBytes ≠ 2) ∨ type.arraySize ≠ 0 ∨
      type.isVolatile = true ∨ i.memoryVolatile = true ∨ i.operation ≠ "declare" ∨
      i.immediate ≤ 0 ∨ i.immediate > f.totalLocalAllocSize ∨
      (i.initializationValues.length : Int) > i.immediate / type.sizeInBytes)
    "IR verifier: invalid bounded memory initializer."
  rejectIf ((f.definition (i.operands.headD 0)).all (fun address =>
      decide (address.opcode ≠ .address) || decide (address.operation ≠ "") ||
        decide (address.symbolId = 0) || decide (address.type.pointerLevel ≠ 1) ||
        isFarPointer address.type || decide (address.type.space ≠ .ram) ||
        !sameValueType type (pointeeType address.type) ||
        (pointeeType address.type).isVolatile) = true)
    "IR verifier: memory initializer requires a local near RAM address."
  rejectIf (∃ value ∈ i.initializationValues,
      (usesByteStorage type = true ∧ value > 255) ∨ (type.base = .bool ∧ value > 1))
    "IR verifier: initializer value exceeds its storage width."

def checkSetColor (i : Instruction) (source : Ty) : Except String Unit := do
  rejectIf (i.inPlotContext = false ∨ i.operands.length ≠ 1 ∨ i.targets ≠ [])
    "IR verifier: color requires one source and a plot context."
  if i.operation = "rom.byte" then
    rejectIf (source.pointerLevel = 0 ∨ source.space ≠ .rom ∨ (pointeeType source).base ≠ .byte ∨
        (pointeeType source).pointerLevel ≠ 0 ∨ (pointeeType source).isVolatile = true)
      "IR verifier: direct ROM color must address a ROM byte."
  else
    rejectIf (i.operation ≠ "" ∨ isIntegerType source = false)
      "IR verifier: color requires an integer value or direct ROM byte."

def checkAddress (f : Function) (i : Instruction) : Except String Unit := do
  rejectIf (i.type.pointerLevel = 0 ∨
      (i.operation = "" ∧ (i.operands ≠ [] ∨ i.symbol = "")) ∨
      (i.operation = "member" ∧ (i.operands.length ≠ 1 ∨ i.immediate < 0 ∨ i.immediate > 65528 ∨
        (f.typeOf (i.operands.headD 0)).pointerLevel = 0)) ∨
      (i.operation = "temporary" ∧ (i.operands ≠ [] ∨ i.immediate ≥ 0 ∨
        i.immediate < -f.totalLocalAllocSize ∨ i.immediate % 2 ≠ 0)) ∨
      (i.operation ≠ "" ∧ i.operation ≠ "member" ∧ i.operation ≠ "temporary"))
    "IR verifier: address has an invalid operation or operands."
  rejectIf (f.storageLayoutValid = true ∧ i.operation = "" ∧ i.symbolId ≠ 0 ∧
      f.storageLayout.contains i.symbolId = false ∧
      f.immutableLocalArrays.contains i.symbolId = false)
    "IR verifier: local address is absent from its owned storage layout."

def isScaled (i : Instruction) : Prop := i.operation = "scaled+" ∨ i.operation = "scaled-"

instance (i : Instruction) : Decidable (isScaled i) := inferInstanceAs (Decidable (_ ∨ _))

def checkPointerOffset (i : Instruction) (base index scaled : Ty) : Except String Unit := do
  rejectIf ((i.operands.length ≠ if isScaled i then 3 else 2) ∨ i.immediate ≤ 0 ∨
      i.immediate > 65528 ∨ base.pointerLevel = 0 ∨ sameValueType i.type base = false ∨
      isIntegerType index = false ∨
      (i.operation ≠ "+" ∧ i.operation ≠ "-" ∧ ¬ isScaled i))
    "IR verifier: pointer.offset has incompatible operands or stride."
  rejectIf (i.operands.length = 3 ∧
      (isFarPointer i.type = true ∨ i.immediate < 4 ∨ index.base ≠ .word ∨
        index.isUnsigned = false ∨ sameValueType index scaled = false))
    "IR verifier: scaled offset requires matching unsigned words and a near address."
  rejectIf ((i.type.base ≠ .struct ∨ i.type.pointerLevel > 1) ∧
      i.immediate ≠ (pointeeType i.type).sizeInBytes)
    "IR verifier: pointer.offset stride does not match the pointee."

def checkLoadIndirect (i : Instruction) (address : Ty) : Except String Unit := do
  rejectIf (i.operands.length ≠ 1 ∨ address.pointerLevel = 0 ∨
      sameValueType i.type (pointeeType address) = false)
    "IR verifier: load.indirect requires one pointer operand."
  rejectIf (i.memoryVolatile ≠ (pointeeType address).isVolatile)
    "IR verifier: volatile load metadata does not match its address."

def checkStoreIndirect (i : Instruction) (address value : Ty) : Except String Unit := do
  rejectIf (i.operands.length ≠ 2 ∨ address.pointerLevel = 0 ∨ isVoidType value = true ∨
      sameValueType i.type value = false ∨ sameValueType i.type (pointeeType address) = false ∨
      address.space = .rom)
    "IR verifier: store.indirect has incompatible operands."
  rejectIf (i.memoryVolatile ≠ (pointeeType address).isVolatile)
    "IR verifier: volatile store metadata does not match its address."
  rejectIf ((pointeeType address).isConst = true ∧ i.operation ≠ "declare")
    "IR verifier: store through a const-qualified address."

def checkPlotCoordinate (i : Instruction) (value : Ty) : Except String Unit :=
  rejectIf (i.inPlotContext = false ∨ i.targets ≠ [] ∨ i.operation ≠ "" ∨ i.immediate < 0 ∨
      i.immediate > 1 ∨ i.type.pointerLevel ≠ 0 ∨ i.type.base ≠ .word ∨ i.type.isUnsigned = true ∨
      (i.operands.length ≠ if i.opcode = .plotCoordinateRead then 0 else 1) ∨
      (i.opcode = .plotCoordinateWrite ∧ sameValueType i.type value = false))
    "IR verifier: invalid plot coordinate access."

def checkDivModResult (f : Function) (i : Instruction) : Except String Unit := do
  rejectIf (i.operands.length ≠ 1 ∨ i.targets ≠ [] ∨ (i.operation ≠ "/" ∧ i.operation ≠ "%"))
    "IR verifier: divmod.result requires one pair and the other component."
  rejectIf ((f.definition (i.operands.headD 0)).all (fun pair =>
      decide (pair.opcode ≠ .divMod) || decide (pair.operation = i.operation) ||
        !sameValueType i.type pair.type || decide (i.type.enumName ≠ pair.type.enumName)) = true)
    "IR verifier: divmod.result must select the matching pair's other component."

/-- The operands and types an opcode allows. -/
def checkOpcode (f : Function) (i : Instruction) : Except String Unit :=
  let first := f.typeOf (i.operands.headD 0)
  let second := f.typeOf (i.operands.getD 1 0)
  match i.opcode with
  | .memoryInitialize => checkMemoryInitialize f i
  | .cache =>
      rejectIf (i.operands ≠ [] ∨ i.targets ≠ []) "IR verifier: cache has no operands or targets."
  | .plot =>
      rejectIf (i.inPlotContext = false ∨ i.operands ≠ [] ∨ i.targets ≠ [])
        "IR verifier: pixel requires a plot context and no explicit coordinates."
  | .rpix =>
      rejectIf (i.operands ≠ [] ∨ i.targets ≠ [] ∨
          (i.producesValue = true ∧
            (i.inPlotContext = false ∨ i.type.pointerLevel ≠ 0 ∨ i.type.base ≠ .byte)))
        "IR verifier: rpix must discard its result or return a byte in a plot context."
  | .setColor => checkSetColor i first
  | .cMode =>
      rejectIf (i.inPlotContext = false ∨ i.operands ≠ [] ∨ i.targets ≠ [] ∨ i.immediate < 0 ∨
          i.immediate > 31)
        "IR verifier: cmode requires a constant five-bit POR mask in a plot context."
  | .plotCoordinateRead | .plotCoordinateWrite => checkPlotCoordinate i first
  | .address => checkAddress f i
  | .pointerCompare =>
      rejectIf (i.operands.length ≠ 2 ∨ i.type.base ≠ .bool ∨ i.type.pointerLevel ≠ 0 ∨
          (i.operation ≠ "==" ∧ i.operation ≠ "!=") ∨ first.pointerLevel = 0 ∨
          second.pointerLevel = 0 ∨ first.space ≠ second.space ∨
          isFarPointer first ≠ isFarPointer second)
        "IR verifier: incompatible pointer comparison."
  | .pointerOffset => checkPointerOffset i first second (f.typeOf (i.operands.getD 2 0))
  | .loadIndirect => checkLoadIndirect i first
  | .storeIndirect => checkStoreIndirect i first (f.typeOf (i.operands.getLastD 0))
  | .divMod =>
      rejectIf (i.operands.length ≠ 2 ∨ i.targets ≠ [] ∨
          (i.operation ≠ "/" ∧ i.operation ≠ "%") ∨ i.type.base ≠ .word ∨
          i.type.sizeInBytes ≠ 2 ∨ i.type.pointerLevel ≠ 0 ∨ i.type.arraySize ≠ 0 ∨
          sameValueType i.type first = false ∨ sameValueType i.type second = false ∨
          i.type.enumName ≠ first.enumName ∨ i.type.enumName ≠ second.enumName)
        "IR verifier: divmod requires two matching words and a primary component."
  | .divModResult => checkDivModResult f i
  | .binary =>
      rejectIf (i.operands.length ≠ 2 ∨ i.operation = "" ∨ isVoidType first = true ∨
          isVoidType second = true ∨ isLegalBinaryOperation i.operation = false ∨
          isIntegerType first = false ∨ isIntegerType second = false ∨
          (i.operation ≠ "<<" ∧ i.operation ≠ ">>" ∧ sameValueType first second = false) ∨
          isIntegerType i.type = false)
        "IR verifier: binary instruction has invalid operands."
  | .bitExtract =>
      rejectIf (i.operands.length ≠ 1 ∨ i.immediate < 0 ∨ i.immediate > 15 ∨ i.operation ≠ "" ∨
          i.targets ≠ [] ∨ i.memoryVolatile = true ∨ i.type.pointerLevel ≠ 0 ∨
          i.type.arraySize ≠ 0 ∨ i.type.base ≠ .word ∨ sameValueType i.type first = false)
        "IR verifier: bit.extract requires one matching word and a bit in 0..15."
  | .hardwareLoop =>
      rejectIf (isIntegerType first = false) "IR verifier: hardware-loop count must be an integer."
  | .unary | .cast =>
      rejectIf (i.operands.length ≠ 1 ∨ isVoidType first = true)
        "IR verifier: unary/cast instruction has an invalid operand."
  | .call => do
      rejectIf (i.symbol = "") "IR verifier: call has no target symbol."
      rejectIf (∃ operand ∈ i.operands, isVoidType (f.typeOf operand) = true)
        "IR verifier: call cannot pass a void value."
  | .condBranch =>
      rejectIf (i.operands.length ≠ 1 ∨ i.targets.length ≠ 2 ∨ isIntegerType first = false)
        "IR verifier: conditional branch requires an integer condition."
  | .switch =>
      rejectIf (i.operands.length ≠ 1 ∨ isIntegerType first = false)
        "IR verifier: switch requires an integer condition."
  | .ret =>
      rejectIf (isVoidType f.returnType = true ∨ sameValueType f.returnType first = false)
        "IR verifier: return value does not match the function return type."
  | .returnVoid =>
      rejectIf (isVoidType f.returnType = false) "IR verifier: non-void function must return a value."
  | _ => .ok ()

def checkUses (f : Function) (reachable : Finset Nat) (dominators : Nat → Finset Nat)
    (site : Site) : Except String Unit :=
  if site.instruction.opcode = .phi then
    checkPhi f reachable dominators site.block site.instruction
  else checkAll (checkOperand f reachable dominators site) site.instruction.operands

def checkSite (f : Function) (reachable : Finset Nat) (dominators : Nat → Finset Nat)
    (site : Site) : Except String Unit := do
  let i := site.instruction
  checkUses f reachable dominators site
  rejectIf (i.isLiveRangeSplit = true ∧
      (i.opcode ≠ .cast ∨ i.operands.length ≠ 1 ∨ isIntegerType i.type = false ∨
        i.type.arraySize ≠ 0 ∨ i.operation ≠ "" ∨
        sameValueType i.type (f.typeOf (i.operands.headD 0)) = false ∨
        i.type.enumName ≠ (f.typeOf (i.operands.headD 0)).enumName))
    "IR verifier: live-range split requires a representation-identical scalar copy."
  checkOpcode f i

def verifyFunction (f : Function) : Except String Unit := do
  rejectIf (f.name = "") "IR verifier: function has no name."
  rejectIf (f.blocks = []) "IR verifier: function has no basic blocks."
  rejectIf (f.entry = invalidBlock ∨ f.entry ≥ f.blocks.length)
    "IR verifier: function entry block is invalid."
  rejectIf (f.entry ≠ 0) "IR verifier: function entry block must be block zero."
  verifyPointerType f.returnType maxPointerDepth
  checkAll (fun parameter => verifyPointerType parameter.type maxPointerDepth) f.parameters
  verifyStorage f
  let scanned ← foldAll (scanBlock f) [] f.blocks.zipIdx
  let defined := scanned.filter fun site => site.instruction.producesValue
  rejectIf (defined.length ≠ f.valueCount)
    "IR verifier: value IDs must form a contiguous definition sequence."
  rejectIf (∃ v ∈ List.range f.valueCount, ∀ site ∈ defined, site.instruction.result ≠ v + 1)
    "IR verifier: value ID has no definition."
  let reachable ← explore (successors f) diverges f.blocks.length f.entry
  checkAll (checkUnreachable reachable) f.blocks.zipIdx
  let sets ← dominators (predecessors f) reachable f.entry diverges f.blocks.length
  checkScopes f sets
  checkAll (checkSite f reachable sets) f.sites
  StorageInterference.verifyStorageInterference f

/-! ## Modules -/

def checkFar (target : TargetKind) (type : Ty) : Except String Unit :=
  rejectIf ((isFarPointer type = true ∨ true ∈ type.pointerReach) ∧
      supportsCapability target .farData = false)
    "IR verifier: target lacks far-data capability."

def isGraphics (i : Instruction) : Prop :=
  i.inPlotContext = true ∨ i.opcode = .plotCoordinateRead ∨ i.opcode = .plotCoordinateWrite ∨
    i.opcode = .plotBegin ∨ i.opcode = .plotEnd ∨ i.opcode = .plot ∨ i.opcode = .setColor ∨
    i.opcode = .cMode ∨ i.opcode = .rpix

instance (i : Instruction) : Decidable (isGraphics i) := inferInstanceAs (Decidable (_ ∨ _))

def checkCapabilities (target : TargetKind) (i : Instruction) : Except String Unit := do
  checkFar target i.type
  rejectIf (isGraphics i ∧ supportsCapability target .graphics = false)
    "IR verifier: target lacks graphics capability."
  rejectIf (i.opcode = .cache ∧ supportsCapability target .instructionCache = false)
    "IR verifier: target lacks instruction-cache capability."
  rejectIf (isLoopOpcode i.opcode = true ∧ supportsCapability target .hardwareLoops = false)
    "IR verifier: target lacks hardware-loops capability."

def verifyInModule (target : TargetKind) (f : Function) : Except String Unit := do
  rejectIf (f.storageLayoutValid = true ∧ target ≠ .gsu)
    "IR verifier: owned storage planning requires the GSU target."
  checkFar target f.returnType
  checkAll (fun parameter => checkFar target parameter.type) f.parameters
  rejectIf (f.isCached = true ∧ supportsCapability target .instructionCache = false)
    "IR verifier: target lacks instruction-cache capability."
  checkAll (checkCapabilities target) f.instructions
  verifyFunction f

def verify (module : Module) : Except String Unit := do
  match module.bitmap.validate with
  | .error message => .error ("IR verifier: " ++ message)
  | .ok () => pure ()
  rejectIf (module.bitmap.enabled = true ∧ supportsCapability module.target .graphics = false)
    "IR verifier: target lacks graphics capability for bitmap configuration."
  checkAll (verifyInModule module.target) module.functions

end Verifier

end Disco.IR
