import Disco.IR.Syntax
import Disco.Library.Flow

/-! # The verifier's check of shared storage

`verifyStorageInterference`: a liveness analysis of the contents of locals,
written apart from the planner. A plan in which locals share bytes, or live in
an immutable pool, is accepted when no write and no read of one local can touch
another local whose content is still needed.
-/

namespace Disco.IR.StorageInterference

open Library

def conflict : String := "IR verifier: pooled/shared storage has an alias or lifetime conflict."

/-- Stack bytes a local may occupy, alignment slack included. -/
def reservedBytes (type : Ty) : Int :=
  (type.sizeInBytes * max 1 type.arraySize + 1) / 2 * 2 +
    max (max 2 type.alignment) (storageAlignment type) - 2

/-- Two locals, the smaller symbol first, whose stack bytes intersect. -/
def overlapping (layout : LocalSymbolTable) : List (Nat × Nat) :=
  layout.entries.flatMap fun a =>
    if a.2.stackOffset ≥ 0 then []
    else
      (layout.entries.filter fun b =>
        decide (a.1 < b.1) && decide (b.2.stackOffset < 0) &&
          decide (a.2.stackOffset < b.2.stackOffset + reservedBytes b.2.type) &&
          decide (b.2.stackOffset < a.2.stackOffset + reservedBytes a.2.type)).map
        fun b => (a.1, b.1)

/-- The local a pointer value is derived from, and whether it is its start. -/
structure Owners where
  owner : Nat → Nat := fun _ => 0
  zero : Nat → Bool := fun _ => false

/-- Direct addresses of locals; also the shapes that no plan may contain. -/
def scanRoots (f : Function) (state : Nat × Owners) (i : Instruction) :
    Except String (Nat × Owners) := do
  rejectIf (state.1 + 1 > 16000) conflict
  rejectIf (i.opcode = .call ∨ i.opcode = .load ∨ i.opcode = .store) conflict
  if i.opcode = .address ∧ i.operation = "" ∧ i.symbolId ≠ 0 then
    rejectIf ((f.immutableLocalArrays.find i.symbolId).any (fun pool =>
      !sameValueType { pool.type with arraySize := 0 } (pointeeType i.type)) = true) conflict
    pure (state.1 + 1,
      { owner := Function.update state.2.owner i.result i.symbolId
        zero := Function.update state.2.zero i.result true })
  else pure (state.1 + 1, state.2)

/-- An index operand that is the literal zero. -/
def literalZero (f : Function) (v : Nat) : Bool :=
  match f.definition v with
  | some index => decide (index.opcode = .constant) && decide (index.immediate = 0)
  | none => false

/-- A derived address inherits its base's owner. -/
def deriveOwner (f : Function) (state : Owners × Bool) (i : Instruction) : Owners × Bool :=
  let owners := state.1
  let base := i.operands.headD 0
  if i.result = 0 ∨ owners.owner i.result ≠ 0 ∨ i.operands = [] ∨ owners.owner base = 0 then state
  else if (i.opcode = .address ∧ i.operation = "member") ∨ i.opcode = .pointerOffset then
    let same :=
      if i.opcode = .pointerOffset then
        decide (i.operands.length = 2) && literalZero f (i.operands.getD 1 0)
      else decide (i.immediate = 0)
    ({ owner := Function.update owners.owner i.result (owners.owner base)
       zero := Function.update owners.zero i.result (same && owners.zero base) }, true)
  else state

/-- At most so many passes over the function, or until nothing changes. -/
def deriveOwners (f : Function) : Nat → Owners → Owners
  | 0, owners => owners
  | rounds + 1, owners =>
      let swept := f.instructions.foldl (deriveOwner f) (owners, false)
      if swept.2 then deriveOwners f rounds swept.1 else swept.1

structure ContentEvent where
  symbol : Nat := 0
  read : Bool := false
  write : Bool := false
  kill : Bool := false
  deriving DecidableEq, Repr

/-- An owned pointer may be dereferenced or derived from, and nothing else. -/
def checkOperands (f : Function) (owners : Owners) (i : Instruction) : Except String Unit :=
  checkAll (fun use : Nat × Nat =>
      let owner := owners.owner use.1
      let derived := decide (use.2 = 0) && decide (i.result ≠ 0) &&
        decide (owners.owner i.result ≠ 0) &&
        decide (i.opcode = .address ∨ i.opcode = .pointerOffset)
      let read := decide (use.2 = 0) && decide (i.opcode = .loadIndirect)
      let write := decide (use.2 = 0) &&
        decide (i.opcode = .storeIndirect ∨ i.opcode = .memoryInitialize)
      rejectIf (owner ≠ 0 ∧ ((derived = false ∧ read = false ∧ write = false) ∨
        (write = true ∧ f.immutableLocalArrays.contains owner = true))) conflict)
    i.operands.zipIdx

/-- What an instruction does to the content of a stack local. -/
def contentEvent (f : Function) (owners : Owners) (i : Instruction) :
    Except String ContentEvent := do
  if i.opcode = .loadIndirect ∨ i.opcode = .storeIndirect ∨ i.opcode = .memoryInitialize then
    let pointer := i.operands.headD 0
    let symbol := owners.owner pointer
    rejectIf (symbol = 0 ∧ (f.definition pointer).isSome = true ∧ (f.typeOf pointer).space = .ram)
      conflict
    match f.storageLayout.find symbol with
    | none => pure { symbol := symbol }
    | some place =>
        if place.stackOffset ≥ 0 then pure { symbol := symbol }
        else
          let read := decide (i.opcode = .loadIndirect)
          let width := i.type.sizeInBytes *
            (if i.opcode = .memoryInitialize then i.initializationValues.length else 1)
          pure
            { symbol := symbol
              read := read
              write := !read
              kill := !read && owners.zero pointer &&
                decide (width = place.type.sizeInBytes * max 1 place.type.arraySize) }
  else pure {}

def blockEvents (f : Function) (owners : Owners) (block : BasicBlock) :
    Except String (List ContentEvent) :=
  foldAll (fun events i => do
      checkOperands f owners i
      let event ← contentEvent f owners i
      pure (events ++ [event]))
    [] block.instructions

/-- Contents read before they are overwritten, and contents overwritten. -/
def usesAndDefs (events : List ContentEvent) : Finset Nat × Finset Nat :=
  events.foldl (fun state event =>
      (if event.read ∧ event.symbol ∉ state.2 then insert event.symbol state.1 else state.1,
        if event.kill then insert event.symbol state.2 else state.2))
    (∅, ∅)

def blockSuccessors (block : BasicBlock) : List Nat :=
  block.instructions.flatMap fun i => if i.opcode = .phi then [] else i.targets

structure Liveness where
  before : Nat → Finset Nat := fun _ => ∅
  after : Nat → Finset Nat := fun _ => ∅
  work : Nat := 0
  changed : Bool := false

def liveAfter (successors : List Nat) (state : Liveness) : Finset Nat :=
  successors.foldl (fun live next => live ∪ state.before next) ∅

def liveBefore (events : List ContentEvent) (after : Finset Nat) : Finset Nat :=
  (usesAndDefs events).1 ∪ after.filter (· ∉ (usesAndDefs events).2)

/-- Recompute one block in place. -/
def propagate (successors : Nat → List Nat) (events : Nat → List ContentEvent)
    (state : Liveness) (b : Nat) : Except String Liveness := do
  let after := liveAfter (successors b) state
  let before := liveBefore (events b) after
  let work := state.work + before.card + after.card + 1
  rejectIf (work > 2000000) conflict
  if before ≠ state.before b ∨ after ≠ state.after b then
    pure
      { before := Function.update state.before b before
        after := Function.update state.after b after
        work := work
        changed := true }
  else pure { state with work := work }

/-- Backward passes over the blocks until one changes nothing. The work limit
ends the iteration if nothing else does. -/
def liveness (count : Nat) (successors : Nat → List Nat)
    (events : Nat → List ContentEvent) : Except String Liveness :=
  loop (fun state => do
      let swept ← foldAll (propagate successors events) { state with changed := false }
        (List.range count).reverse
      pure (if swept.changed then some swept else none))
    conflict 2000001 { }

def checkPair (pairs : List (Nat × Nat)) (a b : Nat) : Except String Unit :=
  rejectIf (a ≠ b ∧ (min a b, max a b) ∈ pairs) conflict

/-- Walk a block backward with the contents still needed below. -/
def checkEvents (pairs : List (Nat × Nat)) :
    List ContentEvent → List Nat → Except String Unit
  | [], _ => .ok ()
  | event :: above, live => do
      if event.write then checkAll (checkPair pairs event.symbol) live else pure ()
      let live := if event.kill then live.filter (· ≠ event.symbol) else live
      if event.read then do
        checkAll (checkPair pairs event.symbol) live
        checkEvents pairs above (event.symbol :: live.filter (· ≠ event.symbol))
      else checkEvents pairs above live

/-- Only symbols of the layout carry content, so a live set is a part of its keys. -/
def liveSymbols (layout : LocalSymbolTable) (live : Finset Nat) : List Nat :=
  (layout.entries.map Prod.fst).filter (· ∈ live)

def checkBlock (f : Function) (pairs : List (Nat × Nat)) (live : Liveness)
    (b : Nat) (events : List ContentEvent) : Except String Unit := do
  let after := liveSymbols f.storageLayout (live.after b)
  checkAll (fun a => checkAll (checkPair pairs a) after) after
  checkEvents pairs events.reverse after

def verifyStorageInterference (f : Function) : Except String Unit :=
  if f.storageLayoutValid = false then .ok ()
  else
    let pairs := overlapping f.storageLayout
    if pairs.isEmpty ∧ f.immutableLocalArrays.size = 0 then .ok ()
    else do
      rejectIf (f.valueCount > 8192 ∨ f.blocks.length > 256) conflict
      checkAll (fun parameter =>
        rejectIf (parameter.type.pointerLevel ≠ 0 ∧ parameter.type.space = .ram) conflict) f.parameters
      let roots ← foldAll (scanRoots f) (0, {}) f.instructions
      let owners := deriveOwners f 64 roots.2
      let events ← foldAll (fun all block => do
          let events ← blockEvents f owners block
          pure (all ++ [events]))
        [] f.blocks
      let successors := fun b => ((f.blocks[b]?).map blockSuccessors).getD []
      let live ← liveness f.blocks.length successors (fun b => events.getD b [])
      checkAll (fun block : List ContentEvent × Nat => checkBlock f pairs live block.2 block.1)
        events.zipIdx

end Disco.IR.StorageInterference
