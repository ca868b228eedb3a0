import Disco.Gsu.Machine

/-! # Fetching and running

The run loop with its prefetched byte, fetched through the instruction cache.
The state also says where the prefetched byte came from, and a run remembers
which instructions it has performed, from which registers and memory.
-/

namespace Disco.Gsu

open Library

/-! ## Program bytes -/

/-- A byte of the program bank. -/
def programByte (program : Program) (core : Core) (address : Word) : Except Fault Byte :=
  if program.bank = 0x70 ∨ program.bank = 0x71 then
    readRam core.ram ((program.bank - 0x70) * 65536 + address.toNat)
  else program.readRom (program.bank * 65536 + address.toNat)

/-- Instructions and their operands come from the payload only. -/
def inside (program : Program) (pc : Word) : Prop :=
  program.base ≤ pc.toNat ∧ pc.toNat - program.base < program.size

instance (program : Program) (pc : Word) : Decidable (inside program pc) :=
  inferInstanceAs (Decidable (_ ∧ _))

/-! ## The instruction cache -/

/-- 512 bytes in 32 lines, from a base on. -/
structure Cache where
  cacheBase : Word := 0
  cacheRequests : Nat := 0
  instructionCache : Nat → Byte := fun _ => 0
  cacheValid : Nat → Bool := fun _ => false

/-- The first address of the 16-byte line of an address. -/
def lineStart (address : Word) : Word := address &&& 0xfff0

/-- The bytes of a line; it may reach beyond the payload. -/
def lineBytes (program : Program) (core : Core) (first : Word) : Except Fault (List Byte) :=
  foldAll (fun bytes i => do
    let byte ← programByte program core (first + BitVec.ofNat 16 i)
    .ok (bytes ++ [byte])) [] (List.range 16)

def Cache.fill (cache : Cache) (line : Nat) (bytes : List Byte) : Cache :=
  { cache with
    instructionCache := fun i =>
      if i / 16 = line then bytes.getD (i % 16) 0 else cache.instructionCache i
    cacheValid := Function.update cache.cacheValid line true }

/-- A new base empties the cache. -/
def Cache.rebase (cache : Cache) (pc : Word) : Cache :=
  if cache.cacheBase ≠ lineStart pc then
    { cache with
      cacheBase := lineStart pc
      cacheRequests := cache.cacheRequests + 1
      cacheValid := fun _ => false }
  else { cache with cacheRequests := cache.cacheRequests + 1 }

/-- The byte at R15, through the cache when its window covers it. -/
def fetch (program : Program) (core : Core) (cache : Cache) : Except Fault (Byte × Cache) :=
  let cacheOffset := (core.pc - cache.cacheBase).toNat
  if inside program core.pc then
    if cacheOffset < 512 then
      if cache.cacheValid (cacheOffset / 16) then .ok (cache.instructionCache cacheOffset, cache)
      else do
        let bytes ← lineBytes program core (lineStart core.pc)
        let cache := cache.fill (cacheOffset / 16) bytes
        .ok (cache.instructionCache cacheOffset, cache)
    else do
      let byte ← programByte program core core.pc
      .ok (byte, cache)
  else .error (.outside core.pc.toNat)

/-! ## The run loop -/

structure State where
  core : Core
  /-- The byte to be executed next; at the start a NOP that comes from nowhere. -/
  pipeline : Byte := 1
  /-- Where that byte was fetched. -/
  address : Option Word := none

/-- The machine with its instruction cache. -/
structure Cpu where
  state : State
  cache : Cache

/-- How a run ends. -/
inductive Halt where
  | stopped (core : Core)
  | fault (fault : Fault)

section Run

variable (program : Program)

/-- Fetch the next byte into the pipeline. -/
def prefetch (cpu : Cpu) : Except Fault (Cpu) := do
  let (byte, cache) ← fetch program cpu.state.core cpu.cache
  .ok ⟨{ cpu.state with pipeline := byte, address := some cpu.state.core.pc }, cache⟩

def mapCore (f : Core → Core) (cpu : Cpu) : Cpu :=
  { cpu with state := { cpu.state with core := f cpu.state.core } }

/-- Take the prefetched byte as an operand. -/
def operand (cpu : Cpu) : Except Fault (Byte × Cpu) := do
  let value := cpu.state.pipeline
  let cpu ← prefetch program (mapCore (fun core => core.setPc (core.pc + 1)) cpu)
  .ok (value, cpu)

/-- A branch leaves every selector as it is. -/
def executeBranch (opcode : Byte) (cpu : Cpu) : Except Fault (Cpu) := do
  let (offset, cpu) ← operand program cpu
  .ok (if branchTaken opcode cpu.state.core then
      mapCore (fun core => core.write 15 (core.pc + offset.signExtend 16)) cpu
    else cpu)

def executeIbt (opcode : Byte) (cpu : Cpu) : Except Fault (Cpu) := do
  let (byte, cpu) ← operand program cpu
  .ok (mapCore (fun core =>
    (core.write (Fin.ofNat 16 opcode.toNat) (byte.signExtend 16)).resetSelectors) cpu)

def executeIwt (opcode : Byte) (cpu : Cpu) : Except Fault (Cpu) := do
  let (low, cpu) ← operand program cpu
  let (high, cpu) ← operand program cpu
  .ok (mapCore (fun core => (core.write (Fin.ofNat 16 opcode.toNat)
    (low.setWidth 16 ||| (high.setWidth 16 <<< 8))).resetSelectors) cpu)

def execute (opcode : Byte) (cpu : Cpu) : Except Fault (Cpu) :=
  let core := cpu.state.core
  let plain := core.alt1 = false ∧ core.alt2 = false
  if 5 ≤ opcode.toNat ∧ opcode.toNat ≤ 15 then executeBranch program opcode cpu
  else if 0xa0 ≤ opcode.toNat ∧ opcode.toNat ≤ 0xaf ∧ plain then executeIbt program opcode cpu
  else if 0xf0 ≤ opcode.toNat ∧ plain then executeIwt program opcode cpu
  else do
    let after ← perform program opcode core
    .ok ⟨{ cpu.state with core := after },
      if opcode = 2 then cpu.cache.rebase core.pc else cpu.cache⟩

/-- R15 moves on unless the instruction has written it. -/
def advance (cpu : Cpu) : Cpu :=
  if cpu.state.core.pcWritten then cpu else mapCore (fun core => core.setPc (core.pc + 1)) cpu

def step (cpu : Cpu) : Except Halt (Cpu) := do
  let opcode := cpu.state.pipeline
  let cpu ← (prefetch program cpu).mapError .fault
  let cpu := mapCore (fun core => { core with pcWritten := false }) cpu
  if opcode = 0 then .error (.stopped cpu.state.core)
  else do
    let cpu ← (execute program opcode cpu).mapError .fault
    .ok (advance cpu)

end Run

/-! ## Runs and what they perform -/

/-- An instruction as it is performed: where it is, what it is, and the
registers and memory it starts from. -/
structure Performed where
  address : Option Word
  opcode : Byte
  core : Core

/-- A machine and the instructions it has performed. -/
structure Run where
  cpu : Cpu
  performed : List Performed := []

/-- The instruction in the pipeline. -/
def State.current (state : State) : Performed := ⟨state.address, state.pipeline, state.core⟩

/-- One instruction of a run. -/
def runStep (next : Cpu → Except Halt (Cpu × Performed)) (run : Run) :
    Except Halt Run := do
  let (cpu, event) ← next run.cpu
  .ok ⟨cpu, run.performed ++ [event]⟩

/-- A machine that is seen through `view`: what counts as an instruction. -/
def tracedMachine (next : Cpu → Except Halt (Cpu × Performed))
    (view : Performed → Option Performed) : Machine.{0} Halt Unit Performed where
  State := Run
  step := runStep next
  observe _ := ()
  trace run := run.performed.filterMap view
  grows := by
    intro run result h
    unfold runStep at h
    obtain ⟨pair, -, h⟩ := bind_eq_ok.mp h
    cases h
    simp

/-- A step together with the instruction it performs. -/
def tracedStep (program : Program) (cpu : Cpu) : Except Halt (Cpu × Performed) := do
  let next ← step program cpu
  .ok (next, cpu.state.current)

/-! ## Loading -/

/-- The machine's registers after loading a payload at an origin. -/
def initialRegisters (origin : Nat) (initialSp : Word) : Fin 16 → Word := fun index =>
  if index = 9 then 0x4444 else if index = 10 then initialSp
  else if index = 11 then 0x5555 else if index = 15 then BitVec.ofNat 16 origin else 0

/-- Bytes from an index on. -/
def bytesAt (start : Nat) (bytes : Bytes) (index : Nat) : Byte :=
  if start ≤ index then (bytes.getD (index - start) 0).toBitVec else 0

def loadProgram (payload : Bytes) (origin : Nat) : Program where
  origin := origin
  size := payload.length
  rom := match romIndex origin with
    | .ok start => bytesAt start payload
    | .error _ => fun _ => 0

def initialCore (payload : Bytes) (origin : Nat) (initialSp : Word) (ramBank : Byte) : Core where
  registers := initialRegisters origin initialSp
  ram := if origin / 65536 = 0x70 ∨ origin / 65536 = 0x71 then
      bytesAt ((origin / 65536 - 0x70) * 65536 + origin % 65536) payload
    else fun _ => 0
  ramBank := ramBank
  romBank := if origin / 65536 ≤ 0x5f then BitVec.ofNat 8 (origin / 65536) else 0

end Disco.Gsu
