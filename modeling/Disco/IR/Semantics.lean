import Disco.IR.Arithmetic
import Disco.Library.Transition

/-! # Execution of IR functions

A function runs one instruction at a time. Scalar arithmetic is computed here;
memory, calls, addresses, pointer checks and the graphics hardware belong to
the machine around the function, which is a parameter: it is asked to perform
an effect on argument values and either replies or refuses (a fault). Every
request is recorded in the trace.

PHIs are assigned in parallel while their edge is taken. Hardware loops keep
their sixteen-bit counters on a stack; a hidden loop, whose backedge is not an
edge of the graph, also keeps the code its backedge returns to.
-/

namespace Disco.IR

open Library

structure Event where
  effect : Effect
  arguments : List Int
  reply : Int
  deriving DecidableEq, Repr

/-- The machine around a function. -/
abbrev Perform (W : Type) := Effect → List Int → W → Option (Int × W)

inductive Halt where
  | returned (value : Option Int)
  | trapped (trap : Trap)
  | refused (effect : Effect) (arguments : List Int)
  | unmatched
  | stuck
  deriving DecidableEq, Repr

/-- The value of an id; `other` is the second component of a division pair. -/
structure Slot where
  word : Int := 0
  other : Int := 0
  deriving DecidableEq, Repr

structure LoopFrame where
  count : Nat
  resume : Option (Nat × List Instruction) := none
  deriving DecidableEq, Repr

structure State (W : Type) where
  block : Nat
  code : List Instruction
  env : Nat → Slot
  loops : List LoopFrame
  world : W
  trace : List Event

variable {W : Type}

def State.word (s : State W) (v : Nat) : Int := (s.env v).word

/-- The value a PHI selects on the edge from `source`. -/
def Instruction.incoming (i : Instruction) (source : Nat) : Nat :=
  (((i.targets.zip i.operands).find? fun edge => edge.1 == source).map Prod.snd).getD 0

/-- Parallel assignment of PHIs on the edge from `source`. -/
def selectPhis (phis : List Instruction) (source : Nat) (env : Nat → Slot) :
    Nat → Slot := fun v =>
  match phis.find? fun i => i.result == v with
  | some i => { word := (env (i.incoming source)).word }
  | none => env v

/-- Take the edge from the current block to `target`. -/
def enter (f : Function) (s : State W) (target : Nat) : State W :=
  { s with
    block := target
    code := body (f.code target)
    env := selectPhis (phis (f.code target)) s.block s.env }

/-- What an instruction gives back: a value for its result, the new state of
the machine, and what it asked for. -/
structure Produced (W : Type) where
  slot : Slot
  world : W
  events : List Event := []

/-- The components of a division pair: the selected one first. -/
def divide (effect : Effect) (a b : Int) : Except Halt Slot :=
  if b = 0 then .error (.trapped .division)
  else
    let quotient := convert (a.tdiv b) effect.type
    let remainder := convert (a.tmod b) effect.type
    .ok (if effect.operation = "/" then ⟨quotient, remainder⟩ else ⟨remainder, quotient⟩)

/-- A scalar instruction whose value is computed rather than requested. -/
def Effect.isArithmetic (effect : Effect) : Bool :=
  decide (effect.opcode = .binary ∨ effect.opcode = .unary ∨ effect.opcode = .cast ∨
    effect.opcode = .bitExtract) && ScalarFold.scalar effect.type

section Step

variable (perform : Perform W)

/-- Ask the machine. -/
def request (effect : Effect) (arguments : List Int) (world : W) : Except Halt (Produced W) :=
  match perform effect arguments world with
  | none => .error (.refused effect arguments)
  | some (reply, world) =>
      .ok ⟨{ word := convert reply effect.type }, world, [⟨effect, arguments, reply⟩]⟩

/-- The value of an instruction whose operands have the given values; `other`
is the second component of the first operand. -/
def produce (effect : Effect) (arguments : List Int) (other : Int) (world : W) :
    Except Halt (Produced W) :=
  if effect.isArithmetic then
    match Arithmetic.compute effect (arguments.getD 0 0) (arguments.getD 1 0) with
    | .error trap => .error (.trapped trap)
    | .ok value => .ok ⟨{ word := value }, world, []⟩
  else
    match effect.opcode with
    | .phi => .error .stuck
    | .constant => .ok ⟨{ word := convert effect.immediate effect.type }, world, []⟩
    | .divMod => do
        let slot ← divide effect (arguments.getD 0 0) (arguments.getD 1 0)
        pure ⟨slot, world, []⟩
    | .divModResult => .ok ⟨{ word := other }, world, []⟩
    | _ => request perform effect arguments world

/-- Store what an instruction produced. -/
def State.record (s : State W) (result : Nat) (p : Produced W) : State W :=
  { s with
    env := if result = 0 then s.env else Function.update s.env result p.slot
    world := p.world
    trace := s.trace ++ p.events }

def State.arguments (s : State W) (i : Instruction) : List Int := i.operands.map s.word

def execute (i : Instruction) (s : State W) : Except Halt (State W) := do
  let p ← produce perform i.effect (s.arguments i) (s.env (i.operands.getD 0 0)).other s.world
  pure (s.record i.result p)

/-- The position of the case a switch takes; a default follows the cases. -/
def Instruction.selectedCase (i : Instruction) (value : Int) : Nat :=
  i.caseValues.findIdx fun label => label == value

/-- The edge a plain terminator selects, or how it halts. -/
def Instruction.leave (i : Instruction) (arguments : List Int) : Except Halt Nat :=
  match i.opcode with
  | .branch => .ok 0
  | .condBranch => .ok (if arguments.getD 0 0 = 0 then 1 else 0)
  | .switch =>
      let selected := i.selectedCase (arguments.getD 0 0)
      if selected < i.targets.length then .ok selected else .error .unmatched
  | .ret => .error (.returned (some (arguments.getD 0 0)))
  | .returnVoid => .error (.returned none)
  | _ => .error .stuck

/-- Take the selected edge of a terminator. -/
def jump (f : Function) (i : Instruction) (selected : Nat) (s : State W) :
    Except Halt (State W) :=
  match i.targets[selected]? with
  | some target => .ok (enter f s target)
  | none => .error .stuck

/-- Decrement a sixteen-bit counter. -/
def countDown (count : Nat) : Nat := (count + 0xffff) % 0x10000

/-- Set up a hardware loop whose request has been granted. -/
def enterLoop (f : Function) (i : Instruction) (rest : List Instruction) (count : Int)
    (s : State W) : Except Halt (State W) :=
  let counter := (count % 0x10000).toNat
  if i.targets.isEmpty then
    .ok { s with code := rest, loops := ⟨counter, some (s.block, rest)⟩ :: s.loops }
  else jump f i 0 { s with loops := ⟨counter, none⟩ :: s.loops }

/-- The end of a loop body: count down, then back to the body or on. -/
def repeatLoop (f : Function) (i : Instruction) (rest : List Instruction) (s : State W) :
    Except Halt (State W) :=
  match s.loops with
  | [] => .error .stuck
  | frame :: outer =>
      let count := countDown frame.count
      if i.targets.isEmpty then
        if count = 0 then .ok { s with code := rest, loops := outer }
        else
          match frame.resume with
          | some (block, code) =>
              .ok { s with block := block, code := code, loops := { frame with count := count } :: outer }
          | none => .error .stuck
      else
        jump f i (if count = 0 then 1 else 0) { s with loops := { frame with count := count } :: outer }

/-- Where control goes after an instruction has been executed. -/
def proceed (f : Function) (i : Instruction) (rest : List Instruction) (count : Int)
    (s : State W) : Except Halt (State W) :=
  match i.opcode with
  | .hardwareLoop => enterLoop f i rest count s
  | .hardwareLoopEnd => repeatLoop f i rest s
  | .hardwareLoopLeave => .ok { s with code := rest, loops := s.loops.tail }
  | _ => .ok { s with code := rest }

/-- One instruction. -/
def step (f : Function) (s : State W) : Except Halt (State W) :=
  match s.code with
  | [] => .error .stuck
  | i :: rest =>
      if isTerminatorOpcode i.opcode then do
        let selected ← i.leave (s.arguments i)
        jump f i selected s
      else do
        let t ← execute perform i s
        proceed f i rest ((s.arguments i).getD 0 0) t

/-- A function at its entry, with the machine around it in state `world`. -/
def start (f : Function) (world : W) : State W where
  block := f.entry
  code := body (f.code f.entry)
  env := fun _ => {}
  loops := []
  world := world
  trace := []

/-! ## The machine of a function -/

theorem jump_eq_ok {f : Function} {i : Instruction} {selected : Nat} {s t : State W}
    (h : jump f i selected s = .ok t) : t.trace = s.trace ∧ t.world = s.world ∧ t.loops = s.loops := by
  unfold jump at h
  split at h
  · cases h
    exact ⟨rfl, rfl, rfl⟩
  · cases h

theorem proceed_trace {f : Function} {i : Instruction} {rest : List Instruction} {count : Int}
    {s t : State W} (h : proceed f i rest count s = .ok t) : t.trace = s.trace := by
  unfold proceed at h
  split at h
  · unfold enterLoop at h
    split at h
    · cases h; rfl
    · exact (jump_eq_ok h).1
  · unfold repeatLoop at h
    split at h
    · cases h
    · simp only at h
      split at h
      · split at h
        · cases h; rfl
        · split at h <;> cases h
          rfl
      · exact (jump_eq_ok h).1
  · cases h; rfl
  · cases h; rfl

theorem step_grows (f : Function) (s t : State W) (h : step perform f s = .ok t) :
    s.trace <+: t.trace := by
  unfold step at h
  split at h
  · cases h
  · split at h
    · obtain ⟨selected, -, h⟩ := bind_eq_ok.mp h
      rw [(jump_eq_ok h).1]
    · obtain ⟨u, hu, h⟩ := bind_eq_ok.mp h
      obtain ⟨p, -, hp⟩ := bind_eq_ok.mp hu
      cases hp
      rw [proceed_trace h]
      exact List.prefix_append _ _

/-- The function as a machine: the trace and the state of the machine around
it are what an observer sees at the end. -/
def machine (f : Function) : Machine Halt (List Event × W) Event where
  State := State W
  step := step perform f
  observe s := (s.trace, s.world)
  trace := State.trace
  grows := step_grows perform f

end Step

end Disco.IR
