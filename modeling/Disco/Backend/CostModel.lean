import Disco.IR.ControlFlow

/-! # Allocation costs

`GSUCostModel`: relative byte counts that rank one register assignment against
another. Sums and products saturate at the largest 64-bit number.
-/

namespace Disco.Backend

open IR Library

/-- Where a value lives: a register, a reusable frame slot, or nowhere when it
is made again at each use. Slot -1 means none. -/
structure Location where
  hasRegister : Bool := false
  rematerializable : Bool := false
  physicalRegister : Nat := 0
  start : Nat := 0
  finish : Nat := 0
  spillSlot : Int := -1
  deriving DecidableEq, Repr

abbrev Locations := Nat → Option Location

structure Allocator where
  locations : Locations
  /-- For the position of a call, what is kept across it. -/
  callLive : Nat → Finset Nat
  spareRegisters : Nat → List Nat

namespace Allocator

def liveAcrossCall (a : Allocator) (value position : Nat) : Prop := value ∈ a.callLive position

instance (a : Allocator) (value position : Nat) : Decidable (a.liveAcrossCall value position) :=
  inferInstanceAs (Decidable (value ∈ a.callLive position))

end Allocator

/-- The values that have a location, in ascending order. -/
def locatedValues (f : Function) : List Nat :=
  (List.range ((f.instructions.map Instruction.result).foldr max 0 + 1)).filter fun v =>
    v ≠ 0 ∧ ∃ i ∈ f.instructions, i.result = v

structure Cost where
  fetchBytes : Nat := 0
  ramBytes : Nat := 0
  deriving DecidableEq, Repr

namespace Cost

def maximum : Nat := 2 ^ 64 - 1

def saturatedAdd (a b : Nat) : Nat := if b > maximum - a then maximum else a + b

def saturatedMultiply (a b : Nat) : Nat := if b ≠ 0 ∧ a > maximum / b then maximum else a * b

def add (total cost : Cost) (weight : Nat) : Cost where
  fetchBytes := saturatedAdd total.fetchBytes (saturatedMultiply cost.fetchBytes weight)
  ramBytes := saturatedAdd total.ramBytes (saturatedMultiply cost.ramBytes weight)

def pressureScore (cost : Cost) (fetchClocks : Nat) : Nat :=
  saturatedAdd (saturatedMultiply cost.fetchBytes fetchClocks) (saturatedMultiply cost.ramBytes 5)

end Cost

namespace CostModel

def literalBytes (value : Nat) : Nat := if value ≤ 127 ∨ value ≥ 0xff80 then 2 else 3

def blockWeight (depth : Nat) : Nat := 2 ^ (min depth 3 * 6)

def copy : Cost := ⟨2, 0⟩

/-- A displacement as the 16-bit literal that encodes it. -/
def displacementBytes (displacement : Int) : Nat := literalBytes (displacement % 65536).toNat

def spillLoad (displacement : Int) (far : Bool) : Cost :=
  ⟨displacementBytes displacement + 4 + (if far then 4 else 0), if far then 4 else 2⟩

def spillStore (displacement : Int) (far : Bool) : Cost :=
  ⟨displacementBytes displacement + (if far then 13 else 4), if far then 4 else 2⟩

def preserveCall : Cost := ⟨8, 4⟩

/-- The frame displacement of a spilled value. -/
def displacement (f : Function) (place : Location) : Int :=
  -(min 65535 (max 0 f.totalLocalAllocSize + 2 * (max 0 place.spillSlot + 1)))

section Allocation

variable (f : Function) (locations : Locations) (cfg : ControlFlow) (sizePolicy : Bool)

def farValue (v : Nat) : Bool := isFarPointer (f.typeOf v)

def read (v : Nat) : Cost :=
  match locations v with
  | none => {}
  | some place =>
      if place.rematerializable then {}
      else if place.hasRegister then copy
      else spillLoad (displacement f place) (farValue f v)

def write (place : Location) (far : Bool) : Cost :=
  if place.hasRegister then copy else spillStore (displacement f place) far

def sameLocation (a b : Nat) : Bool :=
  decide (a = b) ||
    match locations a, locations b with
    | some x, some y =>
        (x.hasRegister && y.hasRegister && decide (x.physicalRegister = y.physicalRegister)) ||
          (!x.hasRegister && !y.hasRegister && decide (x.spillSlot ≥ 0) &&
            decide (x.spillSlot = y.spillSlot))
    | _, _ => false

def weightAt (b : Nat) : Nat := if sizePolicy then 1 else blockWeight (cfg.loopDepth b)

/-- Copies on the edges into a PHI. -/
def phiCost (i : Instruction) (total : Cost) : Cost :=
  (i.operands.zip i.targets).foldl (fun total edge =>
    if sameLocation locations i.result edge.1 then total
    else
      let total := total.add (read f locations edge.1) (weightAt cfg sizePolicy edge.2)
      match locations i.result with
      | some place =>
          if place.rematerializable then total
          else total.add (write f place (isFarPointer i.type)) (weightAt cfg sizePolicy edge.2)
      | none => total) total

/-- Two-address forms that cost nothing when input and result share a home. -/
def isTied (i : Instruction) : Bool :=
  (decide (i.opcode = .unary) && decide (i.operation ∈ ["~", "!", "-"])) ||
    (decide (i.opcode = .binary) && decide (i.operation ∈ ["+", "-", "&", "|", "^"]))

def tiedHere (i : Instruction) : Bool :=
  match locations i.result, i.operands with
  | some place, first :: _ =>
      decide (i.result ≠ 0) && place.hasRegister && sameLocation locations i.result first && isTied i
  | _, _ => false

/-- Values kept in registers across a call have to be saved around it. -/
def callCost (a : Allocator) (i : Instruction) (position weight : Nat) (total : Cost) : Cost :=
  if i.opcode = .call then
    ((locatedValues f).filter fun v => (a.locations v).any Location.hasRegister &&
        decide (a.liveAcrossCall v position)).foldl (fun total _ => total.add preserveCall weight)
      total
  else total

def instructionCost (a : Allocator) (b : Nat) (i : Instruction) (position : Nat) (total : Cost) :
    Cost :=
  let weight := weightAt cfg sizePolicy b
  let tied := tiedHere a.locations i
  let reads := if tied then i.operands.tail else i.operands
  let total := reads.foldl (fun total v => total.add (read f a.locations v) weight) total
  let total :=
    match if i.result = 0 then none else a.locations i.result with
    | some place =>
        if place.rematerializable || tied then total
        else total.add (write f place (isFarPointer i.type)) weight
    | none => total
  callCost f a i position weight total

/-- Every instruction with its block and its position in the function. -/
def positions : List (Nat × Instruction × Nat) :=
  (f.sites.zipIdx).map fun entry => (entry.1.block, entry.1.instruction, entry.2)

def allocation (a : Allocator) : Cost :=
  (positions f).foldl (fun total entry =>
    if entry.2.1.opcode = .phi then phiCost f a.locations cfg sizePolicy entry.2.1 total
    else instructionCost f cfg sizePolicy a entry.1 entry.2.1 entry.2.2 total) {}

end Allocation

end CostModel

end Disco.Backend
