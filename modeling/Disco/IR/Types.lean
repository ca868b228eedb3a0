import Disco.Target.Config

/-! # Source types

The semantic type that the analyzer attaches to values and that the IR carries
on every instruction. Pointer layers are listed innermost first; each layer has
its own reach, pointee space and pointee qualifiers.
-/

namespace Disco.IR

def maxPointerDepth : Int := 32

/-- An l-value of the deepest source type still needs an address type. -/
def maxAddressPointerDepth : Int := maxPointerDepth + 1

inductive AddressSpace where
  | none
  | ram
  | rom
  deriving DecidableEq, Repr

inductive BaseType where
  | none
  | byte
  | word
  | void
  | struct
  | bool
  deriving DecidableEq, Repr

structure AccessQualifiers where
  isConst : Bool := false
  isVolatile : Bool := false
  deriving DecidableEq, Repr

/-- The record `Type` of the source. -/
structure Ty where
  base : BaseType := .none
  structName : String := ""
  sizeInBytes : Int := 0
  isUnsigned : Bool := false
  pointerLevel : Int := 0
  isFar : Bool := false
  arraySize : Int := 0
  space : AddressSpace := .none
  pointerReach : List Bool := []
  pointerSpaces : List AddressSpace := []
  isConst : Bool := false
  isVolatile : Bool := false
  pointeeQualifiers : List AccessQualifiers := []
  alignment : Int := 0
  aggregateSize : Int := 0
  enumName : String := ""
  deriving DecidableEq, Repr

def storageAlignment (type : Ty) : Int :=
  if type.pointerLevel > 0 then 2
  else if type.base = .byte ∨ type.base = .bool ∨ type.base = .void then 1
  else if type.base = .struct ∧ type.alignment > 0 then type.alignment
  else 2

def isFarPointer (type : Ty) : Bool :=
  decide (type.pointerLevel > 0) &&
    (if type.pointerReach.isEmpty then type.isFar else type.pointerReach.getLastD false)

def isVoidValue (type : Ty) : Bool :=
  decide (type.base = .void) && decide (type.pointerLevel = 0)

/-- Explicit layer lists for a type whose metadata has the right lengths. The
source stops on any other metadata; the verifier rejects it before a caller
here could see it. -/
def normalizePointerLayers (type : Ty) : Ty :=
  if type.pointerLevel = 0 then
    { type with pointerReach := [], pointerSpaces := [], pointeeQualifiers := [], isFar := false }
  else
    let depth := type.pointerLevel.toNat
    let reach := if type.pointerReach.isEmpty
      then List.replicate (depth - 1) false ++ [type.isFar] else type.pointerReach
    let spaces := if type.pointerSpaces.isEmpty
      then type.space :: List.replicate (depth - 1) AddressSpace.ram else type.pointerSpaces
    let qualifiers := if type.pointeeQualifiers.isEmpty
      then List.replicate depth {} else type.pointeeQualifiers
    { type with
      pointerReach := reach
      pointerSpaces := spaces
      pointeeQualifiers := qualifiers
      isFar := reach.getLastD false
      space := spaces.getLastD .none
      sizeInBytes := if reach.getLastD false then 4 else 2 }

/-- The object reached by dereferencing the outermost layer. -/
def pointeeType (pointer : Ty) : Ty :=
  let type := normalizePointerLayers pointer
  let qualifiers := type.pointeeQualifiers.getLastD {}
  let inner := { type with
    pointerLevel := type.pointerLevel - 1
    pointerReach := type.pointerReach.dropLast
    pointerSpaces := type.pointerSpaces.dropLast
    pointeeQualifiers := type.pointeeQualifiers.dropLast
    isConst := qualifiers.isConst
    isVolatile := qualifiers.isVolatile }
  if inner.pointerLevel > 0 then normalizePointerLayers inner
  else
    { inner with
      isFar := false
      space := type.space
      sizeInBytes :=
        if type.base = .byte ∨ type.base = .bool then 1
        else if type.base = .void then 0
        else if type.base = .struct ∧ type.aggregateSize > 0 then type.aggregateSize
        else 2 }

def samePointerLayers (left right : Ty) : Bool :=
  let left := normalizePointerLayers left
  let right := normalizePointerLayers right
  decide (left.pointerReach = right.pointerReach) &&
    decide (left.pointerSpaces = right.pointerSpaces) &&
    decide (left.pointeeQualifiers = right.pointeeQualifiers)

def usesByteStorage (type : Ty) : Bool :=
  decide (type.pointerLevel = 0) && decide (type.sizeInBytes = 1)

def isIntegerType (type : Ty) : Bool :=
  decide (type.pointerLevel = 0) &&
    decide (type.base = .byte ∨ type.base = .word ∨ type.base = .bool)

/-- Same values, whatever the storage details of the two types are. -/
def sameValueType (left right : Ty) : Bool :=
  decide (left.base = right.base) && decide (left.structName = right.structName) &&
    decide (left.isUnsigned = right.isUnsigned) &&
    decide (left.pointerLevel = right.pointerLevel) &&
    decide (left.arraySize = right.arraySize) &&
    (decide (left.pointerLevel = 0) ||
      (samePointerLayers left right && decide (left.space = right.space)))

theorem sameValueType_fields {left right : Ty} (h : sameValueType left right = true) :
    left.base = right.base ∧ left.isUnsigned = right.isUnsigned ∧
      left.pointerLevel = right.pointerLevel ∧ left.arraySize = right.arraySize := by
  simp only [sameValueType, Bool.and_eq_true, decide_eq_true_eq] at h
  obtain ⟨⟨⟨⟨⟨hb, -⟩, hu⟩, hp⟩, ha⟩, -⟩ := h
  exact ⟨hb, hu, hp, ha⟩

end Disco.IR
