import Disco.Target.Config

/-! # Linker options

The settings a link runs with, after command line and manifest have been
merged. Numeric settings carry the range their parser enforces.
-/

namespace Disco.Linker

open Library

/-! ## Numbers -/

/-- The value of a digit in a base of at most 16. -/
def digitValue (base : Nat) (byte : UInt8) : Option Nat :=
  let value :=
    if 48 ≤ byte.toNat ∧ byte.toNat ≤ 57 then byte.toNat - 48
    else if 97 ≤ byte.toNat ∧ byte.toNat ≤ 102 then byte.toNat - 87
    else if 65 ≤ byte.toNat ∧ byte.toNat ≤ 70 then byte.toNat - 55
    else 16
  if value < base then some value else none

/-- Read digits while they are valid: the value and how many were read. -/
def scanDigits (base : Nat) : Name → Nat → Nat → Nat × Nat
  | [], value, consumed => (value, consumed)
  | byte :: rest, value, consumed =>
      match digitValue base byte with
      | some digit => scanDigits base rest (value * base + digit) (consumed + 1)
      | none => (value, consumed)

/-- `std::stoul` with base 0 on a text without sign or leading space: the value
and the number of characters it spans, or nothing when there is no number. -/
def stoul (text : Name) : Option (Nat × Nat) :=
  match text with
  | 48 :: prefixed :: digit :: rest =>
      if (prefixed = 120 ∨ prefixed = 88) ∧ (digitValue 16 digit).isSome then
        some (scanDigits 16 (digit :: rest) 0 2)
      else some (scanDigits 8 text 0 0)
  | 48 :: _ => some (scanDigits 8 text 0 0)
  | first :: _ => if (digitValue 10 first).isSome then some (scanDigits 10 text 0 0) else none
  | [] => none

/-- A character `std::isspace` accepts in the C locale. -/
def isSpace (byte : UInt8) : Bool := byte = 32 ∨ (9 ≤ byte.toNat ∧ byte.toNat ≤ 13)

def parseOptionNumber (text : Name) (maximum : Nat) : Except String Nat := do
  rejectIf (text = [] ∨ text.length > 10 ∨ text.head? = some 45 ∨ text.head? = some 43 ∨
      text.head?.any isSpace = true)
    ("Invalid numeric option value: " ++ nameText text)
  match stoul text with
  | none => .error ("Invalid numeric option value: " ++ nameText text)
  | some (value, consumed) => do
      rejectIf (consumed ≠ text.length ∨ value > maximum)
        ("Numeric option value is out of range: " ++ nameText text)
      .ok value

theorem parseOptionNumber_le {text : Name} {maximum value : Nat}
    (h : parseOptionNumber text maximum = .ok value) : value ≤ maximum := by
  unfold parseOptionNumber at h
  rw [rejectIf_bind_eq_ok] at h
  obtain ⟨-, h⟩ := h
  cases hs : stoul text with
  | none => rw [hs] at h; cases h
  | some pair =>
      rw [hs] at h
      dsimp only at h
      rw [rejectIf_bind_eq_ok] at h
      obtain ⟨hr, h⟩ := h
      cases h
      omega

/-! ## Settings -/

inductive Execution where
  | automatic
  | rom
  | ram
  deriving DecidableEq, Repr

structure Options where
  origin : Option UInt32 := none
  initializeRuntime : Bool := false
  hostGlobals : Bool := false
  /-- A setting that only makes sense with generated startup was given. -/
  runtimeOptions : Bool := false
  ramBank : Nat := 0
  ramOrigin : Nat := 0x0400
  romBank : Option Nat := none
  stackPointer : Nat := 0x2000
  entryName : Name := nameOf "main"
  expectedTarget : Option TargetKind := none
  expectedMapping : Option MemoryMapping := none
  execution : Execution := .automatic
  emitAssembly : Bool := false
  origin_le : ∀ address, origin = some address → address.toNat ≤ 0xffffff := by simp
  ramBank_le : ramBank ≤ 1 := by decide
  ramOrigin_le : ramOrigin ≤ 65535 := by decide
  romBank_le : ∀ bank, romBank = some bank → bank ≤ 0x5f := by simp
  stackPointer_le : stackPointer ≤ 0xfffe := by decide

def checkOptions (options : Options) : Except String Unit := do
  rejectIf (options.runtimeOptions = true ∧ options.initializeRuntime = false)
    "Runtime options require --init-runtime."
  rejectIf (options.ramOrigin % 2 ≠ 0) "Static RAM origin must be word-aligned."
  rejectIf (options.hostGlobals = true ∧ options.initializeRuntime = true)
    "Choose runtime initialization or host-initialized globals, not both."
  rejectIf (options.initializeRuntime = true ∧
      (options.stackPointer < 8 ∨ options.stackPointer % 2 ≠ 0))
    "Initial stack pointer must be even and within 0x0008..0xFFFE."

end Disco.Linker
