import Disco.Library.Codec

/-! # Generated startup code

The instructions that select the RAM bank, set the stack, clear and fill the
static RAM image, and jump to an entry address patched in after layout.
-/

namespace Disco

open Library

structure RuntimeInitialization where
  bytes : Bytes := []
  entryPatch : Nat := 0
  deriving DecidableEq, Repr

namespace RuntimeInitialization

/-- The low byte of a value. -/
def lowByte (value : Nat) : UInt8 := UInt8.ofNat value

/-- IWT with a 16-bit value. -/
def word (reg : UInt8) (value : Nat) : Bytes :=
  [0xf0 ||| reg, lowByte value, lowByte (value / 256)]

/-- IBT where its sign extension gives the 16-bit pattern, else IWT. -/
def literal (reg : UInt8) (value : Nat) : Bytes :=
  if value ≤ 0x7f ∨ value ≥ 0xff80 then [0xa0 ||| reg, lowByte value] else word reg value

/-- Stores of the nonzero words of the image; an odd tail is stored as a byte. -/
def storeImage (ramOrigin : Nat) : Nat → Bytes → Bytes
  | _, [] => []
  | offset, [low] =>
      if low = 0 then []
      else literal 1 ((ramOrigin + offset) % 65536) ++ literal 0 low.toNat ++ [0x3d, 0x31]
  | offset, low :: high :: rest =>
      (if low = 0 ∧ high = 0 then []
       else literal 1 ((ramOrigin + offset) % 65536) ++ literal 0 (low.toNat + 256 * high.toNat) ++
         [0x31]) ++ storeImage ramOrigin (offset + 2) rest

end RuntimeInitialization

open RuntimeInitialization in
def makeRuntimeInitialization (bank stack ramOrigin : Nat) (initialImage : Bytes) :
    Except String RuntimeInitialization := do
  rejectIf (bank > 1 ∨ initialImage.length > 65536 - ramOrigin ∨ ramOrigin % 2 ≠ 0)
    "Runtime RAM initialization exceeds its aligned bank allocation."
  let setup := literal 0 bank ++ [0x3e, 0xdf] ++ literal 10 stack
  let clear :=
    if initialImage = [] then []
    else literal 0 0 ++ literal 1 ramOrigin ++ literal 2 (initialImage.length % 65536) ++
      [0x3d, 0x31, 0xd1, 0xe2, 0x08, 0xfa, 0x01] ++ storeImage ramOrigin 0 initialImage
  -- The execution address is patched after layout, so the jump stays IWT.
  .ok ⟨setup ++ clear ++ word 15 0 ++ [1], (setup ++ clear).length + 1⟩

/-- The patched address lies inside the startup code. -/
theorem entryPatch_lt {bank stack ramOrigin : Nat} {initialImage : Bytes}
    {startup : RuntimeInitialization}
    (h : makeRuntimeInitialization bank stack ramOrigin initialImage = .ok startup) :
    startup.entryPatch + 1 < startup.bytes.length := by
  unfold makeRuntimeInitialization at h
  rw [rejectIf_bind_eq_ok] at h
  obtain ⟨-, h⟩ := h
  cases h
  simp only [List.length_append, RuntimeInitialization.word, List.length_cons, List.length_nil]
  omega

end Disco
