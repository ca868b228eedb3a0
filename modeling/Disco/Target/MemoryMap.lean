import Disco.Library.Checked

/-! # The GSU address space

Only the documented windows are supported: game ROM in the upper halves of
banks `$00`-`$3F`, its mirror in banks `$40`-`$5F`, and cartridge RAM in banks
`$70` and `$71`.
-/

namespace Disco.GsuMemoryMap

open Library

inductive Region where
  | unmapped
  | rom
  | ram
  deriving DecidableEq, Repr

def bank (address : Nat) : Nat := address / 0x10000

def region (address : Nat) : Region :=
  if address > 0xffffff then .unmapped
  else if (bank address ≤ 0x3f ∧ address % 0x10000 ≥ 0x8000) ∨
      (bank address ≥ 0x40 ∧ bank address ≤ 0x5f) then .rom
  else if bank address = 0x70 ∨ bank address = 0x71 then .ram
  else .unmapped

/-- The address in upper-case hexadecimal, as a diagnostic prints it. -/
def addressText (address : Nat) : String := "$" ++ String.ofList ((Nat.toDigits 16 address).map Char.toUpper)

def validateAddress (address : Nat) : Except String Unit :=
  rejectIf (region address = .unmapped) ("GSU address " ++ addressText address ++
    " is outside supported ROM/RAM regions: " ++
    "$00-$3F:$8000-$FFFF, $40-$5F:$0000-$FFFF, or $70-$71:$0000-$FFFF.")

def validatePayload (origin codeBytes dataBytes : Nat) : Except String Unit := do
  validateAddress origin
  let capacity := 0x10000 - origin % 0x10000
  rejectIf (codeBytes > capacity ∨ dataBytes > capacity - codeBytes)
    "GSU payload crosses a program-bank boundary; multi-bank placement is not supported."

def validateNearTarget (origin target : Nat) : Except String Unit := do
  validateAddress origin
  validateAddress target
  -- IWT R15/JAL does not change PBR.
  rejectIf (bank origin ≠ bank target)
    ("16-bit GSU relocation targets a different bank (" ++ addressText origin ++ " -> " ++
      addressText target ++ ").")

theorem validateAddress_eq_ok {address : Nat} {u : Unit} :
    validateAddress address = .ok u ↔ region address ≠ .unmapped := rejectIf_eq_ok

/-- An accepted payload starts in a supported region and ends inside its bank. -/
theorem validatePayload_eq_ok {origin codeBytes dataBytes : Nat} {u : Unit} :
    validatePayload origin codeBytes dataBytes = .ok u ↔
      region origin ≠ .unmapped ∧ origin % 0x10000 + codeBytes + dataBytes ≤ 0x10000 := by
  unfold validatePayload
  rw [bind_eq_ok]
  simp only [validateAddress_eq_ok, rejectIf_eq_ok, exists_const]
  constructor
  · rintro ⟨hr, hc⟩
    exact ⟨hr, by omega⟩
  · rintro ⟨hr, hc⟩
    exact ⟨hr, by omega⟩

theorem validateNearTarget_eq_ok {origin target : Nat} {u : Unit} :
    validateNearTarget origin target = .ok u ↔
      region origin ≠ .unmapped ∧ region target ≠ .unmapped ∧ bank origin = bank target := by
  unfold validateNearTarget
  simp only [bind_eq_ok, validateAddress_eq_ok, rejectIf_eq_ok, not_not, exists_const]

theorem region_eq_ram {address : Nat} :
    region address = .ram ↔ 0x700000 ≤ address ∧ address < 0x720000 := by
  unfold region bank
  split_ifs <;> simp <;> omega

theorem le_of_region_ne_unmapped {address : Nat} (h : region address ≠ .unmapped) :
    address ≤ 0xffffff := by
  unfold region at h
  split_ifs at h <;> simp_all

end Disco.GsuMemoryMap
